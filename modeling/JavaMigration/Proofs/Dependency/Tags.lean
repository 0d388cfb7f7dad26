import JavaMigration.Proofs.Dependency.Markup
import JavaMigration.Proofs.Text.Lines

/-!
# Going from tag to tag

A search looks at every position of a text, but what it looks for begins with a tag. So in a text
cut at its tags only the tags count, and end tags can be told from all others.
-/

namespace JavaMigration.Text

variable {α : Type}

theorem mem_blankTails {s t : List Char} :
    t ∈ blankTails s ↔ ∃ front, front.all isBlank ∧ s = front ++ t := by
  induction s generalizing t with
  | nil =>
    simp only [blankTails, List.mem_singleton]
    constructor
    · rintro rfl
      exact ⟨[], rfl, rfl⟩
    · rintro ⟨front, -, h⟩
      exact (List.nil_eq_append_iff.mp h).2
  | cons c s ih =>
    rw [blankTails, List.mem_cons]
    constructor
    · rintro (rfl | h)
      · exact ⟨[], rfl, rfl⟩
      · split at h
        · next hc =>
          obtain ⟨front, hfront, rfl⟩ := ih.mp h
          exact ⟨c :: front, by rw [List.all_cons, hc, hfront]; rfl, rfl⟩
        · cases h
    · rintro ⟨front, hfront, h⟩
      cases front with
      | nil => exact .inl h.symm
      | cons d front =>
        obtain ⟨rfl, rfl⟩ := List.cons.inj h
        rw [List.all_cons, Bool.and_eq_true] at hfront
        rw [if_pos hfront.1]
        exact .inr (ih.mpr ⟨front, hfront.2, rfl⟩)

/-- A beginning without marks is read off before the next mark. -/
theorem dropStart?_append_of_marks {marks : Char → Bool} {start r : List Char} (s : List Char)
    (hstart : ∀ c ∈ start, marks c = false) (hr : r.head?.all marks) :
    dropStart? start (s ++ r) = (dropStart? start s).map (· ++ r) := by
  induction start generalizing s with
  | nil => rfl
  | cons p start ih =>
    obtain ⟨hp, hstart⟩ := List.forall_mem_cons.mp hstart
    cases s with
    | nil =>
      cases r with
      | nil => rfl
      | cons c r =>
        have hne : p ≠ c := by
          rintro rfl
          exact Bool.false_ne_true (hp.symm.trans hr)
        exact if_neg hne
    | cons c s =>
      rw [List.cons_append, dropStart?, dropStart?]
      split
      · exact ih s hstart
      · rfl

/-! ## Searching on -/

/-- A search that starts to count later finds the same further behind. -/
theorem findFirst_add (f : List Char → Option α) (n k : Nat) (s : List Char) :
    findFirst f (n + k) s = (findFirst f n s).map fun found => (found.1 + k, found.2) := by
  induction s generalizing n with
  | nil => cases h : f [] <;> simp [findFirst, h]
  | cons c s ih =>
    rw [findFirst, findFirst]
    cases f (c :: s) with
    | some a => rfl
    | none => rw [← ih, Nat.add_right_comm]

/-- What is found is recognised somewhere in the text. -/
theorem exists_of_findFirst {f : List Char → Option α} {n k : Nat} {s : List Char} {a : α}
    (h : findFirst f n s = some (k, a)) : ∃ t, t <:+ s ∧ f t = some a := by
  induction s generalizing n with
  | nil =>
    obtain ⟨a', ha, heq⟩ := Option.map_eq_some_iff.mp h
    obtain ⟨-, rfl⟩ := Prod.mk.inj heq
    exact ⟨[], List.suffix_refl _, ha⟩
  | cons c s ih =>
    rw [findFirst] at h
    split at h
    · next a' ha =>
      cases h
      exact ⟨c :: s, List.suffix_refl _, ha⟩
    · obtain ⟨t, ht, ha⟩ := ih h
      exact ⟨t, ht.trans (List.suffix_cons c s), ha⟩

theorem findAny_eq (f : List Char → Option α) (n : Nat) (s : List Char) :
    findAny f s = (findFirst f n s).isSome := by
  have h := findFirst_add f 0 n s
  rw [Nat.zero_add] at h
  rw [findAny, h, Option.isSome_map]

/-- The characters of an occurrence are passed over. -/
theorem findAll_pass (f : List Char → Option (Nat × α)) (n : Nat) (s r : List Char) :
    findAll f s.length n (s ++ r) = findAll f 0 (n + s.length) r := by
  induction s generalizing n with
  | nil => rfl
  | cons c s ih =>
    rw [List.length_cons, List.cons_append, findAll, ih, Nat.add_assoc, Nat.add_comm 1]

theorem findAll_of_some {f : List Char → Option (Nat × α)} {s r : List Char} {a : α} (n : Nat)
    (hs : s ≠ []) (h : f (s ++ r) = some (s.length, a)) :
    findAll f 0 n (s ++ r) = (n, a) :: findAll f 0 (n + s.length) r := by
  cases s with
  | nil => exact absurd rfl hs
  | cons c s =>
    rw [List.cons_append] at h ⊢
    rw [findAll, h]
    simp only [List.length_cons, Nat.add_sub_cancel]
    rw [findAll_pass, Nat.add_assoc, Nat.add_comm 1]

theorem not_mem_front {sep : Char} {s front back : List Char}
    (h : cutFirst sep s = some (front, back)) : sep ∉ front := by
  induction s generalizing front with
  | nil => cases h
  | cons c s ih =>
    unfold cutFirst at h
    split at h
    · cases h
      exact List.not_mem_nil
    · next hc =>
      obtain ⟨⟨before, behind⟩, hcut, heq⟩ := Option.map_eq_some_iff.mp h
      cases heq
      exact List.not_mem_cons_of_ne_of_not_mem (Ne.symm hc) (ih hcut)

/-- Nothing is found where nothing begins. -/
theorem findAll_of_none {f : List Char → Option (Nat × α)} (n : Nat) {s : List Char}
    (h : ∀ c ∈ s, ∀ t, f (c :: t) = none) (r : List Char) :
    findAll f 0 n (s ++ r) = findAll f 0 (n + s.length) r := by
  induction s generalizing n with
  | nil => rfl
  | cons c s ih =>
    obtain ⟨hc, hs⟩ := List.forall_mem_cons.mp h
    rw [List.cons_append, findAll, hc]
    dsimp only
    rw [ih _ hs, List.length_cons, Nat.add_assoc, Nat.add_comm 1]

end JavaMigration.Text

namespace JavaMigration.Dependency

open Text

variable {α : Type}

/-! ## From tag to tag -/

/-- What is recognised begins with a tag. -/
def SeesTags (f : List Char → Option α) : Prop := ∀ s, (f s).isSome → s.head? = some '<'

theorem SeesTags.eq_none {f : List Char → Option α} (hf : SeesTags f) {s : List Char}
    (hs : s.head? ≠ some '<') : f s = none :=
  Option.not_isSome_iff_eq_none.mp fun h => hs (hf s h)

/-- What is recognised begins with the start tag of a name. -/
def SeesTag (name : List Char) (f : List Char → Option α) : Prop :=
  ∀ s, (f s).isSome → (dropStart? (openTag name) s).isSome

theorem SeesTag.eq_none {name : List Char} {f : List Char → Option α} (hf : SeesTag name f)
    {s : List Char} (hs : dropStart? (openTag name) s = none) : f s = none :=
  Option.not_isSome_iff_eq_none.mp fun h => by
    have hopen := hf s h
    rw [hs] at hopen
    cases hopen

theorem SeesTag.seesTags {name : List Char} {f : List Char → Option α} (hf : SeesTag name f) :
    SeesTags f := by
  intro s h
  obtain ⟨r, hr⟩ := Option.isSome_iff_exists.mp (hf s h)
  rw [dropStart?_eq_some_iff.mp hr]
  rfl

/-- Text in front of the next tag is passed over. -/
theorem findFirst_text {f : List Char → Option α} (hf : SeesTags f) (n : Nat) {text : List Char}
    (htext : '<' ∉ text) (r : List Char) :
    findFirst f n (text ++ r) = findFirst f (n + text.length) r := by
  induction text generalizing n with
  | nil => rfl
  | cons c text ih =>
    have hnone : f (c :: (text ++ r)) = none :=
      hf.eq_none fun h => List.ne_of_not_mem_cons htext (Option.some.inj h).symm
    rw [List.cons_append, findFirst, hnone]
    dsimp only
    rw [ih _ (List.not_mem_of_not_mem_cons htext), List.length_cons, Nat.add_assoc, Nat.add_comm 1]

theorem findAll_text {f : List Char → Option (Nat × α)} (hf : SeesTags f) (n : Nat)
    {text : List Char} (htext : '<' ∉ text) (r : List Char) :
    findAll f 0 n (text ++ r) = findAll f 0 (n + text.length) r := by
  refine findAll_of_none n (fun c hc t => hf.eq_none fun h => ?_) r
  obtain rfl := Option.some.inj h
  exact htext hc

/-- Only at its beginning can anything be found in a text up to the next bracket. -/
theorem findFirst_bracket {f : List Char → Option α} (hf : SeesTags f) (n : Nat) {text : List Char}
    (htext : '<' ∉ text) (r : List Char) :
    findFirst f n ('<' :: (text ++ r)) =
      ((f ('<' :: (text ++ r))).map (n, ·)).or (findFirst f (n + 1 + text.length) r) := by
  rw [findFirst, findFirst_text hf _ htext]
  cases f ('<' :: (text ++ r)) <;> rfl

theorem findAll_bracket {f : List Char → Option (Nat × α)} (hf : SeesTags f) (n : Nat)
    {text : List Char} (htext : '<' ∉ text) {r : List Char} (h : f ('<' :: (text ++ r)) = none) :
    findAll f 0 n ('<' :: (text ++ r)) = findAll f 0 (n + 1 + text.length) r := by
  rw [findAll, h]
  dsimp only
  rw [findAll_text hf _ htext]

/-- What stands behind the opening bracket of a tag, up to the tag after it. -/
def afterBracket (body text : List Char) : List Char := body ++ '>' :: text

theorem openTag_append (body text r : List Char) :
    openTag body ++ (text ++ r) = '<' :: (afterBracket body text ++ r) := by
  simp [openTag, afterBracket]

theorem length_afterBracket (n : Nat) (body text : List Char) :
    n + 1 + (afterBracket body text).length = n + (openTag body).length + text.length := by
  simp only [afterBracket, List.length_append, List.length_cons, Markup.length_openTag]
  omega

theorem not_mem_afterBracket {body text : List Char} (hbody : '<' ∉ body) (htext : '<' ∉ text) :
    '<' ∉ afterBracket body text := by
  simp [afterBracket, hbody, htext]

theorem findFirst_tag {f : List Char → Option α} (hf : SeesTags f) (n : Nat)
    {body text : List Char} (hbody : '<' ∉ body) (htext : '<' ∉ text) (r : List Char) :
    findFirst f n (openTag body ++ (text ++ r)) =
      ((f (openTag body ++ (text ++ r))).map (n, ·)).or
        (findFirst f (n + (openTag body).length + text.length) r) := by
  rw [openTag_append, findFirst_bracket hf n (not_mem_afterBracket hbody htext), length_afterBracket]

theorem findAny_tag {f : List Char → Option α} (hf : SeesTags f) {body text : List Char}
    (hbody : '<' ∉ body) (htext : '<' ∉ text) (r : List Char) :
    findAny f (openTag body ++ (text ++ r)) =
      ((f (openTag body ++ (text ++ r))).isSome || findAny f r) := by
  rw [findAny_eq f 0, findFirst_tag hf 0 hbody htext, Option.isSome_or, ← findAny_eq,
    Option.isSome_map]

theorem findAll_tag {f : List Char → Option (Nat × α)} (hf : SeesTags f) (n : Nat)
    {body text : List Char} (hbody : '<' ∉ body) (htext : '<' ∉ text) {r : List Char}
    (h : f (openTag body ++ (text ++ r)) = none) :
    findAll f 0 n (openTag body ++ (text ++ r)) =
      findAll f 0 (n + (openTag body).length + text.length) r := by
  rw [openTag_append] at h ⊢
  rw [findAll_bracket hf n (not_mem_afterBracket hbody htext) h, length_afterBracket]

theorem bracket_append_inj {body body' r r' : List Char} (hbody : '>' ∉ body)
    (hbody' : '>' ∉ body') (h : body ++ '>' :: r = body' ++ '>' :: r') :
    body = body' ∧ r = r' := by
  induction body generalizing body' with
  | nil =>
    cases body' with
    | nil => exact ⟨rfl, (List.cons.inj h).2⟩
    | cons c body' => exact absurd (List.cons.inj h).1 (List.ne_of_not_mem_cons hbody')
  | cons c body ih =>
    cases body' with
    | nil => exact absurd (List.cons.inj h).1.symm (List.ne_of_not_mem_cons hbody)
    | cons d body' =>
      obtain ⟨hc, htail⟩ := List.cons.inj h
      obtain ⟨hbodies, hrests⟩ := ih (List.not_mem_of_not_mem_cons hbody)
        (List.not_mem_of_not_mem_cons hbody') htail
      exact ⟨by rw [hc, hbodies], hrests⟩

theorem openTag_append_inj {body body' r r' : List Char} (hbody : '>' ∉ body)
    (hbody' : '>' ∉ body') (h : openTag body ++ r = openTag body' ++ r') :
    body = body' ∧ r = r' := by
  simp only [openTag, List.cons_append, List.append_assoc, List.nil_append, List.cons.injEq,
    true_and] at h
  exact bracket_append_inj hbody hbody' h

/-! ## End tags -/

namespace Markup

theorem closeTag_eq (name : List Char) : closeTag name = openTag ('/' :: name) := rfl

theorem isName_spec {name : List Char} (h : isName name) :
    name ≠ [] ∧ '<' ∉ name ∧ '>' ∉ name ∧ '/' ∉ name := by
  simp only [isName, Bool.and_eq_true, Bool.not_eq_true', List.isEmpty_eq_false_iff,
    List.all_eq_true] at h
  obtain ⟨⟨⟨hne, hall⟩, -⟩, -⟩ := h
  have hfree (c : Char) (hc : (isPlain c && c != '/') = false) : c ∉ name := fun hmem => by
    have := (hall c hmem).1
    simp only [Bool.and_eq_false_iff] at hc
    rcases hc with hc | hc <;> simp [hc] at this
  exact ⟨hne, hfree _ rfl, hfree _ rfl, hfree _ rfl⟩

theorem not_mem_slash {name : List Char} (h : '>' ∉ name) : '>' ∉ '/' :: name := by
  simp [h]

/-- What stands in the brackets of a start tag. -/
theorem startTag_spec {name attributes : List Char} (hname : isName name)
    (hattributes : isAttributes attributes) :
    '<' ∉ name ++ attributes ∧ '>' ∉ name ++ attributes := by
  obtain ⟨-, hlt, hgt, -⟩ := isName_spec hname
  rw [isAttributes, Bool.and_eq_true] at hattributes
  obtain ⟨hlt', hgt'⟩ := not_mem_of_all_isPlain hattributes.1
  simp [hlt, hgt, hlt', hgt']

/-- Attributes begin with a blank, so a tag that is nothing but a name has none. -/
theorem attributes_eq_nil {name attributes : List Char} (hattributes : isAttributes attributes)
    (h : isName (name ++ attributes)) : attributes = [] := by
  cases attributes with
  | nil => rfl
  | cons c attributes =>
    rw [isAttributes, Bool.and_eq_true] at hattributes
    have hblank : isBlank c = true := hattributes.2
    simp only [isName, Bool.and_eq_true, List.all_eq_true] at h
    have hno := (h.1.1.2 c (List.mem_append_right _ List.mem_cons_self)).2
    rw [hblank] at hno
    cases hno

/-- What stands in the brackets of an end tag. -/
theorem endTag_spec {name : List Char} (hname : isName name) :
    '<' ∉ '/' :: name ∧ '>' ∉ '/' :: name ∧ ¬ isName ('/' :: name) := by
  obtain ⟨-, hlt, hgt, -⟩ := isName_spec hname
  exact ⟨by simp [hlt], not_mem_slash hgt, fun h => (isName_spec h).2.2.2 List.mem_cons_self⟩

theorem isMark_spec {body : List Char} (h : isMark body) :
    '<' ∉ body ∧ '>' ∉ body ∧ body.head? ≠ some '/' ∧ ¬ isName body := by
  rw [isMark, Bool.and_eq_true] at h
  obtain ⟨hplain, hform⟩ := h
  obtain ⟨hopen, hclose⟩ := not_mem_of_all_isPlain hplain
  simp only [Bool.or_eq_true, beq_iff_eq, Bool.and_eq_true, bne_iff_ne] at hform
  refine ⟨hopen, hclose, ?_, ?_⟩
  · obtain (h | h) | h := hform
    · rw [h]
      decide
    · rw [h]
      decide
    · exact h.2
  · intro hname
    obtain (h | h) | h := hform
    · simp [isName, h] at hname
    · simp [isName, h] at hname
    · exact (isName_spec hname).2.2.2 (List.mem_of_getLast? h.1)

end Markup

open Markup

/-- A text that is at its end or at an end tag. -/
def AtEnd (r : List Char) : Prop := r = [] ∨ ∃ name r', isName name ∧ r = closeTag name ++ r'

theorem atEnd_closeTag {name : List Char} (h : isName name) (r : List Char) :
    AtEnd (closeTag name ++ r) := .inr ⟨name, r, h, rfl⟩

theorem AtEnd.atTag {r : List Char} (h : AtEnd r) : AtTag r := by
  obtain rfl | ⟨name, r', -, rfl⟩ := h
  · rfl
  · rfl

/-- An end tag behind elements is the one that closes the element around them, if there are
none. -/
theorem print_append_eq_closeTag {m : Markup} {inside : Bool} {name r r' : List Char}
    (hm : m.isWellFormed inside) (hr : AtEnd r) (hname : '>' ∉ name)
    (h : m.print ++ r = closeTag name ++ r') :
    m = nil ∧ isName name ∧ r = closeTag name ++ r' := by
  cases m with
  | nil =>
    obtain rfl | ⟨x, r'', hx, rfl⟩ := hr
    · cases h
    · obtain ⟨hbody, -⟩ := openTag_append_inj (not_mem_slash (isName_spec hx).2.2.1)
        (not_mem_slash hname) h
      obtain ⟨-, rfl⟩ := List.cons.inj hbody
      exact ⟨rfl, hx, h⟩
  | element x attributes text children tail rest =>
    simp only [isWellFormed, Bool.and_eq_true] at hm
    obtain ⟨⟨⟨⟨⟨⟨hx, hattributes⟩, -⟩, -⟩, -⟩, -⟩, -⟩ := hm
    obtain ⟨hne, -, -, hslash⟩ := isName_spec hx
    rw [print, List.append_assoc] at h
    obtain ⟨hsame, -⟩ := openTag_append_inj (startTag_spec hx hattributes).2 (not_mem_slash hname) h
    obtain ⟨c, x, rfl⟩ := List.exists_cons_of_ne_nil hne
    obtain ⟨rfl, -⟩ := List.cons.inj hsame
    exact absurd List.mem_cons_self hslash
  | mark body tail rest =>
    simp only [isWellFormed, Bool.and_eq_true] at hm
    obtain ⟨-, hgt, hslash, -⟩ := isMark_spec hm.1.1
    rw [print, List.append_assoc] at h
    obtain ⟨rfl, -⟩ := openTag_append_inj hgt (not_mem_slash hname) h
    exact absurd rfl hslash

end JavaMigration.Dependency
