import Mathlib.Data.List.Infix
import JavaMigration.Proofs.Dependency.Notations
import JavaMigration.Proofs.Dependency.Stretches
import JavaMigration.Proofs.Java.Heads

/-!
# Upgrading twice

Writing a version of digits and dots into a Maven file leaves its tags as they are. So a second search
goes through the same dependencies, and what it finds in them is the target or what the first one
found there (`mem_found_write`). A dependency may be lost on the way, when its group or its artifact
is written over as if it were a version, but none is gained. An upgrade that has been carried out
therefore changes nothing when it is carried out again.
-/

namespace JavaMigration.Dependency

open Text Markup Stretch

/-! ## Letters -/

/-- A letter is no part of a dotted number, and no blank. -/
theorem letter_spec {c : Char} (h : isLetter c) :
    isBlank c = false ∧ (c.isDigit || c == '.') = false := by
  have halphanumeric : isAlphanumeric c := by
    rw [isLetter] at h
    rw [isAlphanumeric]
    split at h
    · next hascii =>
      rw [if_pos hascii, Char.isAlphanum, h]
      rfl
    · next hascii =>
      rw [if_neg hascii, h]
      rfl
  refine ⟨?_, ?_⟩
  · rw [Bool.eq_false_iff]
    intro hblank
    have hno := isNameChar_of_isBlank hblank
    rw [isNameChar, halphanumeric] at hno
    cases hno
  · rw [Bool.or_eq_false_iff]
    refine ⟨?_, ?_⟩
    · rw [Bool.eq_false_iff]
      intro hdigit
      have hno : ∀ i < 58, 48 ≤ i → isLetter (Char.ofNat i) = false := by decide
      obtain ⟨hlow, hhigh⟩ := toNat_of_isDigit hdigit
      rw [← Char.ofNat_toNat c, hno _ hhigh hlow] at h
      cases h
    · rw [beq_eq_false_iff_ne]
      rintro rfl
      revert h
      decide

/-! ## Another word in a text -/

section Word

variable {new text word value : List Char} {k : Nat}

theorem oneWord?_append {front back : List Char} (hfront : front.all isBlank)
    (hback : back.all isBlank) (hne : word ≠ []) (hword : ∀ c ∈ word, isBlank c = false) :
    oneWord? (front ++ (word ++ back)) = some (front.length, word) := by
  have hrest : (front ++ (word ++ back)).dropWhile isBlank = word ++ back := by
    rw [List.dropWhile_append_of_pos (List.all_eq_true.mp hfront)]
    obtain ⟨c, word, rfl⟩ := List.exists_cons_of_ne_nil hne
    exact List.dropWhile_cons_of_neg (by simp [hword c List.mem_cons_self])
  have hstop : back.head?.all fun c => !!isBlank c := by
    cases back with
    | nil => rfl
    | cons c back =>
      rw [List.all_cons, Bool.and_eq_true] at hback
      simp [hback.1]
  have htake : (word ++ back).takeWhile (!isBlank ·) = word := by
    rw [takeWhile_append_of_head word hstop, List.takeWhile_eq_self_iff]
    intro c hc
    rw [hword c hc]
    rfl
  have hnonempty : word.isEmpty = false := List.isEmpty_eq_false_iff.mpr hne
  have hlength : (front ++ (word ++ back)).length - (word ++ back).length = front.length := by
    rw [List.length_append, Nat.add_sub_cancel]
  unfold oneWord?
  simp only [hrest, htake, List.drop_left, hback, hnonempty, hlength, Bool.not_true, Bool.or_self,
    Bool.false_eq_true, if_false]

theorem oneWord?_spec (h : oneWord? text = some (k, word)) :
    ∃ front back, text = front ++ (word ++ back) ∧ front.length = k ∧ word ≠ [] ∧
      front.all isBlank ∧ back.all isBlank ∧ ∀ new, setWord new text = front ++ (new ++ back) := by
  have hform := h
  unfold oneWord? at hform
  simp only [Option.ite_none_left_eq_some, Option.some.injEq, Prod.mk.injEq, Bool.or_eq_true,
    Bool.not_eq_true', not_or, List.isEmpty_iff, Bool.not_eq_false] at hform
  obtain ⟨⟨hne, hback⟩, hk, rfl⟩ := hform
  have hrest := List.takeWhile_append_dropWhile (p := (!isBlank ·)) (l := text.dropWhile isBlank)
  have hbehind :
      (text.dropWhile isBlank).drop ((text.dropWhile isBlank).takeWhile (!isBlank ·)).length =
        (text.dropWhile isBlank).dropWhile (!isBlank ·) :=
    (congrArg (List.drop _) hrest).symm.trans List.drop_left
  have htext : text.takeWhile isBlank ++ text.dropWhile isBlank = text :=
    List.takeWhile_append_dropWhile
  rw [hbehind] at hback
  refine ⟨text.takeWhile isBlank, (text.dropWhile isBlank).dropWhile (!isBlank ·), ?_, ?_, hne,
    List.all_takeWhile, hback, fun new => ?_⟩
  · rw [hrest, htext]
  · have hlength := congrArg List.length htext
    rw [List.length_append] at hlength
    omega
  · rw [setWord, List.append_assoc]

theorem oneWord?_setWord (hne : new ≠ []) (hnew : ∀ c ∈ new, isBlank c = false)
    (h : oneWord? text = some (k, word)) : oneWord? (setWord new text) = some (k, new) := by
  obtain ⟨front, back, -, rfl, -, hfront, hback, hset⟩ := oneWord?_spec h
  rw [hset, oneWord?_append hfront hback hne hnew]

/-- A text in which a dotted number is all there is has not a value with a letter. -/
theorem textIs_setWord (hvalue : value.any isLetter) (hnew : isDotted new)
    (h : oneWord? text = some (k, word)) : textIs value (setWord new text) = false := by
  obtain ⟨front, back, -, -, -, hfront, hback, hset⟩ := oneWord?_spec h
  obtain ⟨c, hc, hletter⟩ := List.any_eq_true.mp hvalue
  obtain ⟨hblank, hdotted⟩ := letter_spec hletter
  have hfree {blanks : List Char} (hblanks : blanks.all isBlank) : c ∉ blanks := fun hmem =>
    Bool.false_ne_true (hblank.symm.trans (List.all_eq_true.mp hblanks c hmem))
  rw [Bool.eq_false_iff, ne_eq, textIs_iff, hset]
  rintro ⟨front', back', -, -, htext⟩
  have hmem : c ∈ front ++ (new ++ back) := by
    rw [htext]
    exact List.mem_append_right _ (List.mem_append_left _ hc)
  simp only [List.mem_append, hfree hfront, hfree hback, or_false, false_or] at hmem
  exact not_mem_of_isDotted hnew hdotted hmem

end Word

namespace Stretch

variable {new : List Char} {s : Stretch isOpening} {ss r : List (Stretch isOpening)}
  {name body text word value : List Char} {k n : Nat} {v : VersionSpot}

/-- A stretch with another word in the text behind its tag. -/
def setTagWord (new : List Char) (hnew : '<' ∉ new) (s : Stretch isOpening) : Stretch isOpening where
  mark := s.mark
  text :=
    match s.tag? with
    | some (body, text) => body ++ '>' :: setWord new text
    | none => s.text
  mark_spec := s.mark_spec
  text_spec := by
    cases htag : s.tag? with
    | none => exact s.text_spec
    | some tag =>
      obtain ⟨-, hbody, -, htext⟩ := tag_spec htag
      intro c hc
      rw [isOpening, beq_eq_false_iff_ne]
      rintro rfl
      rcases List.mem_append.mp hc with hc | hc
      · exact hbody hc
      · exact not_mem_setWord hnew htext ((List.mem_cons.mp hc).resolve_left (by decide))

theorem tag?_setTagWord (hnew : '<' ∉ new) (h : s.tag? = some (body, text)) :
    (setTagWord new hnew s).tag? = some (body, setWord new text) := by
  refine tag?_eq_some_iff.mpr ⟨?_, (tag?_eq_some_iff.mp h).2⟩
  simp only [setTagWord, h]

theorem tagWord?_eq_some_iff :
    s.tagWord? = some (k, word) ↔ ∃ body text i, s.tag? = some (body, text) ∧
      oneWord? text = some (i, word) ∧ (openTag body).length + i = k := by
  simp only [tagWord?, Option.bind_eq_some_iff, Option.map_eq_some_iff, Prod.exists, Prod.mk.injEq]
  constructor
  · rintro ⟨body, text, htag, i, word, hone, hk, rfl⟩
    exact ⟨body, text, i, htag, hone, hk⟩
  · rintro ⟨body, text, i, htag, hone, hk⟩
    exact ⟨body, text, htag, i, word, hone, hk, rfl⟩

/-- Writing words behind tags anew. -/
def tagWords (new : List Char) (hne : new ≠ []) (hnew : isDotted new) : Rewording isOpening new where
  word? := tagWord?
  set := setTagWord new (not_mem_of_isDotted hnew (by decide))
  spec := by
    intro s k word h
    obtain ⟨body, text, i, htag, hone, rfl⟩ := tagWord?_eq_some_iff.mp h
    obtain ⟨front, back, htext, rfl, hword, -, -, hset⟩ := oneWord?_spec hone
    have hnew := tag?_setTagWord (not_mem_of_isDotted hnew (by decide)) htag
    refine ⟨openTag body ++ front, back, ?_, List.length_append, hword, ?_⟩
    · rw [(tag_spec htag).1, htext, List.append_assoc]
    · rw [(tag_spec hnew).1, hset, List.append_assoc]
  word?_set := by
    intro s k word h
    obtain ⟨body, text, i, htag, hone, rfl⟩ := tagWord?_eq_some_iff.mp h
    exact tagWord?_eq_some_iff.mpr ⟨body, _, i, tag?_setTagWord _ htag,
      oneWord?_setWord hne (fun _ hc => isBlank_of_isDotted hnew hc) hone, rfl⟩

/-! ## What is written -/

section Write

variable {hne : new ≠ []} {hnew : isDotted new} {chosen : Nat → Bool} {n n' : Nat}

variable (hne hnew chosen n) in
/-- A tag is kept, and the text behind it unless its word is written over. -/
theorem tag?_writeOne (h : s.tag? = some (body, text)) :
    ∃ text', ((tagWords new hne hnew).writeOne chosen n s).tag? = some (body, text') ∧
      (text' = text ∨ ∃ k word, oneWord? text = some (k, word) ∧ text' = setWord new text) := by
  cases hword : (tagWords new hne hnew).word? s with
  | none => exact ⟨text, by rw [Rewording.writeOne_of_none hword, h], .inl rfl⟩
  | some found =>
    rw [Rewording.writeOne_of_some hword]
    split
    · obtain ⟨body', text', i, htag, hone, -⟩ := tagWord?_eq_some_iff.mp hword
      rw [h] at htag
      cases htag
      exact ⟨_, tag?_setTagWord (not_mem_of_isDotted hnew (by decide)) h,
        .inr ⟨i, found.2, hone, rfl⟩⟩
    · exact ⟨text, h, .inl rfl⟩

theorem tag?_writeOne_of_none (h : s.tag? = none) :
    ((tagWords new hne hnew).writeOne chosen n s).tag? = none := by
  have hword : (tagWords new hne hnew).word? s = none := by
    show s.tagWord? = none
    rw [tagWord?, h, Option.bind_none]
  rw [Rewording.writeOne_of_none hword, h]

@[simp] theorem body?_writeOne :
    ((tagWords new hne hnew).writeOne chosen n s).body? = s.body? := by
  cases htag : s.tag? with
  | none => rw [body?, body?, tag?_writeOne_of_none htag, htag]
  | some tag =>
    obtain ⟨text', htag', -⟩ := tag?_writeOne hne hnew chosen n htag
    rw [body?, body?, htag', htag]
    rfl

@[simp] theorem begins_write :
    begins body ((tagWords new hne hnew).write chosen n ss) = begins body ss := by
  cases ss with
  | nil => rfl
  | cons s r =>
    rw [Rewording.write, begins, begins, List.head?_cons, List.head?_cons, Option.any_some,
      Option.any_some, body?_writeOne]

/-- The first word of a name is at the same tag as before. -/
theorem firstWordIn?_write
    (h : firstWordIn? name n' ((tagWords new hne hnew).write chosen n ss) = some v) :
    ∃ u, firstWordIn? name n ss = some u ∧ Became new chosen u v := by
  induction ss generalizing n n' with
  | nil => cases h
  | cons s r ih =>
    rw [Rewording.write, firstWordIn?, body?_writeOne, begins_write] at h
    rw [firstWordIn?]
    by_cases hhere : s.body? = some name ∧ begins ('/' :: name) r
    · have hword : ((tagWords new hne hnew).writeOne chosen n s).tagWord? =
          s.tagWord?.map fun found => (found.1, if chosen (n + found.1) then new else found.2) :=
        (tagWords new hne hnew).word?_writeOne chosen n s
      rw [if_pos hhere] at h ⊢
      rw [hword] at h
      cases hold : s.tagWord? with
      | none =>
        rw [hold] at h
        exact ih h
      | some found =>
        rw [hold] at h
        exact ⟨⟨n + found.1, found.2⟩, rfl, congrArg VersionSpot.version (Option.some.inj h).symm⟩
    · rw [if_neg hhere, Option.none_or] at h ⊢
      exact ih h

/-- An element of a value with a letter was there before. -/
theorem mentionsIn_write (hvalue : value.any isLetter)
    (h : mentionsIn name value ((tagWords new hne hnew).write chosen n ss)) :
    mentionsIn name value ss := by
  induction ss generalizing n with
  | nil => exact h
  | cons s r ih =>
    rw [Rewording.write, mentionsIn, begins_write, Bool.or_eq_true] at h
    rw [mentionsIn, Bool.or_eq_true]
    refine h.imp (fun hhere => ?_) ih
    cases htag : s.tag? with
    | none =>
      rw [tag?_writeOne_of_none htag] at hhere
      exact hhere
    | some tag =>
      obtain ⟨text', htag', hsame | ⟨k, word, hone, hset⟩⟩ :=
        tag?_writeOne hne hnew chosen n htag
      · rw [htag', hsame] at hhere
        exact hhere
      · rw [htag', hset, Option.any_some] at hhere
        dsimp only at hhere
        rw [textIs_setWord hvalue hnew hone, Bool.and_false, Bool.false_and] at hhere
        cases hhere

@[simp] theorem length_write :
    ((tagWords new hne hnew).write chosen n ss).length = ss.length := by
  induction ss generalizing n with
  | nil => rfl
  | cons s r ih => rw [Rewording.write, List.length_cons, List.length_cons, ih]

/-! ## Dependencies in what is written -/

theorem writeOne_endTag : (tagWords new hne hnew).writeOne chosen n endTag = endTag :=
  Rewording.writeOne_of_none rfl

theorem upToEnd?_write (n : Nat) (ss : List (Stretch isOpening)) :
    upToEnd? ((tagWords new hne hnew).write chosen n ss) =
      (upToEnd? ss).map ((tagWords new hne hnew).write chosen n) := by
  induction ss generalizing n with
  | nil => rfl
  | cons s r ih =>
    rw [Rewording.write, upToEnd?, upToEnd?, body?_writeOne]
    split
    · rw [Option.map_some, Rewording.write, writeOne_endTag]
      rfl
    · rw [ih, Option.map_map, Option.map_map]
      rfl

theorem block?_write (n : Nat) (ss : List (Stretch isOpening)) :
    block? ((tagWords new hne hnew).write chosen n ss) =
      (block? ss).map ((tagWords new hne hnew).write chosen n) := by
  cases ss with
  | nil => rfl
  | cons s r =>
    rw [Rewording.write, block?, block?, body?_writeOne, upToEnd?_write]
    split
    · rw [Option.map_map, Option.map_map]
      rfl
    · rfl

/-- The dependencies are at the same tags as before. A dependency has as many stretches as it had, so
the search passes over as many. -/
theorem mem_blocks_write {skip k' : Nat} {b' : List (Stretch isOpening)}
    (h : (k', b') ∈ blocks skip n' ((tagWords new hne hnew).write chosen n ss)) :
    ∃ k b, (k, b) ∈ blocks skip n ss ∧ b' = (tagWords new hne hnew).write chosen k b := by
  induction ss generalizing skip n n' with
  | nil => cases skip <;> cases h
  | cons s r ih =>
    rw [Rewording.write] at h
    cases skip with
    | succ skip => exact ih h
    | zero =>
      have hblock : block? ((tagWords new hne hnew).writeOne chosen n s ::
          (tagWords new hne hnew).write chosen (n + s.print.length) r) = _ :=
        block?_write n (s :: r)
      rw [blocks, hblock] at h
      rw [blocks]
      cases hold : block? (s :: r) with
      | none =>
        rw [hold] at h
        exact ih h
      | some b =>
        rw [hold, Option.map_some] at h
        dsimp only at h
        rw [length_write] at h
        rcases List.mem_cons.mp h with heq | hrest
        · cases heq
          exact ⟨n, b, List.mem_cons_self, rfl⟩
        · obtain ⟨k, b'', hmem, heq⟩ := ih hrest
          exact ⟨k, b'', List.mem_cons_of_mem _ hmem, heq⟩

/-! ## What is found in what is written -/

theorem mem_places_of_firstWordIn? (h : firstWordIn? name n ss = some v) :
    v ∈ (tagWords new hne hnew).places n ss := by
  induction ss generalizing n with
  | nil => cases h
  | cons s r ih =>
    rw [firstWordIn?, Option.or_eq_some_iff] at h
    refine Rewording.mem_places_cons.mpr (h.imp (fun hfirst => ?_) fun hrest => ih hrest.2)
    obtain ⟨-, hfirst⟩ := Option.ite_none_right_eq_some.mp hfirst
    obtain ⟨⟨k, word⟩, hword, rfl⟩ := Option.map_eq_some_iff.mp hfirst
    exact ⟨k, hword, rfl⟩

theorem mem_places_of_upToEnd? {b : List (Stretch isOpening)} (h : upToEnd? ss = some b)
    (hv : v ∈ (tagWords new hne hnew).places n b) : v ∈ (tagWords new hne hnew).places n ss := by
  induction ss generalizing n b with
  | nil => cases h
  | cons s r ih =>
    rw [upToEnd?] at h
    split at h
    · obtain rfl := Option.some.inj h
      cases hv
    · obtain ⟨b, hb, rfl⟩ := Option.map_eq_some_iff.mp h
      exact Rewording.mem_places_cons.mpr ((Rewording.mem_places_cons.mp hv).imp_right (ih hb))

theorem mem_places_of_mem_blocks {skip k : Nat} {b : List (Stretch isOpening)}
    (h : (k, b) ∈ blocks skip n ss) (hv : v ∈ (tagWords new hne hnew).places k b) :
    v ∈ (tagWords new hne hnew).places n ss := by
  obtain ⟨front, r, rfl, rfl, hblock⟩ := exists_of_mem_blocks h
  refine Rewording.mem_places_append ?_
  cases r with
  | nil => cases hblock
  | cons s r =>
    obtain ⟨-, inner, hinner, rfl⟩ := block?_cons_eq_some_iff.mp hblock
    exact Rewording.mem_places_cons.mpr
      ((Rewording.mem_places_cons.mp hv).imp_right (mem_places_of_upToEnd? hinner))

variable {group artifact : List Char} {base : Nat}

theorem decidingSpot?_eq_some_iff {b : List (Stretch isOpening)} :
    decidingSpot? group artifact base ss n b = some v ↔
      mentionsIn groupName group b ∧ mentionsIn artifactName artifact b ∧
        ∃ own, firstWordIn? versionName n b = some own ∧
          ((propertyName? own.version = none ∧ own = v) ∨
            ∃ property, propertyName? own.version = some property ∧
              firstWordIn? property base ss = some v) := by
  rw [decidingSpot?, Option.ite_none_right_eq_some, Bool.and_eq_true, Option.bind_eq_some_iff,
    and_assoc]
  refine and_congr_right fun _ => and_congr_right fun _ => exists_congr fun own =>
    and_congr_right fun _ => ?_
  cases hproperty : propertyName? own.version <;> simp

theorem found_subset_places :
    found group artifact base ss ⊆ (tagWords new hne hnew).places base ss := by
  intro v hv
  obtain ⟨⟨n, b⟩, hb, hdeciding⟩ := List.mem_filterMap.mp hv
  obtain ⟨-, -, own, hown, ⟨-, rfl⟩ | ⟨property, -, hvalue⟩⟩ :=
    decidingSpot?_eq_some_iff.mp hdeciding
  · exact mem_places_of_mem_blocks hb (mem_places_of_firstWordIn? hown)
  · exact mem_places_of_firstWordIn? hvalue

theorem propertyName?_of_isDotted (h : isDotted new) : propertyName? new = none := by
  rw [Option.eq_none_iff_forall_ne_some]
  intro property hproperty
  refine not_mem_of_isDotted h (by decide : ('$'.isDigit || '$' == '.') = false) ?_
  rw [propertyName?_eq_some_iff.mp hproperty]
  exact List.mem_cons_self

/-- What is found in the new text is the new word, or it was found at the same place before. -/
theorem mem_found_write (hgroup : group.any isLetter) (hartifact : artifact.any isLetter)
    (h : v ∈ found group artifact base ((tagWords new hne hnew).write chosen base ss)) :
    v.version = new ∨ ∃ u ∈ found group artifact base ss, Became new chosen u v := by
  obtain ⟨⟨n', b'⟩, hb', hdeciding⟩ := List.mem_filterMap.mp h
  obtain ⟨hinGroup, hinArtifact, own', hown', hvalue'⟩ := decidingSpot?_eq_some_iff.mp hdeciding
  obtain ⟨n, b, hb, rfl⟩ := mem_blocks_write hb'
  obtain ⟨own, hown, hbecame⟩ := firstWordIn?_write hown'
  have hfound {u : VersionSpot} (hvalue : (propertyName? own.version = none ∧ own = u) ∨
      ∃ property, propertyName? own.version = some property ∧
        firstWordIn? property base ss = some u) : u ∈ found group artifact base ss :=
    List.mem_filterMap.mpr ⟨(n, b), hb, decidingSpot?_eq_some_iff.mpr
      ⟨mentionsIn_write hgroup hinGroup, mentionsIn_write hartifact hinArtifact, own, hown, hvalue⟩⟩
  rcases hbecame.eq_or_eq with hword | hsame
  · -- a dotted number names no property, so it decides itself
    rw [hword, propertyName?_of_isDotted hnew] at hvalue'
    obtain ⟨-, rfl⟩ | ⟨property, hproperty, -⟩ := hvalue'
    · exact .inl hword
    · cases hproperty
  · rw [hsame] at hvalue'
    obtain ⟨hliteral, rfl⟩ | ⟨property, hproperty, hvalue⟩ := hvalue'
    · exact .inr ⟨own, hfound (.inl ⟨hliteral, rfl⟩), hbecame⟩
    · obtain ⟨u, hu, hbecame⟩ := firstWordIn?_write hvalue
      exact .inr ⟨u, hfound (.inr ⟨property, hproperty, hu⟩), hbecame⟩

theorem NamesPlain.write (h : NamesPlain base ss) :
    NamesPlain base ((tagWords new hne hnew).write chosen base ss) := by
  intro n' b' own' property hb' hown' hproperty
  obtain ⟨n, b, hb, rfl⟩ := mem_blocks_write hb'
  obtain ⟨own, hown, hbecame⟩ := firstWordIn?_write hown'
  rcases hbecame.eq_or_eq with hword | hsame
  · rw [hword, propertyName?_of_isDotted hnew] at hproperty
    cases hproperty
  · rw [hsame] at hproperty
    exact h n b own property hb hown hproperty

end Write

theorem printAll_prefix_of_upToEnd? {b : List (Stretch isOpening)} (h : upToEnd? ss = some b) :
    printAll b <+: printAll ss := by
  obtain ⟨inner, last, text, r, rfl, rfl, hlast, -⟩ := upToEnd?_spec h
  refine ⟨text ++ printAll r, ?_⟩
  simp only [printAll_append, printAll_cons, printAll_nil, hlast, List.append_nil, List.append_assoc]

/-- A dependency is a part of the text. -/
theorem printAll_infix_of_mem_blocks {skip n k : Nat} {b : List (Stretch isOpening)}
    (h : (k, b) ∈ blocks skip n ss) : printAll b <:+: printAll ss := by
  obtain ⟨front, r, rfl, rfl, hblock⟩ := exists_of_mem_blocks h
  have hprefix : printAll b <+: printAll r := by
    cases r with
    | nil => cases hblock
    | cons s r =>
      obtain ⟨-, inner, hinner, rfl⟩ := block?_cons_eq_some_iff.mp hblock
      exact (List.prefix_append_right_inj s.print).mpr (printAll_prefix_of_upToEnd? hinner)
  rw [printAll_append]
  exact hprefix.isInfix.trans (List.suffix_append _ _).isInfix

end Stretch

/-! ## Upgrading twice -/

/-- No `version` in a text is given by a property with a `>` in its name. It is enough that no value in
the text has a `>` in it. -/
def PlainProperties (content : List Char) : Prop :=
  ∀ s own property, s <:+: content → elementWord? versionName s = some own →
    propertyName? own.version = some property → '>' ∉ property

theorem plainProperties_iff {content : List Char} :
    PlainProperties content ↔ ∀ t ∈ content.tails, ∀ s ∈ t.inits,
      (elementWord? versionName s).all fun own =>
        (propertyName? own.version).all fun property => !property.contains '>' := by
  simp only [PlainProperties, List.mem_tails, List.mem_inits, Option.all_eq_true,
    Bool.not_eq_true', List.contains_eq_mem, decide_eq_false_iff_not]
  constructor
  · intro h t ht s hs own hown property hproperty
    exact h s own property (hs.isInfix.trans ht.isInfix) hown hproperty
  · intro h s own property hs hown hproperty
    obtain ⟨t, hst, ht⟩ := List.infix_iff_prefix_suffix.mp hs
    exact h t ht s hst own hown property hproperty

instance (content : List Char) : Decidable (PlainProperties content) :=
  decidable_of_iff _ plainProperties_iff.symm

theorem PlainProperties.namesPlain {head : List Char} {ss : List (Stretch isOpening)}
    (h : PlainProperties (head ++ printAll ss)) : NamesPlain head.length ss := by
  intro n b own property hb hown hproperty
  rw [← wordFrom?_printAll (by decide) (by decide), wordFrom?, Option.map_eq_some_iff] at hown
  obtain ⟨⟨k, v⟩, hfirst, rfl⟩ := hown
  obtain ⟨s, hs, hword⟩ := exists_of_findFirst hfirst
  have hinfix : s <:+: head ++ printAll ss :=
    hs.isInfix.trans ((printAll_infix_of_mem_blocks hb).trans (List.suffix_append _ _).isInfix)
  exact h s v property hinfix hword hproperty

/-- The versions in a Maven file are raised at once. -/
theorem raiseSpots_mavenSpots_again {group artifact content : List Char} {target : String}
    (hgroup : isCoordinate group) (hartifact : isCoordinate artifact) (hne : target.toList ≠ [])
    (htarget : isDotted target.toList) (hplain : PlainProperties content) :
    let raised := raiseSpots target (mavenSpots group artifact content) content
    raiseSpots target (mavenSpots group artifact raised) raised = raised := by
  intro raised
  obtain ⟨head, ss, rfl, hhead⟩ := exists_printAll isOpening content
  have hhead : '<' ∉ head := fun hmem => Bool.false_ne_true (hhead _ hmem).symm
  let w := tagWords target.toList hne htarget
  have hspots {ss : List (Stretch isOpening)} (hplain : NamesPlain head.length ss) :
      mavenSpots group artifact (head ++ printAll ss) =
        (found group artifact head.length ss).foldl (fun found v => insertSpot v found) [] :=
    mavenSpots_printAll (not_mem_of_isCoordinate hgroup (by decide))
      (not_mem_of_isCoordinate hartifact (by decide)) hhead hplain
  have hplain := hplain.namesPlain
  obtain ⟨hsorted, hfrom, hstarts⟩ :=
    foldl_insertSpot (found group artifact head.length ss) List.Pairwise.nil
  rw [← hspots hplain] at hsorted hfrom hstarts
  have hplaces : ∀ v ∈ mavenSpots group artifact (head ++ printAll ss), v ∈ w.places head.length ss :=
    fun v hv => found_subset_places ((hfrom v hv).resolve_left List.not_mem_nil)
  -- a place is told by its beginning, so all that was found is among the spots
  have hall : ∀ u ∈ found group artifact head.length ss,
      u ∈ mavenSpots group artifact (head ++ printAll ss) := by
    intro u hu
    obtain ⟨v, hv, hstart⟩ := List.mem_map.mp (hstarts u.start (.inr (List.mem_map_of_mem hu)))
    rwa [← Rewording.start_inj (hplaces v hv) (found_subset_places hu) hstart]
  have hraised : raised = head ++ printAll (w.write
      (olderAt target (mavenSpots group artifact (head ++ printAll ss))) head.length ss) :=
    Rewording.raiseSpots_write hplaces hsorted
  rw [hraised, hspots hplain.write]
  refine raiseSpots_of_not_older (fun v hv => ?_) _
  have hfound := ((foldl_insertSpot _ List.Pairwise.nil).2.1 v hv).resolve_left List.not_mem_nil
  have hletter {name : List Char} (h : isCoordinate name) : name.any isLetter :=
    (Bool.and_eq_true_iff.mp h).1
  rcases mem_found_write (hletter hgroup) (hletter hartifact) hfound with hnew | ⟨u, hu, hbecame⟩
  · rw [VersionSpot.isOlder, hnew, String.ofList_toList, compareVersions_self]
    rfl
  · exact isOlder_of_became (hall u hu) hbecame

/-- An upgrade to a version of digits and dots that has been carried out changes nothing when it is
carried out again. -/
theorem Upgrade.upgradeManifest_again {u : Upgrade} {target path content : String}
    (htarget : u.target? = some target) (hdotted : isDotted target.toList)
    (hgroup : isCoordinate u.group.toList) (hartifact : isCoordinate u.artifact.toList)
    (hplain : File.fileName? path = some "pom.xml" → PlainProperties content.toList) :
    ∃ upgraded, u.upgradeManifest path content = some upgraded ∧
      u.upgradeManifest path upgraded = some upgraded := by
  simp only [upgradeManifest, htarget, Option.map_some, Option.some.injEq, exists_eq_left',
    String.toList_ofList]
  by_cases hne : target.toList = []
  · obtain rfl : target = "" := String.toList_inj.mp hne
    rw [raiseSpots_of_not_older fun v _ => isOlder_empty v,
      raiseSpots_of_not_older fun v _ => isOlder_empty v]
  · by_cases hpom : File.fileName? path = some "pom.xml"
    · have hmaven : ∀ content, u.spots path content =
          mavenSpots u.group.toList u.artifact.toList content := by
        intro content
        rw [spots, hpom, if_pos (by decide)]
      rw [hmaven, hmaven, raiseSpots_mavenSpots_again hgroup hartifact hne hdotted (hplain hpom)]
    · have hgradle : ∀ content, u.spots path content =
          gradleSpots u.group.toList u.artifact.toList content := by
        intro content
        rw [spots, if_neg (by simpa using hpom)]
      rw [hgradle, hgradle, raiseSpots_gradleSpots_again hgroup hartifact hne hdotted]

/-- The property of a version is raised once. -/
theorem raised_property_is_stable :
    let u : Upgrade := ⟨"g", "a", .exact "4", ["4"]⟩
    let content := "<dependency><groupId>g</groupId><artifactId>a</artifactId>" ++
      "<version>$\x7bp\x7d</version></dependency><p>3</p>"
    u.target? = some "4" ∧ isDotted "4".toList ∧ isCoordinate u.group.toList ∧
      isCoordinate u.artifact.toList ∧ PlainProperties content.toList ∧
      ∃ upgraded, u.upgradeManifest "pom.xml" content = some upgraded ∧
        u.upgradeManifest "pom.xml" upgraded = some upgraded := by
  intro u content
  have hplain : PlainProperties content.toList := by decide +kernel
  refine ⟨by decide, by decide, by decide, by decide, hplain, ?_⟩
  exact Upgrade.upgradeManifest_again (by decide : u.target? = some "4") (by decide) (by decide)
    (by decide) fun _ => hplain

end JavaMigration.Dependency
