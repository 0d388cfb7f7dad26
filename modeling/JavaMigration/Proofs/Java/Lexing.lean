import Mathlib.Data.List.TakeDrop
import Mathlib.Data.List.TakeWhile
import JavaMigration.Java.Lexeme
import JavaMigration.Proofs.Text.Lines

/-!
# Lexing loses nothing

The lexemes of a source with their spaces, and the space behind the last one, are the source
(`lex_lossless`). Every reader of a part of a lexeme gives a suffix of what it was given.
-/

namespace JavaMigration.Java

open Text Source

/-! ## Numbers -/

/-- Only something in the same line stands in front of the rest. -/
def Behind (s r : List Char) : Prop := ∃ taken, taken ++ r = s ∧ Unbroken taken

namespace Behind

variable {s t r : List Char}

theorem refl (s : List Char) : Behind s s := ⟨[], rfl, nofun⟩

theorem trans (h : Behind s t) (h' : Behind t r) : Behind s r := by
  obtain ⟨front, rfl, hfront⟩ := h
  obtain ⟨back, rfl, hback⟩ := h'
  exact ⟨front ++ back, List.append_assoc _ _ _, List.forall_mem_append.mpr ⟨hfront, hback⟩⟩

theorem cons {c : Char} (h : InLine c) (s : List Char) : Behind (c :: s) s :=
  ⟨[c], rfl, List.forall_mem_singleton.mpr h⟩

/-- What is dropped from a text may be taken from a run of characters at its beginning. -/
theorem drop {p : Char → Bool} (hp : ∀ c, p c → InLine c) {n : Nat}
    (hn : n ≤ (s.takeWhile p).length) : Behind s (s.drop n) := by
  refine ⟨s.take n, List.take_append_drop n s, fun c hc => ?_⟩
  have htake : s.take n = (s.takeWhile p).take n := by
    conv => lhs; rw [← List.takeWhile_append_dropWhile (p := p) (l := s)]
    exact List.take_append_of_le_length hn
  rw [htake] at hc
  exact hp c (List.all_eq_true.mp List.all_takeWhile c (List.mem_of_mem_take hc))

end Behind

/-- The reader takes something in the same line, or nothing. -/
def Nibbles (f : List Char → Option (List Char)) : Prop := ∀ ⦃s r⦄, f s = some r → Behind s r

/-- The reader takes something in the same line. -/
def Bites (f : List Char → Option (List Char)) : Prop :=
  ∀ ⦃s r⦄, f s = some r → Behind s r ∧ r.length < s.length

theorem Nibbles.maybe {f : List Char → Option (List Char)} (hf : Nibbles f) :
    Nibbles (maybe f) := by
  intro s r h
  have hr : (f s).getD s = r := Option.some.inj h
  cases hs : f s with
  | none =>
    rw [hs] at hr
    rw [← hr]
    exact .refl s
  | some t =>
    rw [hs] at hr
    rw [← hr]
    exact hf hs

theorem Bites.nibbles {f : List Char → Option (List Char)} (hf : Bites f) : Nibbles f :=
  fun _ _ h => (hf h).1

theorem Bites.maybe {f : List Char → Option (List Char)} (hf : Bites f) : Nibbles (maybe f) :=
  hf.nibbles.maybe

theorem Bites.bind {f g : List Char → Option (List Char)} (hf : Bites f) (hg : Nibbles g) :
    Bites fun s => f s >>= g := by
  intro s r h
  obtain ⟨mid, hmid, hr⟩ := Option.bind_eq_some_iff.mp h
  obtain ⟨hbehind, hlt⟩ := hf hmid
  obtain ⟨taken, rfl, htaken⟩ := hg hr
  refine ⟨hbehind.trans ⟨taken, rfl, htaken⟩, ?_⟩
  rw [List.length_append] at hlt
  omega

theorem Nibbles.bind {f g : List Char → Option (List Char)} (hf : Nibbles f) (hg : Bites g) :
    Bites fun s => f s >>= g := by
  intro s r h
  obtain ⟨mid, hmid, hr⟩ := Option.bind_eq_some_iff.mp h
  obtain ⟨hbehind, hlt⟩ := hg hr
  obtain ⟨taken, rfl, htaken⟩ := hf hmid
  refine ⟨Behind.trans ⟨taken, rfl, htaken⟩ hbehind, ?_⟩
  rw [List.length_append]
  omega

theorem bites_oneOf {cs : List Char} (hcs : Unbroken cs) : Bites (oneOf cs) := by
  intro s r h
  cases s with
  | nil => cases h
  | cons c s =>
    rw [show oneOf cs (c :: s) = if cs.contains c then some s else none from rfl] at h
    split at h
    · next hc =>
      cases h
      exact ⟨.cons (hcs c (List.contains_iff_mem.mp hc)) r, Nat.lt_succ_self _⟩
    · cases h

theorem upToDigit_le (run : List Char) : upToDigit run ≤ run.length := by
  have hle : (run.reverse.dropWhile (· == '_')).length ≤ run.reverse.length :=
    (List.dropWhile_suffix _).length_le
  rwa [List.length_reverse] at hle

/-- A run that does not begin with an underscore has a digit. -/
theorem upToDigit_pos {c : Char} (hc : c ≠ '_') (run : List Char) : 0 < upToDigit (c :: run) := by
  unfold upToDigit
  rw [List.length_pos_iff, ne_eq, List.dropWhile_eq_nil_iff]
  intro hall
  exact hc (by simpa using hall c (by simp))

theorem length_upTo_le {needle s front : List Char} (h : upTo needle s = some front) :
    front.length ≤ s.length := by
  induction s generalizing front with
  | nil =>
    unfold upTo at h
    split at h <;> cases h
    exact Nat.le_refl _
  | cons c s ih =>
    unfold upTo at h
    split at h
    · cases h
      exact Nat.zero_le _
    · obtain ⟨front', hfront, rfl⟩ := Option.map_eq_some_iff.mp h
      exact Nat.succ_le_succ (ih hfront)

/-- Digits and the underscores between them are in one line. -/
theorem bites_digits {p : Char → Bool} (hfeed : p '\n' = false) (hreturn : p '\r' = false)
    (hbar : p '_' = false) : Bites (digits p) := by
  have hline : ∀ c, (p c || c == '_') → InLine c := by
    rintro c hc
    constructor <;> rintro rfl <;> simp [hfeed, hreturn] at hc
  intro s r h
  cases s with
  | nil => cases h
  | cons c s =>
    unfold digits at h
    split at h
    · next hhead =>
      cases h
      have hc : p c = true := hhead
      have hne : c ≠ '_' := by
        rintro rfl
        rw [hbar] at hc
        cases hc
      let run := s.takeWhile fun c => p c || c == '_'
      have hrun : (c :: s).takeWhile (fun c => p c || c == '_') = c :: run :=
        List.takeWhile_cons_of_pos (by simp [hc])
      have hupTo : upTo ['_', '_'] (c :: run) = (upTo ['_', '_'] run).map (c :: ·) := by
        rw [upTo, if_neg (by simp [Ne.symm hne])]
      obtain ⟨part, hpart, hle⟩ : ∃ part, (upTo ['_', '_'] (c :: run)).getD (c :: run) = c :: part ∧
          part.length ≤ run.length := by
        rw [hupTo]
        cases hcut : upTo ['_', '_'] run with
        | none => exact ⟨run, rfl, Nat.le_refl _⟩
        | some part => exact ⟨part, rfl, length_upTo_le hcut⟩
      rw [hrun, hpart]
      have hpos := upToDigit_pos hne part
      have hcount := upToDigit_le (c :: part)
      refine ⟨.drop hline ?_, ?_⟩
      · rw [hrun]
        exact hcount.trans (Nat.succ_le_succ hle)
      · rw [List.length_drop, List.length_cons]
        omega
    · cases h

theorem bites_decimals : Bites (digits Char.isDigit) :=
  bites_digits (by decide) (by decide) (by decide)

theorem inLine_of_isDigit {c : Char} (h : c.isDigit) : InLine c := by
  constructor <;> rintro rfl <;> cases h

theorem bites_plainInteger : Bites plainInteger := by
  have hline : ∀ c : Char, (c.isDigit || c == '_') → InLine c := by
    intro c hc
    rcases Bool.or_eq_true_iff.mp hc with hc | hc
    · exact inLine_of_isDigit hc
    · rw [beq_iff_eq.mp hc]
      decide
  intro s r h
  unfold plainInteger at h
  split at h
  · cases h
  · cases h
    exact ⟨.cons (by decide) _, Nat.lt_succ_self _⟩
  · next c s _ =>
    split at h
    · next hc =>
      extract_lets rest at h
      have hfirst : Behind (c :: s) s := .cons (inLine_of_isDigit hc) s
      have hrest : Behind s rest ∧ rest.length ≤ s.length := by
        unfold rest
        split
        · exact ⟨.cons (by decide) _, Nat.le_succ _⟩
        · exact ⟨.refl _, Nat.le_refl _⟩
      split at h
      · cases h
        refine ⟨(hfirst.trans hrest.1).trans (.drop hline (upToDigit_le _)), ?_⟩
        have hle := hrest.2
        rw [List.length_drop, List.length_cons]
        omega
      · cases h
        exact ⟨hfirst, Nat.lt_succ_self _⟩
    · cases h

theorem bites_exponent {letters : List Char} (h : Unbroken letters) :
    Bites (exponent letters) :=
  (bites_oneOf h).bind ((bites_oneOf (by decide)).maybe.bind bites_decimals).nibbles

theorem bites_hexStart : Bites hexStart :=
  (bites_oneOf (by decide)).bind (bites_oneOf (by decide)).nibbles

theorem nibbles_longMark : Nibbles longMark := (bites_oneOf (by decide)).maybe

theorem bites_floatMark : Bites (oneOf ['f', 'F', 'd', 'D']) := bites_oneOf (by decide)

theorem nibbles_floatMark : Nibbles floatMark := bites_floatMark.maybe

theorem bites_numberForms : ∀ f ∈ numberForms, Bites f := by
  have hdot : Bites (oneOf ['.']) := bites_oneOf (by decide)
  have hzero : Bites (oneOf ['0']) := bites_oneOf (by decide)
  have hhex : Bites (digits isHexDigit) := bites_digits (by decide) (by decide) (by decide)
  have hexp : Nibbles (maybe (exponent ['e', 'E'])) := (bites_exponent (by decide)).maybe
  have hpow : Nibbles (maybe (exponent ['p', 'P'])) := (bites_exponent (by decide)).maybe
  simp only [numberForms, List.forall_mem_cons, List.not_mem_nil, false_implies, implies_true,
    and_true]
  refine ⟨bites_plainInteger.bind nibbles_longMark,
    (bites_hexStart.bind hhex.nibbles).bind nibbles_longMark,
    ((hzero.bind (bites_oneOf (by decide)).maybe).bind
      (bites_digits (by decide) (by decide) (by decide)).nibbles).bind nibbles_longMark,
    ((hzero.bind (bites_oneOf (by decide)).nibbles).bind
      (bites_digits (by decide) (by decide) (by decide)).nibbles).bind nibbles_longMark,
    (((bites_decimals.bind hdot.nibbles).bind bites_decimals.maybe).bind hexp).bind
      nibbles_floatMark,
    ((hdot.bind bites_decimals.nibbles).bind hexp).bind nibbles_floatMark,
    (bites_plainInteger.bind (bites_exponent (by decide)).nibbles).bind nibbles_floatMark,
    (bites_plainInteger.bind hexp).bind bites_floatMark.nibbles,
    (((bites_hexStart.bind hhex.nibbles).bind hdot.maybe).bind hpow).bind nibbles_floatMark,
    ((((bites_hexStart.bind hhex.maybe).bind hdot.nibbles).bind hhex.nibbles).bind hpow).bind
      nibbles_floatMark⟩

/-- The best of some rests is one of them. -/
theorem mem_of_foldl_shortest {best : Option (List Char)} {rests : List (List Char)} {r : List Char}
    (h : rests.foldl (fun best r =>
      match best with
      | some b => if r.length < b.length then some r else some b
      | none => some r) best = some r) : best = some r ∨ r ∈ rests := by
  induction rests generalizing best with
  | nil => exact .inl h
  | cons first rests ih =>
    rw [List.foldl_cons] at h
    rcases ih h with h | h
    · cases best with
      | none =>
        cases h
        exact .inr List.mem_cons_self
      | some b =>
        dsimp only at h
        split at h
        · cases h
          exact .inr List.mem_cons_self
        · exact .inl h
    · exact .inr (List.mem_cons_of_mem _ h)

theorem bites_number : Bites number := by
  intro s r h
  obtain h | h := mem_of_foldl_shortest h
  · cases h
  · obtain ⟨f, hf, hr⟩ := List.mem_filterMap.mp h
    exact bites_numberForms f hf hr

/-! ## Strings, characters and marks -/

theorem escaped_suffix {s r : List Char} (h : escaped s = some r) : r <:+ s := by
  unfold escaped at h
  split at h
  · cases h
  · split at h
    · cases h
      exact (List.drop_suffix _ _).trans (List.suffix_cons _ _)
    · cases h
  · next s =>
    split at h
    · next hspan =>
      cases h
      have hdrop : ∀ {a b : List Char}, s.span isHexDigit = (a, b) → b <:+ s := by
        intro a b hab
        rw [List.span_eq_takeWhile_dropWhile] at hab
        cases hab
        exact List.dropWhile_suffix _
      exact ((List.suffix_cons _ _).trans (hdrop hspan)).trans
        ((List.suffix_cons _ _).trans (List.suffix_cons _ _))
    · cases h
  · split at h
    · cases h
      exact (List.drop_suffix _ _).trans (List.suffix_cons _ _)
    · cases h
  · cases h
    exact List.suffix_cons _ _

theorem closeString_suffix {n : Nat} {s r : List Char} (h : closeString n s = some r) :
    '"' :: r <:+ s := by
  induction n generalizing s with
  | zero => cases h
  | succ n ih =>
    unfold closeString at h
    split at h
    · cases h
    · cases h
    · next heq =>
      cases heq
      split at h
      · next hquote =>
        cases h
        subst hquote
        exact List.suffix_rfl
      · split at h
        · obtain ⟨t, ht, h⟩ := Option.bind_eq_some_iff.mp h
          exact ((ih h).trans (escaped_suffix ht)).trans (List.suffix_cons _ _)
        · exact (ih h).trans (List.suffix_cons _ _)

theorem closeTextBlock_suffix {n : Nat} {s r : List Char} (h : closeTextBlock n s = some r) :
    '"' :: r <:+ s := by
  induction n generalizing s with
  | zero => cases h
  | succ n ih =>
    unfold closeTextBlock at h
    split at h
    · cases h
    · cases h
    · cases h
      exact (List.suffix_cons _ _).trans (List.suffix_cons _ _)
    · next _ heq =>
      cases heq
      split at h
      · obtain ⟨t, ht, h⟩ := Option.bind_eq_some_iff.mp h
        exact ((ih h).trans (escaped_suffix ht)).trans (List.suffix_cons _ _)
      · exact (ih h).trans (List.suffix_cons _ _)

theorem closeCharacterTail_suffix {s r : List Char}
    (h : closeCharacter.closeCharacterTail s = some r) : '\'' :: r <:+ s := by
  induction s using closeCharacter.closeCharacterTail.induct with
  | case1 => cases h
  | case2 c s ih =>
    exact (ih h).trans ((List.suffix_cons _ _).trans (List.suffix_cons _ _))
  | case3 s _ =>
    cases h
    exact List.suffix_rfl
  | case4 c s hne hquote hstop =>
    rw [closeCharacter.closeCharacterTail, if_neg hquote, if_pos hstop] at h
    · cases h
    · exact hne
  | case5 c s hne hquote hstop ih =>
    rw [closeCharacter.closeCharacterTail, if_neg hquote, if_neg hstop] at h
    · exact (ih h).trans (List.suffix_cons _ _)
    · exact hne

theorem closeCharacter_suffix {s r : List Char} (h : closeCharacter s = some r) :
    '\'' :: r <:+ s := by
  unfold closeCharacter at h
  split at h
  · cases h
  · exact (closeCharacterTail_suffix h).trans ((List.suffix_cons _ _).trans (List.suffix_cons _ _))
  · split at h
    · cases h
    · exact (closeCharacterTail_suffix h).trans (List.suffix_cons _ _)

theorem dropStart?_suffix {start s r : List Char} (h : dropStart? start s = some r) : r <:+ s :=
  ⟨start, (dropStart?_eq_some_iff.mp h).symm⟩

theorem mark_eq {s r : List Char} (h : mark s = some r) : ∃ m ∈ marks, m.toList ++ r = s := by
  obtain ⟨m, hm, htext⟩ := List.exists_of_findSome?_eq_some h
  exact ⟨m, hm, (dropStart?_eq_some_iff.mp htext).symm⟩

/-! ## Lexemes -/

/-- A text that neither begins nor ends inside a line ending, and is not empty. -/
structure Solid (text : List Char) : Prop where
  ne_nil : text ≠ []
  head : text.head? ≠ some '\n'
  last : text.getLast? ≠ some '\r'

theorem solid_of_unbroken {text : List Char} (hne : text ≠ []) (h : Unbroken text) :
    Solid text where
  ne_nil := hne
  head hhead := (h _ (List.mem_of_head? hhead)).1 rfl
  last hlast := (h _ (List.mem_of_getLast? hlast)).2 rfl

theorem solid_between {a b : Char} (ha : InLine a) (hb : InLine b) (text : List Char) :
    Solid (a :: text ++ [b]) where
  ne_nil := List.cons_ne_nil _ _
  head hhead := ha.1 (Option.some.inj hhead)
  last hlast := hb.2 (Option.some.inj (List.getLast?_concat.symm.trans hlast))

theorem inLine_of_identifier {c : Char} (h : isIdentifierStart c ∨ isIdentifierPart c) :
    InLine c := by
  constructor <;> rintro rfl <;> revert h <;> decide

theorem unbroken_of_mem_marks : ∀ m ∈ marks, m.toList ≠ [] ∧ Unbroken m.toList := by decide

/-- A lexeme takes a text that is whole. -/
theorem lexeme_solid {s rest : List Char} {kind : LexemeKind} (h : lexeme s = some (kind, rest)) :
    ∃ taken, taken ++ rest = s ∧ Solid taken := by
  have hclosed : ∀ {a b : Char} {t r : List Char}, InLine a → InLine b → b :: r <:+ t →
      ∃ taken, taken ++ r = a :: t ∧ Solid taken := by
    rintro a b _ r ha hb ⟨front, rfl⟩
    exact ⟨a :: front ++ [b], by simp, solid_between ha hb front⟩
  unfold lexeme at h
  split at h
  · cases h
  · obtain ⟨r, hr, hpair⟩ := Option.map_eq_some_iff.mp h
    cases hpair
    exact hclosed (by decide) (by decide)
      ((closeTextBlock_suffix hr).trans ((List.suffix_cons _ _).trans (List.suffix_cons _ _)))
  · obtain ⟨r, hr, hpair⟩ := Option.map_eq_some_iff.mp h
    cases hpair
    exact hclosed (by decide) (by decide) (closeString_suffix hr)
  · obtain ⟨r, hr, hpair⟩ := Option.map_eq_some_iff.mp h
    cases hpair
    exact hclosed (by decide) (by decide) (closeCharacter_suffix hr)
  · next c r _ _ _ =>
    split at h
    · next hc =>
      cases h
      refine ⟨c :: r.takeWhile isIdentifierPart, by simp, solid_of_unbroken (by simp) ?_⟩
      refine List.forall_mem_cons.mpr ⟨inLine_of_identifier (.inl hc), fun d hd => ?_⟩
      exact inLine_of_identifier (.inr (List.all_eq_true.mp List.all_takeWhile d hd))
    · rcases hnumber : number _ with _ | r
      · rw [hnumber] at h
        obtain ⟨r, hr, hpair⟩ := Option.map_eq_some_iff.mp h
        cases hpair
        obtain ⟨m, hm, hs⟩ := mark_eq hr
        obtain ⟨hne, hline⟩ := unbroken_of_mem_marks m hm
        exact ⟨m.toList, hs, solid_of_unbroken hne hline⟩
      · rw [hnumber] at h
        cases h
        obtain ⟨⟨taken, htaken, hline⟩, hlt⟩ := bites_number hnumber
        refine ⟨taken, htaken, solid_of_unbroken ?_ hline⟩
        rintro rfl
        rw [← htaken] at hlt
        exact absurd hlt (Nat.lt_irrefl _)

theorem lexeme_suffix {s rest : List Char} {kind : LexemeKind} (h : lexeme s = some (kind, rest)) :
    rest <:+ s := by
  obtain ⟨taken, htaken, -⟩ := lexeme_solid h
  exact ⟨taken, htaken⟩

theorem closeComment_append {s comment rest : List Char} (h : closeComment s = some (comment, rest)) :
    comment ++ rest = s := by
  induction s using closeComment.induct generalizing comment with
  | case1 => cases h
  | case2 s => cases h; rfl
  | case3 c s hne ih =>
    rw [closeComment] at h
    · obtain ⟨⟨comment', rest'⟩, hmore, hpair⟩ := Option.map_eq_some_iff.mp h
      cases hpair
      rw [List.cons_append, ih hmore]
    · exact hne

/-- The space in front and what follows it are the text. -/
theorem takeSpace_append (bound s : List Char) :
    (takeSpace bound s).1 ++ (takeSpace bound s).2 = s := by
  induction bound generalizing s with
  | nil => rfl
  | cons _ bound ih =>
    unfold takeSpace
    split
    · next r =>
      have hline := ih (r.dropWhile (· != '\n'))
      rw [List.span_eq_takeWhile_dropWhile]
      simp only [List.cons_append, List.append_assoc, hline, List.takeWhile_append_dropWhile]
    · next r =>
      split
      · next comment r' hclose =>
        simp only [List.cons_append, List.append_assoc, ih r', closeComment_append hclose]
      · rfl
    · next c r _ _ =>
      split
      · simp only [List.cons_append, ih r]
      · rfl
    · rfl

theorem printLexemes_nil : printLexemes [] = "" := rfl

theorem printLexemes_cons (l : Lexeme) (ls : List Lexeme) :
    printLexemes (l :: ls) = l.lead.text ++ l.text ++ printLexemes ls := by
  unfold printLexemes
  rw [List.map_cons, String.join_cons]
  rfl

theorem printLexemes_append (ls ms : List Lexeme) :
    printLexemes (ls ++ ms) = printLexemes ls ++ printLexemes ms := by
  unfold printLexemes
  rw [List.map_append, String.join_append]

theorem lexFrom_lossless {n : Nat} {before s : List Char} {ls : List Lexeme} {close : Space}
    (h : lexFrom n before s = some (ls, close)) :
    printLexemes ls ++ close.text = String.ofList (before ++ s) := by
  induction n generalizing before s ls with
  | zero => cases h
  | succ n ih =>
    have hspace := takeSpace_append s s
    unfold lexFrom at h
    generalize takeSpace s s = split at h hspace
    obtain ⟨space, t⟩ := split
    cases t with
    | nil =>
      cases h
      rw [printLexemes_nil, String.empty_append, ← hspace, List.append_nil]
    | cons c t =>
      obtain ⟨⟨kind, rest⟩, hlexeme, h⟩ := Option.bind_eq_some_iff.mp h
      obtain ⟨⟨more, last⟩, hmore, h⟩ := Option.bind_eq_some_iff.mp h
      cases h
      -- The text of a lexeme is cut out by length: it is what stands in front of the suffix.
      obtain ⟨taken, htaken⟩ := lexeme_suffix hlexeme
      have htake : (c :: t).take ((c :: t).length - rest.length) = taken := by
        rw [← htaken, List.length_append, Nat.add_sub_cancel, List.take_left]
      rw [printLexemes_cons, htake, String.append_assoc, ih hmore, ← hspace, ← htaken]
      simp only [List.nil_append, ← String.ofList_append, List.append_assoc]

/-- The lexemes of a source with their spaces, and the space behind the last one, are the source. -/
theorem lex_lossless {source : String} {ls : List Lexeme} {close : Space}
    (h : lex source = some (ls, close)) : printLexemes ls ++ close.text = source := by
  unfold lex at h
  split at h
  · next s heq =>
    rw [lexFrom_lossless h, ← String.ofList_toList (s := source), heq]
    rfl
  · rw [lexFrom_lossless h, List.nil_append, String.ofList_toList]

end JavaMigration.Java
