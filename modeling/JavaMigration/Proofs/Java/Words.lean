import JavaMigration.Proofs.Java.Lexing

/-!
# Words in source

Where the text of a source is known, so are the lexemes there. A lexeme cuts its source in two,
and what follows is lexed on its own (`lexFrom_behind`); blanks, identifiers and an opening
parenthesis are taken one by one.
-/

namespace JavaMigration.Java

open Text Source

/-- Whether some characters are a Java identifier. Keywords count as identifiers. -/
def isIdentifier : List Char → Bool
  | [] => false
  | c :: r => isIdentifierStart c && r.all isIdentifierPart

theorem isIdentifier_cons_iff {c : Char} {r : List Char} :
    isIdentifier (c :: r) ↔ isIdentifierStart c ∧ ∀ d ∈ r, isIdentifierPart d := by
  simp [isIdentifier]

/-- A character that is no part of identifiers is not in one. -/
theorem not_mem_of_isIdentifier {w : List Char} {c : Char} (hw : isIdentifier w)
    (hstart : isIdentifierStart c = false) (hpart : isIdentifierPart c = false) : c ∉ w := by
  cases w with
  | nil => exact List.not_mem_nil
  | cons d r =>
    obtain ⟨hd, hr⟩ := isIdentifier_cons_iff.mp hw
    intro hc
    rcases List.mem_cons.mp hc with rfl | hc
    · rw [hd] at hstart
      cases hstart
    · rw [hr c hc] at hpart
      cases hpart

/-! ## One lexeme -/

theorem take_of_append_eq {α : Type} {taken rest s : List α} (h : taken ++ rest = s) :
    s.take (s.length - rest.length) = taken := by
  rw [← h, List.length_append, Nat.add_sub_cancel, List.take_left]

/-- What comes first in a source, as far as its characters are known. -/
theorem lexFrom_of_lexeme {n : Nat} {before s space taken rest : List Char} {kind : LexemeKind}
    {ls : List Lexeme} {close : Space} (hspace : takeSpace s s = (space, taken ++ rest))
    (hne : taken ≠ []) (hlexeme : lexeme (taken ++ rest) = some (kind, rest))
    (h : lexFrom n before s = some (ls, close)) :
    ∃ n more, ls = ⟨⟨String.ofList (before ++ space)⟩, kind, String.ofList taken⟩ :: more ∧
      lexFrom n [] rest = some (more, close) := by
  cases n with
  | zero => cases h
  | succ n =>
    obtain ⟨c, r, hcons⟩ := List.exists_cons_of_ne_nil (List.append_ne_nil_of_left_ne_nil hne rest)
    have htake : (taken ++ rest).take ((taken ++ rest).length - rest.length) = taken :=
      take_of_append_eq rfl
    unfold lexFrom at h
    rw [hspace] at h
    rw [hcons] at h htake hlexeme
    obtain ⟨⟨kind', rest'⟩, hfirst, h⟩ := Option.bind_eq_some_iff.mp h
    rw [hlexeme] at hfirst
    cases hfirst
    obtain ⟨⟨more, last⟩, hmore, h⟩ := Option.bind_eq_some_iff.mp h
    rw [htake] at h
    cases h
    exact ⟨n, more, rfl, hmore⟩

/-- How the first lexeme of a source is read. -/
theorem exists_of_lexFrom_cons {n : Nat} {before s : List Char} {l : Lexeme} {ls : List Lexeme}
    {close : Space} (h : lexFrom n before s = some (l :: ls, close)) :
    ∃ n kind space taken rest, takeSpace s s = (space, taken ++ rest) ∧ taken ≠ [] ∧
      lexeme (taken ++ rest) = some (kind, rest) ∧
      l = ⟨⟨String.ofList (before ++ space)⟩, kind, String.ofList taken⟩ ∧
      lexFrom n [] rest = some (ls, close) := by
  cases n with
  | zero => cases h
  | succ n =>
    unfold lexFrom at h
    generalize takeSpace s s = split at h
    obtain ⟨space, t⟩ := split
    cases t with
    | nil => cases h
    | cons c t =>
      obtain ⟨⟨kind, rest⟩, hlexeme, h⟩ := Option.bind_eq_some_iff.mp h
      obtain ⟨⟨more, last⟩, hmore, h⟩ := Option.bind_eq_some_iff.mp h
      obtain ⟨taken, htaken, hsolid⟩ := lexeme_solid hlexeme
      rw [take_of_append_eq htaken] at h
      cases h
      exact ⟨n, kind, space, taken, rest, by rw [htaken], hsolid.ne_nil, by rw [htaken, hlexeme],
        rfl, hmore⟩

/-- Where there is only space, there are no lexemes. -/
theorem exists_of_lexFrom_nil {n : Nat} {before s : List Char} {close : Space}
    (h : lexFrom n before s = some ([], close)) :
    ∃ space, takeSpace s s = (space, []) ∧ close = ⟨String.ofList (before ++ space)⟩ := by
  cases n with
  | zero => cases h
  | succ n =>
    unfold lexFrom at h
    generalize takeSpace s s = split at h
    obtain ⟨space, t⟩ := split
    cases t with
    | nil =>
      cases h
      exact ⟨space, rfl, rfl⟩
    | cons c t =>
      obtain ⟨⟨kind, rest⟩, -, h⟩ := Option.bind_eq_some_iff.mp h
      obtain ⟨⟨more, last⟩, -, h⟩ := Option.bind_eq_some_iff.mp h
      cases h

/-- A first lexeme in front of what is lexed. -/
theorem lexFrom_of_first {n : Nat} {before s space taken rest : List Char} {kind : LexemeKind}
    {ls : List Lexeme} {close : Space} (hspace : takeSpace s s = (space, taken ++ rest))
    (hne : taken ≠ []) (hlexeme : lexeme (taken ++ rest) = some (kind, rest))
    (h : lexFrom n [] rest = some (ls, close)) :
    lexFrom (n + 1) before s =
      some (⟨⟨String.ofList (before ++ space)⟩, kind, String.ofList taken⟩ :: ls, close) := by
  have htake := take_of_append_eq (rfl : taken ++ rest = taken ++ rest)
  obtain ⟨c, t, hcons⟩ := List.exists_cons_of_ne_nil (List.append_ne_nil_of_left_ne_nil hne rest)
  rw [hcons] at hspace hlexeme htake
  rw [lexFrom, hspace]
  simp only [hlexeme, htake, h, Option.bind_eq_bind, Option.bind_some]
  rfl

/-- With more steps than characters, lexing comes to the end. -/
theorem lexFrom_of_length_lt {n m : Nat} {before s : List Char} {ls : List Lexeme} {close : Space}
    (h : lexFrom n before s = some (ls, close)) (hm : s.length < m) :
    lexFrom m before s = some (ls, close) := by
  obtain ⟨m, rfl⟩ := Nat.exists_eq_add_one_of_ne_zero (Nat.ne_zero_of_lt hm)
  induction ls generalizing n m before s with
  | nil =>
    obtain ⟨space, hspace, rfl⟩ := exists_of_lexFrom_nil h
    rw [lexFrom, hspace]
  | cons l ls ih =>
    obtain ⟨n, kind, space, taken, rest, hspace, hne, hlexeme, rfl, hmore⟩ :=
      exists_of_lexFrom_cons h
    have hlength := congrArg List.length (takeSpace_append s s)
    have hpos := List.length_pos_iff.mpr hne
    rw [hspace, List.length_append, List.length_append] at hlength
    obtain ⟨m, rfl⟩ := Nat.exists_eq_add_one_of_ne_zero (show m ≠ 0 by omega)
    exact lexFrom_of_first hspace hne hlexeme (ih hmore m (by omega))

/-- A lexeme cuts its source in two. -/
theorem lexFrom_cons {n : Nat} {before s : List Char} {l : Lexeme} {ls : List Lexeme} {close : Space}
    (h : lexFrom n before s = some (l :: ls, close)) :
    ∃ n rest, lexFrom n [] rest = some (ls, close) ∧ l.print.toList ++ rest = before ++ s := by
  obtain ⟨n, kind, space, taken, rest, hspace, -, -, rfl, hmore⟩ := exists_of_lexFrom_cons h
  refine ⟨n, rest, hmore, ?_⟩
  have happend := takeSpace_append s s
  rw [hspace] at happend
  rw [← happend]
  simp [Lexeme.print]

/-- Behind each of its lexemes a source is lexed as if it began there. -/
theorem lexFrom_behind {n : Nat} {before s : List Char} {front back : List Lexeme} {l : Lexeme}
    {close : Space} (h : lexFrom n before s = some (front ++ l :: back, close)) :
    ∃ n rest, lexFrom n [] rest = some (back, close) ∧
      (printLexemes front).toList ++ l.print.toList ++ rest = before ++ s := by
  induction front generalizing n before s with
  | nil =>
    obtain ⟨n, rest, hrest, hprint⟩ := lexFrom_cons h
    exact ⟨n, rest, hrest, hprint⟩
  | cons first front ih =>
    obtain ⟨n, rest, hrest, hprint⟩ := lexFrom_cons h
    obtain ⟨n, last, hlast, hmore⟩ := ih hrest
    refine ⟨n, last, hlast, ?_⟩
    rw [← hprint, ← List.nil_append rest, ← hmore, printLexemes_cons]
    simp [Lexeme.print]

/-! ## Known lexemes -/

theorem not_isJavaBlank_of_start {c : Char} (hc : isIdentifierStart c) : isJavaBlank c = false := by
  rw [Bool.eq_false_iff]
  intro hblank
  have hcases : c.toNat ∈ [9, 10, 11, 12, 13, 32] := by
    simp only [isJavaBlank, Bool.or_eq_true, Bool.and_eq_true, decide_eq_true_eq, beq_iff_eq] at hblank
    rcases hblank with ⟨hle, hge⟩ | rfl
    · simp only [List.mem_cons, List.not_mem_nil, or_false]
      omega
    · decide
  have hnone : ∀ n ∈ [9, 10, 11, 12, 13, 32], isIdentifierStart (Char.ofNat n) = false := by decide
  rw [← Char.ofNat_toNat c, hnone _ hcases] at hc
  cases hc

theorem takeSpace_of_start {c : Char} (hc : isIdentifierStart c) (s : List Char) :
    takeSpace (c :: s) (c :: s) = ([], c :: s) := by
  unfold takeSpace
  split
  · next r heq =>
    cases heq
    cases hc
  · next r heq =>
    cases heq
    cases hc
  · next d r _ _ heq =>
    cases heq
    rw [not_isJavaBlank_of_start hc]
    rfl
  · next heq => cases heq

theorem takeSpace_identifier {w : List Char} (hw : isIdentifier w) (s : List Char) :
    takeSpace (w ++ s) (w ++ s) = ([], w ++ s) := by
  cases w with
  | nil => cases hw
  | cons c r => exact takeSpace_of_start (isIdentifier_cons_iff.mp hw).1 (r ++ s)

theorem takeSpace_blank {b : Char} (hb : b ∈ ['\n', ' ']) (s : List Char) :
    takeSpace (b :: s) (b :: s) = (b :: (takeSpace s s).1, (takeSpace s s).2) := by
  simp only [List.mem_cons, List.not_mem_nil, or_false] at hb
  rcases hb with rfl | rfl <;> rfl

theorem lexeme_identifier {w s : List Char} (hw : isIdentifier w)
    (hs : ∀ c ∈ s.head?, isIdentifierPart c = false) : lexeme (w ++ s) = some (.word, s) := by
  cases w with
  | nil => cases hw
  | cons c r =>
    obtain ⟨hc, hr⟩ := isIdentifier_cons_iff.mp hw
    have hrest : (r ++ s).dropWhile isIdentifierPart = s := by
      rw [List.dropWhile_append_of_pos hr]
      cases s with
      | nil => rfl
      | cons d s => exact List.dropWhile_cons_of_neg (by simp [hs d rfl])
    rw [List.cons_append]
    generalize r ++ s = t at hrest
    unfold lexeme
    split
    · next heq => cases heq
    · next heq =>
      cases heq
      cases hc
    · next heq =>
      cases heq
      cases hc
    · next heq =>
      cases heq
      cases hc
    · next heq =>
      cases heq
      rw [if_pos hc, hrest]

/-- Blanks in front of a text are space. -/
theorem takeSpace_blanks {front : List Char} (hfront : ∀ b ∈ front, b ∈ ['\n', ' '])
    (s : List Char) :
    takeSpace (front ++ s) (front ++ s) = (front ++ (takeSpace s s).1, (takeSpace s s).2) := by
  induction front with
  | nil => rfl
  | cons b front ih =>
    obtain ⟨hb, hfront⟩ := List.forall_mem_cons.mp hfront
    rw [List.cons_append, takeSpace_blank hb, ih hfront]
    rfl

section

variable {n : Nat} {before rest : List Char} {ls : List Lexeme} {close : Space}

/-- An identifier behind blanks is a word. -/
theorem lexFrom_word (front : List Char) {w : List Char}
    (h : lexFrom n before (front ++ (w ++ rest)) = some (ls, close))
    (hfront : ∀ b ∈ front, b ∈ ['\n', ' ']) (hw : isIdentifier w)
    (hrest : ∀ c ∈ rest.head?, isIdentifierPart c = false) :
    ∃ l n more, ls = l :: more ∧ l.kind = .word ∧ l.text = String.ofList w ∧
      lexFrom n [] rest = some (more, close) := by
  have hne : w ≠ [] := by
    rintro rfl
    cases hw
  have hspace : takeSpace (front ++ (w ++ rest)) (front ++ (w ++ rest)) = (front, w ++ rest) := by
    rw [takeSpace_blanks hfront, takeSpace_identifier hw, List.append_nil]
  obtain ⟨n, more, rfl, hmore⟩ := lexFrom_of_lexeme hspace hne (lexeme_identifier hw hrest) h
  exact ⟨_, n, more, rfl, rfl, rfl, hmore⟩

/-- A parenthesis, an opening brace or a semicolon behind blanks is a mark. -/
theorem lexFrom_mark (front : List Char) {c : Char}
    (h : lexFrom n before (front ++ c :: rest) = some (ls, close))
    (hfront : ∀ b ∈ front, b ∈ ['\n', ' ']) (hc : c ∈ ['(', ')', '\x7b', ';']) :
    ∃ l n more, ls = l :: more ∧ l.kind = .mark ∧ l.text = String.ofList [c] ∧
      lexFrom n [] rest = some (more, close) := by
  have hlexeme : takeSpace (c :: rest) (c :: rest) = ([], [c] ++ rest) ∧
      lexeme ([c] ++ rest) = some (.mark, rest) := by
    simp only [List.mem_cons, List.not_mem_nil, or_false] at hc
    rcases hc with rfl | rfl | rfl | rfl <;> exact ⟨rfl, rfl⟩
  have hspace : takeSpace (front ++ c :: rest) (front ++ c :: rest) = (front, [c] ++ rest) := by
    rw [takeSpace_blanks hfront, hlexeme.1, List.append_nil]
  obtain ⟨n, more, rfl, hmore⟩ := lexFrom_of_lexeme hspace (List.cons_ne_nil _ _) hlexeme.2 h
  exact ⟨_, n, more, rfl, rfl, rfl, hmore⟩

end

/-- The text of an identifier is no mark. -/
theorem ofList_ne_mark {w : List Char} (hw : isIdentifier w) {c : Char} {r : List Char}
    (hc : isIdentifierStart c = false) : String.ofList w ≠ String.ofList (c :: r) := by
  intro heq
  rw [String.ofList_inj] at heq
  subst heq
  rw [(isIdentifier_cons_iff.mp hw).1] at hc
  cases hc

end JavaMigration.Java
