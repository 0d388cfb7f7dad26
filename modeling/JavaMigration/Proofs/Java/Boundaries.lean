import Mathlib.Data.List.Chain
import JavaMigration.Proofs.Java.Heads
import JavaMigration.Proofs.Java.Parts
import JavaMigration.Proofs.Java.Words

/-!
# Where words end

A word of a source goes as far as its characters do. Behind it, and in front of it unless a number
or `@interface` stands there, is a character that is in no name. So a search for words in the text
of some lexemes comes across each word among them (`containsWord_textOf`).
-/

namespace JavaMigration.Text

open CharRange

/-! ## Characters -/

/-- Two ranges share no code point, or all that they share is in one range of a table. -/
def sharedIn (table : List (Nat × Nat)) (r q : Nat × Nat) : Bool :=
  r.2.blt q.1 || q.2.blt r.1 ||
    table.any fun d => (d.1.ble r.1 || d.1.ble q.1) && (r.2.ble d.2 || q.2.ble d.2)

set_option maxRecDepth 100000 in
/-- The letters that cannot stand in an identifier cannot begin one. -/
theorem sharedIn_dependent :
    wordOnly.toList.all fun r => alphabetic.toList.all (sharedIn dependent.toList r) := by
  decide +kernel

theorem covers_iff {table : Array (Nat × Nat)} {n : Nat} :
    covers table n ↔ ∃ r ∈ table.toList, r.1 ≤ n ∧ n ≤ r.2 := by
  rw [covers_eq, List.any_eq_true]
  simp only [Bool.and_eq_true, decide_eq_true_eq]

theorem covers_of_sharedIn {table : Array (Nat × Nat)} {r q : Nat × Nat} {n : Nat}
    (h : sharedIn table.toList r q) (hr : r.1 ≤ n ∧ n ≤ r.2) (hq : q.1 ≤ n ∧ n ≤ q.2) :
    covers table n := by
  unfold sharedIn at h
  simp only [Bool.or_eq_true, Bool.and_eq_true, Nat.blt_eq, Nat.ble_eq, List.any_eq_true] at h
  rcases h with (h | h) | ⟨d, hd, h⟩
  · omega
  · omega
  · exact covers_iff.mpr ⟨d, hd, by omega, by omega⟩

/-- What begins an identifier can also continue one. -/
theorem isIdentifierPart_of_isIdentifierStart {c : Char} (h : isIdentifierStart c) :
    isIdentifierPart c := by
  unfold isIdentifierStart at h
  unfold isIdentifierPart
  split at h
  · next hascii =>
    rw [if_pos hascii]
    simp only [Bool.or_eq_true] at h ⊢
    rcases h with (h | h) | h
    · exact .inl (.inl (by simp [Char.isAlphanum, h]))
    · exact .inl (.inr h)
    · exact .inr h
  · next hascii =>
    rw [if_neg hascii]
    simp only [Bool.or_eq_true, Bool.and_eq_true, Bool.not_eq_true', beq_iff_eq] at h ⊢
    rcases h with (⟨hletter, hfree⟩ | h) | h
    · refine .inl (.inl ⟨by simp [isWordChar, if_neg hascii, hletter], ?_⟩)
      rw [Bool.eq_false_iff]
      intro hword
      obtain ⟨r, hr, hrn⟩ := covers_iff.mp hword
      obtain ⟨q, hq, hqn⟩ := covers_iff.mp hletter
      have hshared := List.all_eq_true.mp (List.all_eq_true.mp sharedIn_dependent r hr) q hq
      rw [covers_of_sharedIn hshared hrn hqn] at hfree
      cases hfree
    · exact .inl (.inr (covers_iff.mpr ⟨(8472, 8472), by decide, by omega⟩))
    · exact .inl (.inr (covers_iff.mpr ⟨(8494, 8494), by decide, by omega⟩))

/-- A character that is in no name. -/
def isBreak (c : Char) : Bool := !isNameChar c && !isIdentifierPart c

theorem isBreak_iff {c : Char} : isBreak c ↔ isNameChar c = false ∧ isIdentifierPart c = false := by
  simp [isBreak]

theorem isBreak_of_isJavaBlank {c : Char} (h : isJavaBlank c) : isBreak c := by
  have hcases : c.toNat ∈ [9, 10, 11, 12, 13, 32] := by
    simp only [isJavaBlank, Bool.or_eq_true, Bool.and_eq_true, decide_eq_true_eq, beq_iff_eq] at h
    rcases h with ⟨hle, hge⟩ | rfl
    · simp only [List.mem_cons, List.not_mem_nil, or_false]
      omega
    · decide
  have hall : ∀ n ∈ [9, 10, 11, 12, 13, 32], isBreak (Char.ofNat n) := by decide
  rw [← Char.ofNat_toNat c]
  exact hall _ hcases

set_option maxRecDepth 100000 in
theorem mark_not_covered :
    [alphabetic, numeric, plainMark, decimalDigit, identifierOnly].all fun table =>
      table.toList.all fun r => r.2.blt 0xFEFF || Nat.blt 0xFEFF r.1 := by decide +kernel

/-- The byte order mark is in no name. -/
theorem isBreak_byteOrderMark : isBreak '\uFEFF' := by
  have hnone : ∀ table ∈ [alphabetic, numeric, plainMark, decimalDigit, identifierOnly],
      covers table 0xFEFF = false := by
    intro table htable
    rw [Bool.eq_false_iff]
    intro hcovers
    obtain ⟨r, hr, hle, hge⟩ := covers_iff.mp hcovers
    have hout := List.all_eq_true.mp (List.all_eq_true.mp mark_not_covered table htable) r hr
    simp only [Bool.or_eq_true, Nat.blt_eq] at hout
    omega
  have hn : ('\uFEFF' : Char).toNat = 0xFEFF := rfl
  refine isBreak_iff.mpr ⟨?_, ?_⟩
  · rw [isNameChar, isAlphanumeric, hn, hnone alphabetic (by simp), hnone numeric (by simp)]
    rfl
  · unfold isIdentifierPart isWordChar
    dsimp only
    rw [hn, hnone alphabetic (by simp), hnone plainMark (by simp), hnone decimalDigit (by simp),
      hnone identifierOnly (by simp)]
    rfl

/-! ## Searching -/

/-- A word of identifier characters between two breaks is found. -/
theorem wordFrom_between {word front back : List Char} (hword : word ≠ [])
    (hpart : ∀ c ∈ word, isIdentifierPart c) (hfront : front.getLast?.all isBreak)
    (hback : back.head?.any isNameChar = false) :
    wordFrom word none 0 (front ++ (word ++ back)) := by
  refine wordFrom_of_apart hword (fun c hc => ?_) hback
  rw [Option.mem_def.mp hc] at hfront
  obtain ⟨hname, hidentifier⟩ := isBreak_iff.mp hfront
  exact ⟨hname, fun hmem => Bool.false_ne_true (hidentifier.symm.trans (hpart c hmem))⟩

end JavaMigration.Text

namespace JavaMigration.Java

open Text Source

/-! ## Spaces -/

theorem closeComment_last {s comment rest : List Char} (h : closeComment s = some (comment, rest)) :
    comment.getLast? = some '/' := by
  induction s using closeComment.induct generalizing comment with
  | case1 => cases h
  | case2 s => cases h; rfl
  | case3 c s hne ih =>
    rw [closeComment] at h
    · obtain ⟨⟨comment', rest'⟩, hmore, hpair⟩ := Option.map_eq_some_iff.mp h
      cases hpair
      rw [List.getLast?_cons, ih hmore]
      rfl
    · exact hne

/-- A space begins with a break. -/
theorem takeSpace_head (bound s : List Char) : (takeSpace bound s).1.head?.all isBreak := by
  have hslash : isBreak '/' := by decide
  cases bound with
  | nil => rfl
  | cons b bound =>
    unfold takeSpace
    split
    · exact hslash
    · split
      · exact hslash
      · rfl
    · split
      · next hc => exact isBreak_of_isJavaBlank hc
      · rfl
    · rfl

theorem takeSpace_newline {bound s : List Char} (hbound : bound ≠ []) :
    (takeSpace bound ('\n' :: s)).1 ≠ [] := by
  cases bound with
  | nil => exact absurd rfl hbound
  | cons b bound => exact List.cons_ne_nil _ _

theorem all_getLast?_append {p : Char → Bool} {front back : List Char}
    (hfront : back = [] → front.getLast?.all p) (hback : back.getLast?.all p) :
    (front ++ back).getLast?.all p := by
  cases back with
  | nil => rw [List.append_nil]; exact hfront rfl
  | cons c back =>
    rw [List.getLast?_append, List.getLast?_cons]
    rw [List.getLast?_cons] at hback
    exact hback

/-- A space in front of something ends with a break: a comment that goes to the end of its line is
followed by that end. -/
theorem takeSpace_last {bound s : List Char} (hbound : s.length ≤ bound.length)
    (hrest : (takeSpace bound s).2 ≠ []) : (takeSpace bound s).1.getLast?.all isBreak := by
  induction bound generalizing s with
  | nil => rfl
  | cons b bound ih =>
    rw [List.length_cons] at hbound
    unfold takeSpace at hrest ⊢
    split at hrest
    · next r =>
      rw [List.span_eq_takeWhile_dropWhile] at hrest ⊢
      dsimp only at hrest ⊢
      have hshort := (List.dropWhile_suffix (l := r) (· != '\n')).length_le
      simp only [List.length_cons] at hbound
      refine all_getLast?_append (fun hnil => absurd hnil ?_) (ih (by omega) hrest)
      have happend := takeSpace_append bound (r.dropWhile (· != '\n'))
      have hhead := List.head?_dropWhile_not (· != '\n') r
      cases hend : r.dropWhile (· != '\n') with
      | nil =>
        rw [hend] at happend
        exact absurd (List.append_eq_nil_iff.mp happend).2 (hend ▸ hrest)
      | cons d t =>
        rw [hend] at hhead hshort
        rw [show d = '\n' by simpa using hhead]
        refine takeSpace_newline ?_
        rintro rfl
        simp only [List.length_cons, List.length_nil] at hbound hshort
        omega
    · next r =>
      split at hrest
      · next comment r' hclose =>
        have happend := congrArg List.length (closeComment_append hclose)
        rw [List.length_append] at happend
        simp only [List.length_cons] at hbound
        dsimp only at hrest ⊢
        refine all_getLast?_append (fun _ => ?_) (ih (by omega) hrest)
        rw [List.getLast?_cons, List.getLast?_cons, closeComment_last hclose]
        rfl
      · rfl
    · next c r _ _ =>
      split at hrest
      · next hc =>
        rw [if_pos hc]
        dsimp only at hrest ⊢
        rw [← List.singleton_append]
        exact all_getLast?_append (fun _ => isBreak_of_isJavaBlank hc)
          (ih (Nat.le_of_succ_le_succ hbound) hrest)
      · next hc => rw [if_neg hc]; rfl
    · rfl

/-! ## Lexemes -/

/-- A word is an identifier and goes as far as it can. -/
theorem lexeme_word {s rest : List Char} (h : lexeme s = some (.word, rest)) :
    ∃ taken, taken ++ rest = s ∧ isIdentifier taken ∧ rest.head?.all (!isIdentifierPart ·) := by
  unfold lexeme at h
  split at h
  · cases h
  · obtain ⟨r, -, hpair⟩ := Option.map_eq_some_iff.mp h
    cases hpair
  · obtain ⟨r, -, hpair⟩ := Option.map_eq_some_iff.mp h
    cases hpair
  · obtain ⟨r, -, hpair⟩ := Option.map_eq_some_iff.mp h
    cases hpair
  · next c r _ _ _ =>
    split at h
    · next hc =>
      cases h
      refine ⟨c :: r.takeWhile isIdentifierPart, by simp, ?_, ?_⟩
      · refine isIdentifier_cons_iff.mpr ⟨hc, fun d hd => ?_⟩
        exact List.mem_takeWhile_imp hd
      · have hhead := List.head?_dropWhile_not isIdentifierPart r
        cases hd : (r.dropWhile isIdentifierPart).head? with
        | none => rfl
        | some d =>
          rw [hd] at hhead
          simpa using hhead
    · cases hnumber : number (c :: r) with
      | none =>
        rw [hnumber] at h
        obtain ⟨r, -, hpair⟩ := Option.map_eq_some_iff.mp h
        cases hpair
      | some r =>
        rw [hnumber] at h
        cases h

/-- Other lexemes but numbers and `@interface` end with a break. -/
theorem lexeme_last {s taken rest : List Char} {kind : LexemeKind}
    (h : lexeme s = some (kind, rest)) (htaken : taken ++ rest = s) (hword : kind ≠ .word)
    (hnumber : kind ≠ .number) (hmark : taken ≠ "@interface".toList) :
    taken.getLast?.all isBreak := by
  -- what ends with a quote ends with a break
  have hclosed : ∀ {a b : Char} {t r : List Char}, isBreak b → b :: r <:+ t → taken ++ r = a :: t →
      taken.getLast?.all isBreak := by
    rintro a b _ r hb ⟨front, rfl⟩ heq
    have hsplit : taken ++ r = (a :: front ++ [b]) ++ r := by rw [heq]; simp
    rw [List.append_cancel_right hsplit, List.getLast?_concat]
    exact hb
  unfold lexeme at h
  split at h
  · cases h
  · obtain ⟨r, hr, hpair⟩ := Option.map_eq_some_iff.mp h
    cases hpair
    exact hclosed (by decide)
      ((closeTextBlock_suffix hr).trans ((List.suffix_cons _ _).trans (List.suffix_cons _ _))) htaken
  · obtain ⟨r, hr, hpair⟩ := Option.map_eq_some_iff.mp h
    cases hpair
    exact hclosed (by decide) (closeString_suffix hr) htaken
  · obtain ⟨r, hr, hpair⟩ := Option.map_eq_some_iff.mp h
    cases hpair
    exact hclosed (by decide) (closeCharacter_suffix hr) htaken
  · next c r _ _ _ =>
    split at h
    · cases h
      exact absurd rfl hword
    · cases hread : number (c :: r) with
      | none =>
        rw [hread] at h
        obtain ⟨r, hr, hpair⟩ := Option.map_eq_some_iff.mp h
        cases hpair
        obtain ⟨m, hm, hs⟩ := mark_eq hr
        rw [← hs] at htaken
        rw [List.append_cancel_right htaken] at hmark ⊢
        have hall : ∀ m ∈ marks, m.toList ≠ "@interface".toList → m.toList.getLast?.all isBreak := by
          decide
        exact hall m hm hmark
      | some r =>
        rw [hread] at h
        cases h
        exact absurd rfl hnumber

/-- The reader takes nothing unless a digit or a dot stands in front. -/
def Numeric (f : List Char → Option (List Char)) : Prop :=
  ∀ ⦃s r⦄, f s = some r → s.head?.any fun c => c.isDigit || c == '.'

theorem Numeric.bind {f g : List Char → Option (List Char)} (hf : Numeric f) :
    Numeric fun s => f s >>= g := by
  intro s r h
  obtain ⟨mid, hmid, -⟩ := Option.bind_eq_some_iff.mp h
  exact hf hmid

theorem numeric_oneOf {c : Char} (hc : c.isDigit || c == '.') : Numeric (oneOf [c]) := by
  intro s r h
  cases s with
  | nil => cases h
  | cons d s =>
    rw [show oneOf [c] (d :: s) = if [c].contains d then some s else none from rfl] at h
    split at h
    · next hd =>
      rw [List.mem_singleton.mp (List.contains_iff_mem.mp hd)]
      exact hc
    · cases h

theorem numeric_digits : Numeric (digits Char.isDigit) := by
  intro s r h
  unfold digits at h
  split at h
  · next hhead =>
    cases s with
    | nil => cases hhead
    | cons c s => exact Bool.or_eq_true_iff.mpr (.inl hhead)
  · cases h

theorem numeric_plainInteger : Numeric plainInteger := by
  intro s r h
  unfold plainInteger at h
  split at h
  · cases h
  · rfl
  · split at h
    · next hc => exact Bool.or_eq_true_iff.mpr (.inl hc)
    · cases h

theorem numeric_numberForms : ∀ f ∈ numberForms, Numeric f := by
  have hzero : Numeric (oneOf ['0']) := numeric_oneOf rfl
  have hhex : Numeric hexStart := hzero.bind
  simp only [numberForms, List.forall_mem_cons, List.not_mem_nil, false_implies, implies_true,
    and_true]
  exact ⟨numeric_plainInteger.bind, hhex.bind.bind, hzero.bind.bind.bind, hzero.bind.bind.bind,
    numeric_digits.bind.bind.bind.bind, (numeric_oneOf rfl).bind.bind.bind,
    numeric_plainInteger.bind.bind, numeric_plainInteger.bind.bind, hhex.bind.bind.bind.bind,
    hhex.bind.bind.bind.bind.bind⟩

theorem numeric_number : Numeric number := by
  intro s r h
  obtain h | h := mem_of_foldl_shortest h
  · cases h
  · obtain ⟨f, hf, hr⟩ := List.mem_filterMap.mp h
    exact numeric_numberForms f hf hr

theorem isIdentifierPart_of_isDigit {c : Char} (h : c.isDigit) : isIdentifierPart c := by
  have hascii : c.toNat < 128 := by
    simp only [Char.isDigit, Bool.and_eq_true, decide_eq_true_eq] at h
    have hle : c.toNat ≤ '9'.toNat := h.2
    exact Nat.lt_of_le_of_lt hle (by decide)
  rw [isIdentifierPart, if_pos hascii]
  simp [Char.isAlphanum, h]

/-- A lexeme begins with a break, or with what could continue a word. -/
theorem lexeme_head {c : Char} {s rest : List Char} {kind : LexemeKind}
    (h : lexeme (c :: s) = some (kind, rest)) : isIdentifierPart c ∨ isBreak c := by
  unfold lexeme at h
  split at h
  · next heq => cases heq
  · next heq => cases heq; exact .inr (by decide)
  · next heq => cases heq; exact .inr (by decide)
  · next heq => cases heq; exact .inr (by decide)
  · next heq =>
    cases heq
    split at h
    · next hc => exact .inl (isIdentifierPart_of_isIdentifierStart hc)
    · cases hread : number (c :: s) with
      | some r =>
        rcases Bool.or_eq_true_iff.mp (numeric_number hread) with hdigit | hdot
        · exact .inl (isIdentifierPart_of_isDigit hdigit)
        · rw [beq_iff_eq.mp hdot]
          exact .inr (by decide)
      | none =>
        rw [hread] at h
        obtain ⟨r, hr, -⟩ := Option.map_eq_some_iff.mp h
        obtain ⟨m, hm, hs⟩ := mark_eq hr
        have hall : ∀ m ∈ marks, m.toList.head?.any isBreak := by decide
        have hmark := hall m hm
        cases hchars : m.toList with
        | nil => rw [hchars] at hmark; cases hmark
        | cons d t =>
          rw [hchars] at hs hmark
          cases hs
          exact .inr hmark

/-! ## Lexemes in a source -/

/-- What is known of a lexeme of a source: where its space and its text end. -/
structure Lexeme.Bounded (l : Lexeme) : Prop where
  lead : l.lead.text.toList.getLast?.all isBreak
  ne_nil : l.text.toList ≠ []
  word : l.kind = .word → isIdentifier l.text.toList
  last : l.kind ≠ .word → l.kind ≠ .number → l.text ≠ "@interface" →
    l.text.toList.getLast?.all isBreak

/-- Behind a word comes a break. -/
def Lexeme.Ends (l m : Lexeme) : Prop := l.kind = .word → m.print.toList.head?.all isBreak

/-- Lexemes as they stand in a source. -/
structure Separated (ls : List Lexeme) : Prop where
  bounded : ∀ l ∈ ls, l.Bounded
  ends : ls.IsChain Lexeme.Ends

theorem Separated.within {ls ms : List Lexeme} (h : Separated ls) (hms : ms <:+: ls) :
    Separated ms where
  bounded l hl := h.bounded l (hms.subset hl)
  ends := List.IsChain.infix h.ends hms

/-- Without the space in front the lexemes are as they were. -/
theorem Separated.leadWith_empty {ls : List Lexeme} (h : Separated ls) :
    Separated (leadWith .empty ls) := by
  cases ls with
  | nil => exact h
  | cons l ls =>
    obtain ⟨hl, hls⟩ := List.forall_mem_cons.mp h.bounded
    obtain ⟨hhead, htail⟩ := List.isChain_cons.mp h.ends
    exact ⟨List.forall_mem_cons.mpr ⟨{ hl with lead := rfl }, hls⟩,
      List.isChain_cons.mpr ⟨fun m hm => hhead m hm, htail⟩⟩

theorem bounded_of_lexeme {lead taken rest : List Char} {kind : LexemeKind}
    (hlead : lead.getLast?.all isBreak) (hne : taken ≠ [])
    (hlexeme : lexeme (taken ++ rest) = some (kind, rest)) :
    Lexeme.Bounded ⟨⟨String.ofList lead⟩, kind, String.ofList taken⟩ where
  lead := by rwa [String.toList_ofList]
  ne_nil := by rwa [String.toList_ofList]
  word := by
    rintro rfl
    obtain ⟨word, heq, hword, -⟩ := lexeme_word hlexeme
    rwa [String.toList_ofList, ← List.append_cancel_right heq]
  last hword hnumber hmark := by
    rw [String.toList_ofList]
    refine lexeme_last hlexeme rfl hword hnumber fun heq => hmark ?_
    rw [heq, String.ofList_toList]

/-- What a source goes on with behind a word is a break. -/
theorem head_of_lexFrom {n : Nat} {s : List Char} {m : Lexeme} {ls : List Lexeme} {close : Space}
    (h : lexFrom n [] s = some (m :: ls, close)) (hs : s.head?.all (!isIdentifierPart ·)) :
    m.print.toList.head?.all isBreak := by
  obtain ⟨n, kind, space, taken, rest, hspace, hne, hlexeme, rfl, -⟩ := exists_of_lexFrom_cons h
  obtain ⟨c, t, rfl⟩ := List.exists_cons_of_ne_nil hne
  have happend := takeSpace_append s s
  have hhead := takeSpace_head s s
  rw [hspace] at happend hhead
  cases space with
  | cons d space => simpa [Lexeme.print] using hhead
  | nil =>
    rw [← happend] at hs
    have hc : isBreak c := by
      rcases lexeme_head hlexeme with hpart | hbreak
      · simp [hpart] at hs
      · exact hbreak
    simpa [Lexeme.print] using hc

theorem separated_of_lexFrom {n : Nat} {before s : List Char} {ls : List Lexeme} {close : Space}
    (h : lexFrom n before s = some (ls, close)) (hbefore : before.getLast?.all isBreak) :
    Separated ls := by
  induction ls generalizing n before s with
  | nil => exact ⟨nofun, .nil⟩
  | cons l ls ih =>
    obtain ⟨n, kind, space, taken, rest, hspace, hne, hlexeme, rfl, hmore⟩ :=
      exists_of_lexFrom_cons h
    have hlast := takeSpace_last (Nat.le_refl s.length) (by rw [hspace]; simp [hne])
    rw [hspace] at hlast
    have hrest := ih hmore rfl
    refine ⟨List.forall_mem_cons.mpr ⟨?_, hrest.bounded⟩, ?_⟩
    · exact bounded_of_lexeme (all_getLast?_append (fun _ => hbefore) hlast) hne hlexeme
    · refine List.isChain_cons.mpr ⟨fun m hm hword => ?_, hrest.ends⟩
      cases ls with
      | nil => cases hm
      | cons m' ls =>
        cases hm
        cases hword
        obtain ⟨_, heq, -, hend⟩ := lexeme_word hlexeme
        exact head_of_lexFrom hmore hend

theorem separated_of_lex {source : String} {ls : List Lexeme} {close : Space}
    (h : lex source = some (ls, close)) : Separated ls := by
  unfold lex at h
  split at h
  · refine separated_of_lexFrom h ?_
    rw [List.getLast?_singleton, Option.all_some]
    exact isBreak_byteOrderMark
  · exact separated_of_lexFrom h rfl

/-! ## Words among lexemes -/

/-- The word is one of the lexemes, and neither a number nor `@interface` stands directly in front
of it. -/
def HasWord (w : String) (ls : List Lexeme) : Prop :=
  ∃ front l back, ls = front ++ l :: back ∧ l.kind = .word ∧ l.text = w ∧
    (l.lead = .empty → ∀ p ∈ front.getLast?, p.kind ≠ .number ∧ p.text ≠ "@interface")

/-- Goes through the lexemes, of which `before` is the one in front. -/
def hasWordFrom (w : String) (before : Option Lexeme) : List Lexeme → Bool
  | [] => false
  | l :: ls =>
    l.kind == .word && l.text == w &&
        (l.lead != .empty || before.all fun p => p.kind != .number && p.text != "@interface") ||
      hasWordFrom w (some l) ls

theorem hasWordFrom_iff {w : String} {before : Option Lexeme} {ls : List Lexeme} :
    hasWordFrom w before ls ↔ ∃ front l back, ls = front ++ l :: back ∧ l.kind = .word ∧
      l.text = w ∧ (l.lead = .empty →
        ∀ p ∈ front.getLast?.or before, p.kind ≠ .number ∧ p.text ≠ "@interface") := by
  induction ls generalizing before with
  | nil => simp [hasWordFrom]
  | cons m ls ih =>
    have hlast : ∀ front : List Lexeme,
        (m :: front).getLast?.or before = front.getLast?.or (some m) := by
      intro front
      rw [List.getLast?_cons]
      cases front.getLast? <;> rfl
    rw [hasWordFrom, Bool.or_eq_true, ih]
    simp only [Bool.and_eq_true, beq_iff_eq, Bool.or_eq_true, bne_iff_ne, Option.all_eq_true]
    constructor
    · rintro (⟨⟨hkind, htext⟩, hbefore⟩ | ⟨front, l, back, rfl, hkind, htext, hfront⟩)
      · exact ⟨[], m, ls, rfl, hkind, htext, fun hlead => hbefore.resolve_left (absurd hlead)⟩
      · exact ⟨m :: front, l, back, rfl, hkind, htext, hlast front ▸ hfront⟩
    · rintro ⟨front, l, back, heq, hkind, htext, hfront⟩
      cases front with
      | nil =>
        cases heq
        exact .inl ⟨⟨hkind, htext⟩, not_or_of_imp hfront⟩
      | cons f front =>
        cases heq
        exact .inr ⟨front, l, back, rfl, hkind, htext, hlast front ▸ hfront⟩

instance (w : String) (ls : List Lexeme) : Decidable (HasWord w ls) :=
  decidable_of_iff (hasWordFrom w none ls) (by simp only [hasWordFrom_iff, Option.or_none]; rfl)

theorem not_hasWord_nil {w : String} : ¬ HasWord w [] := by
  rintro ⟨front, l, back, heq, -⟩
  cases front <;> cases heq

namespace HasWord

variable {w : String} {ls ms : List Lexeme}

/-- Where a text is cut, a word is on one side. -/
theorem of_append (h : HasWord w (ls ++ ms)) : HasWord w ls ∨ HasWord w ms := by
  obtain ⟨front, l, back, heq, hkind, htext, hfront⟩ := h
  rcases List.append_eq_append_iff.mp heq with ⟨inner, rfl, rfl⟩ | ⟨inner, rfl, hback⟩
  · refine .inr ⟨inner, l, back, rfl, hkind, htext, fun hlead p hp => hfront hlead p ?_⟩
    rw [List.getLast?_append, hp]
    rfl
  · cases inner with
    | nil => exact .inr ⟨[], l, back, hback.symm, hkind, htext, fun _ => nofun⟩
    | cons m inner =>
      cases hback
      exact .inl ⟨front, l, inner, rfl, hkind, htext, hfront⟩

theorem append (h : HasWord w ls) (ms : List Lexeme) : HasWord w (ls ++ ms) := by
  obtain ⟨front, l, back, rfl, hkind, htext, hfront⟩ := h
  exact ⟨front, l, back ++ ms, by rw [List.append_assoc, List.cons_append], hkind, htext, hfront⟩

theorem leadWith_empty (h : HasWord w ls) : HasWord w (leadWith .empty ls) := by
  obtain ⟨front, l, back, rfl, hkind, htext, hfront⟩ := h
  cases front with
  | nil => exact ⟨[], { l with lead := .empty }, back, rfl, hkind, htext, fun _ => nofun⟩
  | cons f front =>
    refine ⟨{ f with lead := .empty } :: front, l, back, rfl, hkind, htext, fun hlead p hp => ?_⟩
    cases front with
    | nil =>
      cases hp
      exact hfront hlead f rfl
    | cons g front => exact hfront hlead p (by rwa [List.getLast?_cons_cons] at hp ⊢)

theorem of_singleton {l : Lexeme} (h : HasWord w [l]) : l.kind = .word ∧ l.text = w := by
  obtain ⟨front, m, back, heq, hkind, htext, -⟩ := h
  obtain ⟨rfl, rfl, rfl⟩ : front = [] ∧ m = l ∧ back = [] := by
    cases front with
    | nil => simpa [eq_comm] using heq
    | cons f front => simp at heq
  exact ⟨hkind, htext⟩

end HasWord

theorem isIdentifierPart_of_isIdentifier {w : List Char} (h : isIdentifier w) :
    ∀ c ∈ w, isIdentifierPart c := by
  cases w with
  | nil => exact nofun
  | cons d r =>
    obtain ⟨hd, hr⟩ := isIdentifier_cons_iff.mp h
    exact List.forall_mem_cons.mpr ⟨isIdentifierPart_of_isIdentifierStart hd, hr⟩

/-- No two words stand directly one behind the other. -/
theorem Lexeme.Ends.not_word {l m : Lexeme} (h : l.Ends m) (hm : m.Bounded) (hkind : m.kind = .word)
    (hlead : m.lead = .empty) : l.kind ≠ .word := by
  intro hl
  have hbreak := h hl
  have hword := hm.word hkind
  cases hchars : m.text.toList with
  | nil => exact hm.ne_nil hchars
  | cons c r =>
    rw [hchars] at hword
    have hpart := isIdentifierPart_of_isIdentifier hword c List.mem_cons_self
    rw [Lexeme.print, hlead, Space.text_empty, String.empty_append, hchars] at hbreak
    rw [(isBreak_iff.mp hbreak).2] at hpart
    cases hpart

/-- What stands in front of a word ends with a break. -/
theorem isBreak_before {front back : List Lexeme} {l : Lexeme}
    (hls : Separated (front ++ l :: back)) (hkind : l.kind = .word)
    (hfront : l.lead = .empty → ∀ p ∈ front.getLast?, p.kind ≠ .number ∧ p.text ≠ "@interface") :
    ((printLexemes front).toList ++ l.lead.text.toList).getLast?.all isBreak := by
  have hl : l.Bounded := hls.bounded l (by simp)
  refine all_getLast?_append (fun hnone => ?_) hl.lead
  have hlead : l.lead = .empty := congrArg Space.mk (String.toList_eq_nil_iff.mp hnone)
  rcases List.eq_nil_or_concat front with rfl | ⟨init, p, rfl⟩
  · rfl
  · rw [List.concat_eq_append] at hls hfront ⊢
    have hp : p.Bounded := hls.bounded p (by simp)
    have hends : p.Ends l := by
      have hchain := hls.ends
      rw [List.append_assoc] at hchain
      exact (List.isChain_cons_cons.mp (List.IsChain.right_of_append hchain)).1
    obtain ⟨hnumber, hmark⟩ := hfront hlead p List.getLast?_concat
    have hlast := hp.last (hends.not_word hl hkind hlead) hnumber hmark
    rw [printLexemes_append, printLexemes_cons, printLexemes_nil]
    simp only [String.toList_append, String.toList_empty, List.append_nil]
    exact all_getLast?_append (fun hnil => absurd hnil (by simp [hp.ne_nil]))
      (all_getLast?_append (fun hnil => absurd hnil hp.ne_nil) hlast)

/-- Behind a word no name goes on. -/
theorem isNameChar_behind {l : Lexeme} {back : List Lexeme} (hls : Separated (l :: back))
    (hkind : l.kind = .word) : (printLexemes back).toList.head?.any isNameChar = false := by
  cases back with
  | nil => rfl
  | cons m back =>
    have hbreak := (List.isChain_cons_cons.mp hls.ends).1 hkind
    have htext := (hls.bounded m (by simp)).ne_nil
    cases hchars : m.print.toList with
    | nil => simp [Lexeme.print, htext] at hchars
    | cons c r =>
      rw [hchars] at hbreak
      have hprint : printLexemes (m :: back) = m.print ++ printLexemes back := by
        rw [printLexemes_cons]; rfl
      rw [hprint, String.toList_append, hchars]
      exact (isBreak_iff.mp hbreak).1

/-- A word among the lexemes of a source is one in their text. -/
theorem containsWord_printLexemes {w : String} {ls : List Lexeme} (hls : Separated ls)
    (h : HasWord w ls) : containsWord (printLexemes ls) w := by
  obtain ⟨front, l, back, rfl, hkind, rfl, hfront⟩ := h
  have hl : l.Bounded := hls.bounded l (by simp)
  have hsplit : (printLexemes (front ++ l :: back)).toList =
      ((printLexemes front).toList ++ l.lead.text.toList) ++
        (l.text.toList ++ (printLexemes back).toList) := by
    rw [printLexemes_append, printLexemes_cons]
    simp
  have hfound := wordFrom_between hl.ne_nil (isIdentifierPart_of_isIdentifier (hl.word hkind))
    (isBreak_before hls hkind hfront)
    (isNameChar_behind (hls.within (List.suffix_append front _).isInfix) hkind)
  unfold containsWord
  rw [hsplit, hfound, Bool.and_true]
  simpa [String.isEmpty_iff] using hl.ne_nil

theorem containsWord_printSyntax {w : String} {cs : List Syntax} (hls : Separated (lexemesOf cs))
    (h : HasWord w (lexemesOf cs)) : containsWord (printSyntax cs) w :=
  containsWord_printLexemes hls h

theorem containsWord_textOf {w : String} {cs : List Syntax} (hls : Separated (lexemesOf cs))
    (h : HasWord w (lexemesOf cs)) : containsWord (textOf cs) w := by
  rw [textOf_eq]
  exact containsWord_printLexemes hls.leadWith_empty h.leadWith_empty

end JavaMigration.Java
