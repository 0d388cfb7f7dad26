import JavaMigration.Proofs.Java.Boundaries
import JavaMigration.Proofs.Text.Pieces

/-!
# Resolving a written type

A class type is written as names with dots between them, each with type arguments or without, and
array dimensions or varargs behind them. It has one array level for every dimension and one for
varargs, whatever its arguments are. The name that is resolved ends with the first one that has
arguments: so arguments are as good as not there if they are at the last name, and at another one
only if the type does not resolve at all (`resolve_print_iff`).
-/

namespace JavaMigration.Text

open CharRange

/-! ## Blanks -/

set_option maxRecDepth 100000 in
theorem blanks_in_no_identifier :
    ∀ n ∈ blanks, 128 ≤ n → ([alphabetic, plainMark, decimalDigit, identifierOnly].all fun table =>
      !table.toList.any fun r => r.1 ≤ n && n ≤ r.2) = true ∧
        n ∉ [0x203F, 0x2040, 0x2054, 0xFE33, 0xFE34, 0xFE4D, 0xFE4E, 0xFE4F, 0xFF3F, 0x200C, 0x200D,
          0xA2] := by decide +kernel

theorem isIdentifierPart_of_isBlank {c : Char} (h : isBlank c) : isIdentifierPart c = false := by
  have hmem := mem_blanks h
  by_cases hascii : c.toNat < 128
  · have hsmall : ∀ n ∈ blanks, n < 128 → isIdentifierPart (Char.ofNat n) = false := by decide
    rw [← Char.ofNat_toNat c]
    exact hsmall _ hmem hascii
  · obtain ⟨htables, hpoints⟩ := blanks_in_no_identifier _ hmem (Nat.le_of_not_lt hascii)
    simp only [List.all_cons, List.all_nil, Bool.and_true, Bool.and_eq_true, Bool.not_eq_true',
      ← covers_eq] at htables
    simp only [List.mem_cons, List.not_mem_nil, or_false, not_or] at hpoints
    unfold isIdentifierPart isWordChar
    rw [if_neg hascii, if_neg hascii]
    dsimp only
    rw [htables.1, htables.2.1, htables.2.2.1, htables.2.2.2]
    have hconnector : (decide (0xFE4D ≤ c.toNat) && decide (c.toNat ≤ 0xFE4F)) = false := by
      simp only [Bool.and_eq_false_iff, decide_eq_false_iff_not]
      omega
    simp [hpoints, hconnector]

/-! ## Trimming -/

section Trimming

variable {front s back : List Char} (hfront : ∀ c ∈ front, isBlank c) (hback : ∀ c ∈ back, isBlank c)
  (hfirst : s.head?.all (!isBlank ·)) (hlast : s.getLast?.all (!isBlank ·))

theorem dropWhile_of_head? (h : s.head?.all (!isBlank ·)) : s.dropWhile isBlank = s := by
  cases s with
  | nil => rfl
  | cons c s => exact List.dropWhile_cons_of_neg (by simpa using h)

include hlast hback in
theorem trimEnd_append : trimEnd (String.ofList (s ++ back)) = String.ofList s := by
  have hreverse : ∀ c ∈ back.reverse, isBlank c := fun c hc => hback c (List.mem_reverse.mp hc)
  rw [← List.head?_reverse] at hlast
  rw [trimEnd, dropWhileEnd, String.toList_ofList, List.reverse_append,
    List.dropWhile_append_of_pos hreverse, dropWhile_of_head? hlast, List.reverse_reverse]

include hfront hback hfirst hlast in
theorem trim_append (hne : s ≠ []) :
    trim (String.ofList (front ++ (s ++ back))) = String.ofList s := by
  obtain ⟨c, r, rfl⟩ := List.exists_cons_of_ne_nil hne
  have hfirst' : (c :: r ++ back).head?.all (!isBlank ·) := hfirst
  rw [trim, dropWhileStart, String.toList_ofList, List.dropWhile_append_of_pos hfront,
    dropWhile_of_head? hfirst']
  exact trimEnd_append hback hlast

end Trimming

end JavaMigration.Text

namespace JavaMigration.Java

open Text

/-! ## Names -/

/-- A name as it is looked up: no blank and no bracket is in it, and no dot at its end. -/
structure IsBareName (s : List Char) : Prop where
  ne_nil : s ≠ []
  plain : ∀ c ∈ s, isBlank c = false ∧ c ∉ ['<', '>', '[']
  last : s.getLast? ≠ some '.'

theorem isBlank_bracket {c : Char} (h : c ∈ ['<', '>', '[']) : isBlank c = false :=
  (Bool.not_eq_true' _).mp
    (List.all_eq_true.mp (by decide : ['<', '>', '['].all (!isBlank ·) = true) c h)

theorem plain_of_isIdentifier {w : List Char} (h : isIdentifier w) :
    ∀ c ∈ w, isBlank c = false ∧ c ∉ ['<', '>', '[', '.'] := by
  intro c hc
  have hpart := isIdentifierPart_of_isIdentifier h c hc
  have hmarks : ['<', '>', '[', '.'].all (!isIdentifierPart ·) = true := by decide
  constructor
  · rw [← Bool.not_eq_true]
    intro hblank
    rw [isIdentifierPart_of_isBlank hblank] at hpart
    cases hpart
  · intro hmark
    have hnone := List.all_eq_true.mp hmarks c hmark
    rw [hpart] at hnone
    cases hnone

theorem mem_dotted {ps : List (List Char)} {c : Char} (h : c ∈ dotted ps) :
    c = '.' ∨ ∃ p ∈ ps, c ∈ p := by
  cases ps with
  | nil => cases h
  | cons p ps =>
    rcases List.mem_append.mp h with h | h
    · exact .inr ⟨p, List.mem_cons_self, h⟩
    · obtain ⟨q, hq, h⟩ := List.mem_flatMap.mp h
      exact (List.mem_cons.mp h).imp_right fun h => ⟨q, List.mem_cons_of_mem p hq, h⟩

theorem exists_dotted_concat (ps : List (List Char)) (q : List Char) :
    ∃ front, dotted (ps ++ [q]) = front ++ q := by
  cases ps with
  | nil => exact ⟨[], List.append_nil q⟩
  | cons p ps =>
    refine ⟨p ++ ps.flatMap ('.' :: ·) ++ ['.'], ?_⟩
    rw [List.cons_append, dotted, List.flatMap_append, List.flatMap_singleton]
    simp only [List.append_assoc, List.singleton_append]

/-- Identifiers with dots between them are a name. -/
theorem isBareName_dotted {ps : List (List Char)} (hne : ps ≠ []) (h : ∀ p ∈ ps, isIdentifier p) :
    IsBareName (dotted ps) := by
  obtain ⟨front, q, rfl⟩ := (List.eq_nil_or_concat' ps).resolve_left hne
  have hq : isIdentifier q := h q (by simp)
  have hqne : q ≠ [] := by rintro rfl; cases hq
  obtain ⟨start, hdotted⟩ := exists_dotted_concat front q
  refine ⟨?_, fun c hc => ?_, ?_⟩
  · rw [hdotted]
    exact List.append_ne_nil_of_right_ne_nil start hqne
  · rcases mem_dotted hc with rfl | ⟨p, hp, hc⟩
    · decide
    · obtain ⟨hblank, hmark⟩ := plain_of_isIdentifier (h p hp) c hc
      exact ⟨hblank, fun hmem => hmark (List.mem_append_left ['.'] hmem)⟩
  · rw [hdotted, List.getLast?_append_of_ne_nil _ hqne]
    intro hlast
    exact (plain_of_isIdentifier hq '.' (List.mem_of_getLast? hlast)).2 (by decide)

/-! ## Erasing -/

theorem dropDots_of_head? {s : List Char} (h : s.head? ≠ some '.') : dropDots s = s := by
  unfold dropDots
  split
  · exact (h rfl).elim
  · rfl

namespace IsBareName

variable {name : List Char} (h : IsBareName name)

include h

theorem head?_all : name.head?.all (!isBlank ·) := by
  cases name with
  | nil => rfl
  | cons c r => simp [(h.plain c List.mem_cons_self).1]

theorem getLast?_all : name.getLast?.all (!isBlank ·) := by
  cases hlast : name.getLast? with
  | none => rfl
  | some c => simp [(h.plain c (List.mem_of_getLast? hlast)).1]

/-- Blanks around a name are trimmed, and the name is left. -/
theorem trim_eq {before gap : List Char} (hbefore : ∀ c ∈ before, isBlank c)
    (hgap : ∀ c ∈ gap, isBlank c) :
    trim (String.ofList (before ++ (name ++ gap))) = String.ofList name :=
  trim_append hbefore hgap h.head?_all h.getLast?_all h.ne_nil

/-- Cutting a text at brackets keeps a name with blanks around it, and what follows them in front of
the brackets. -/
theorem before_eq {before gap : List Char} (hbefore : ∀ c ∈ before, isBlank c)
    (hgap : ∀ c ∈ gap, isBlank c) {sep : Char} (hsep : sep ∈ ['<', '[']) (rest : List Char) :
    Text.before sep (String.ofList (before ++ (name ++ (gap ++ rest)))) =
      String.ofList (before ++ (name ++ (gap ++ rest.takeWhile (· != sep)))) := by
  have hmark : sep ∈ ['<', '>', '['] := by
    simp only [List.mem_cons, List.not_mem_nil, or_false] at hsep ⊢
    tauto
  have hblank : ∀ c, isBlank c → (c != sep) = true := fun c hc => bne_iff_ne.mpr fun heq => by
    rw [heq, isBlank_bracket hmark] at hc
    cases hc
  have hname : ∀ c ∈ name, (c != sep) = true := fun c hc => bne_iff_ne.mpr fun heq =>
    (h.plain c hc).2 (heq ▸ hmark)
  rw [Text.before, String.toList_ofList,
    List.takeWhile_append_of_pos fun c hc => hblank c (hbefore c hc),
    List.takeWhile_append_of_pos hname,
    List.takeWhile_append_of_pos fun c hc => hblank c (hgap c hc)]

/-- Behind a name the dots of varargs are dropped, with blanks around them. -/
theorem trim_dropDots {gap dots : List Char} (hgap : ∀ c ∈ gap, isBlank c)
    (hdots : dots = [] ∨ dots = ['.', '.', '.']) :
    trim (String.ofList (dropDots (name ++ (gap ++ dots)).reverse).reverse) =
      String.ofList name := by
  have hlast : (name ++ gap).reverse.head? ≠ some '.' := by
    rw [List.head?_reverse, List.getLast?_append]
    cases hg : gap.getLast? with
    | none => exact h.last
    | some c =>
      intro hc
      obtain rfl := Option.some.inj hc
      exact absurd (hgap '.' (List.mem_of_getLast? hg)) (by decide)
  have hdropped : dropDots (name ++ (gap ++ dots)).reverse = (name ++ gap).reverse := by
    rw [← List.append_assoc, List.reverse_append]
    rcases hdots with rfl | rfl
    · exact dropDots_of_head? hlast
    · exact dropDots_of_head? hlast
  rw [hdropped, List.reverse_reverse, ← List.nil_append (name ++ gap)]
  exact h.trim_eq (List.forall_mem_nil _) hgap

/-- A name with blanks around it, in front of nothing, type arguments, dimensions or varargs, is
what is left of them. -/
theorem erase_eq {before gap rest : List Char} (hbefore : ∀ c ∈ before, isBlank c)
    (hgap : ∀ c ∈ gap, isBlank c)
    (hrest : rest = [] ∨ rest.head? = some '<' ∨ rest.head? = some '[' ∨
      ∃ behind, (∀ c ∈ behind, isBlank c) ∧ rest = '.' :: '.' :: '.' :: behind) :
    erase (String.ofList (before ++ (name ++ (gap ++ rest)))) = String.ofList name := by
  -- what is in front of the brackets ends with the name or with the dots of varargs
  obtain ⟨dots, behind, hdots, hbehind, hcut⟩ : ∃ dots behind,
      (dots = [] ∨ dots = ['.', '.', '.']) ∧ (∀ c ∈ behind, isBlank c) ∧
        (rest.takeWhile (· != '<')).takeWhile (· != '[') = dots ++ behind := by
    rcases hrest with rfl | hangle | hbracket | ⟨behind, hbehind, rfl⟩
    · exact ⟨[], [], .inl rfl, nofun, rfl⟩
    · cases rest <;> cases hangle
      exact ⟨[], [], .inl rfl, nofun, rfl⟩
    · cases rest <;> cases hbracket
      exact ⟨[], [], .inl rfl, nofun, rfl⟩
    · refine ⟨['.', '.', '.'], behind, .inr rfl, hbehind, ?_⟩
      have hself : ∀ sep, isBlank sep = false → sep ≠ '.' →
          ('.' :: '.' :: '.' :: behind).takeWhile (· != sep) = '.' :: '.' :: '.' :: behind := by
        intro sep hsep hdot
        refine List.takeWhile_eq_self_iff.mpr fun c hc => bne_iff_ne.mpr ?_
        rintro rfl
        simp only [List.mem_cons, hdot, false_or] at hc
        rw [hbehind c hc] at hsep
        cases hsep
      rw [hself '<' (by decide) (by decide), hself '[' (by decide) (by decide)]
      rfl
  unfold erase
  rw [h.before_eq hbefore hgap (by decide), h.before_eq hbefore hgap (by decide), hcut]
  dsimp only
  rcases hdots with rfl | rfl
  · have hblank : ∀ c ∈ gap ++ behind, isBlank c := List.forall_mem_append.mpr ⟨hgap, hbehind⟩
    have hdropped := h.trim_dropDots (List.forall_mem_nil (isBlank ·)) (.inl rfl)
    rw [List.append_nil, List.append_nil] at hdropped
    rw [List.nil_append, h.trim_eq hbefore hblank, String.toList_ofList, hdropped]
  · have hshown : trim (String.ofList
        (before ++ (name ++ (gap ++ (['.', '.', '.'] ++ behind))))) =
        String.ofList (name ++ (gap ++ ['.', '.', '.'])) := by
      rw [← List.append_assoc gap, ← List.append_assoc name]
      refine trim_append hbefore hbehind ?_ ?_ (List.append_ne_nil_of_left_ne_nil h.ne_nil _)
      · rw [List.head?_append_of_ne_nil _ h.ne_nil]
        exact h.head?_all
      · rw [← List.append_assoc, List.getLast?_append_of_ne_nil _ (List.cons_ne_nil _ _)]
        decide
    rw [hshown, String.toList_ofList]
    exact h.trim_dropDots hgap (.inr rfl)

/-- A name alone is left as it is. -/
theorem erase_self : erase (String.ofList name) = String.ofList name := by
  have herase := h.erase_eq (List.forall_mem_nil (isBlank ·)) (List.forall_mem_nil (isBlank ·))
    (.inl rfl)
  rwa [List.nil_append, List.nil_append, List.append_nil] at herase

end IsBareName

/-! ## Written types -/

/-- Whether every `<` is closed by a `>` and every `>` closes one; `depth` of them are open. -/
def closesAll : Nat → List Char → Bool
  | depth, [] => depth == 0
  | depth, c :: r =>
    if c = '<' then closesAll (depth + 1) r
    else if c = '>' then depth != 0 && closesAll (depth - 1) r
    else closesAll depth r

abbrev Blanks := { s : List Char // ∀ c ∈ s, isBlank c }

/-- Type arguments without the brackets around them: any text whose own brackets match, as those of
types do. -/
structure TypeArguments where
  gap : Blanks
  text : List Char
  closed : closesAll 0 text

/-- One of the names between the dots. -/
structure NamePart where
  name : List Char
  isName : isIdentifier name
  arguments : Option TypeArguments

/-- A class type: dotted names with or without arguments, and the dimensions, or varargs, behind
them. Blanks may stand between its parts, but not around dots. -/
structure ClassType where
  before : Blanks
  parts : List NamePart
  parts_ne_nil : parts ≠ []
  /-- The blanks in front of and within each pair of brackets. -/
  dims : List (Blanks × Blanks)
  varargs : Option Blanks
  behind : Blanks

def TypeArguments.print (a : TypeArguments) : List Char := a.gap.1 ++ '<' :: (a.text ++ ['>'])

def NamePart.print (p : NamePart) : List Char :=
  p.name ++ (p.arguments.map TypeArguments.print).getD []

namespace ClassType

def printDim (d : Blanks × Blanks) : List Char := d.1.1 ++ '[' :: (d.2.1 ++ [']'])

def printVarargs : Option Blanks → List Char
  | some gap => gap.1 ++ ['.', '.', '.']
  | none => []

def print (t : ClassType) : String :=
  String.ofList (t.before.1 ++ (dotted (t.parts.map NamePart.print) ++
    (t.dims.flatMap printDim ++ (printVarargs t.varargs ++ t.behind.1))))

/-- The dotted name without any type arguments. -/
def name (t : ClassType) : String := String.ofList (dotted (t.parts.map NamePart.name))

/-- The dimensions outside type arguments, and one level for varargs. -/
def levels (t : ClassType) : Nat := t.dims.length + if t.varargs.isSome then 1 else 0

/-- Only the last name may have arguments. -/
def ArgumentsLast (t : ClassType) : Prop := ∀ p ∈ t.parts.dropLast, p.arguments = none

end ClassType

/-! ## Counting dimensions -/

theorem bracketsFrom_of_plain {s : List Char} (h : ∀ c ∈ s, c ∉ ['<', '>', '[']) (depth : Nat)
    (rest : List Char) : bracketsFrom depth (s ++ rest) = bracketsFrom depth rest := by
  induction s with
  | nil => rfl
  | cons c s ih =>
    obtain ⟨hc, hs⟩ := List.forall_mem_cons.mp h
    simp only [List.mem_cons, List.not_mem_nil, or_false, not_or] at hc
    simp [bracketsFrom, hc, ih hs]

theorem bracketsFrom_of_blank {s : List Char} (h : ∀ c ∈ s, isBlank c) (depth : Nat)
    (rest : List Char) : bracketsFrom depth (s ++ rest) = bracketsFrom depth rest := by
  refine bracketsFrom_of_plain (fun c hc hmark => ?_) depth rest
  exact absurd (h c hc) (by rw [isBlank_bracket hmark]; exact Bool.false_ne_true)

/-- Within arguments nothing is counted, and they end at the depth at which they began. -/
theorem bracketsFrom_of_closesAll {n : Nat} {s : List Char} (h : closesAll n s) (depth : Nat)
    (rest : List Char) :
    bracketsFrom (n + (depth + 1)) (s ++ rest) = bracketsFrom (depth + 1) rest := by
  induction s generalizing n with
  | nil =>
    have hn : n = 0 := beq_iff_eq.mp h
    rw [hn, Nat.zero_add, List.nil_append]
  | cons c s ih =>
    rw [closesAll] at h
    rw [List.cons_append, bracketsFrom]
    split at h
    · rw [if_pos ‹_›, ← ih h]
      congr 1
      omega
    · rw [if_neg ‹_›]
      split at h
      · rw [Bool.and_eq_true, bne_iff_ne] at h
        rw [if_pos ‹_›, ← ih h.2]
        congr 1
        omega
      · rw [if_neg ‹_›, if_neg (by simp), ih h]

theorem bracketsFrom_part (p : NamePart) (rest : List Char) :
    bracketsFrom 0 (p.print ++ rest) = bracketsFrom 0 rest := by
  have hname : ∀ c ∈ p.name, c ∉ ['<', '>', '['] := fun c hc hmark =>
    (plain_of_isIdentifier p.isName c hc).2 (List.mem_append_left ['.'] hmark)
  rw [NamePart.print, List.append_assoc, bracketsFrom_of_plain hname]
  cases p.arguments with
  | none => rfl
  | some a =>
    show bracketsFrom 0 (a.print ++ rest) = _
    rw [TypeArguments.print, List.append_assoc, bracketsFrom_of_blank a.gap.2, List.cons_append,
      List.append_assoc, bracketsFrom, if_pos rfl]
    have hclosed := bracketsFrom_of_closesAll a.closed 0 ('>' :: rest)
    rw [Nat.zero_add] at hclosed
    exact hclosed

theorem bracketsFrom_parts (parts : List NamePart) (rest : List Char) :
    bracketsFrom 0 (dotted (parts.map NamePart.print) ++ rest) = bracketsFrom 0 rest := by
  have hbehind : ∀ parts : List NamePart,
      bracketsFrom 0 ((parts.map NamePart.print).flatMap ('.' :: ·) ++ rest) =
        bracketsFrom 0 rest := by
    intro parts
    induction parts with
    | nil => rfl
    | cons p parts ih =>
      rw [List.map_cons, List.flatMap_cons, List.append_assoc, List.cons_append, bracketsFrom,
        if_neg (by decide), if_neg (by decide), if_neg (by decide), bracketsFrom_part, ih]
  cases parts with
  | nil => rfl
  | cons p parts =>
    rw [List.map_cons, dotted, List.append_assoc, bracketsFrom_part, hbehind]

theorem bracketsFrom_dims (dims : List (Blanks × Blanks)) (rest : List Char) :
    bracketsFrom 0 (dims.flatMap ClassType.printDim ++ rest) =
      dims.length + bracketsFrom 0 rest := by
  induction dims with
  | nil => rw [List.length_nil, Nat.zero_add]; rfl
  | cons d dims ih =>
    rw [List.flatMap_cons, ClassType.printDim, List.append_assoc, List.append_assoc,
      bracketsFrom_of_blank d.1.2, List.cons_append, bracketsFrom, if_neg (by decide),
      if_neg (by decide), if_pos (by decide), List.append_assoc, bracketsFrom_of_blank d.2.2,
      List.cons_append, List.nil_append, bracketsFrom, if_neg (by decide), if_neg (by decide),
      if_neg (by decide), ih, List.length_cons]
    omega

theorem endsWith_dots {s : List Char} (h : s.getLast? ≠ some '.') :
    endsWith (String.ofList s) "..." = false := by
  rw [endsWith, @String.toList_ofList s, ← Bool.not_eq_true, List.isSuffixOf_iff_suffix]
  rintro ⟨front, rfl⟩
  rw [List.getLast?_append_of_ne_nil _ (by decide)] at h
  exact h rfl

theorem IsBareName.dimensions_eq {name : List Char} (h : IsBareName name) :
    dimensions (String.ofList name) = 0 := by
  have hcount := bracketsFrom_of_plain (fun c hc => (h.plain c hc).2) 0 []
  have htrim := trimEnd_append (List.forall_mem_nil (isBlank ·)) h.getLast?_all
  rw [List.append_nil] at hcount htrim
  rw [dimensions, String.toList_ofList, hcount, htrim, endsWith_dots h.last]
  rfl

/-- A bare name is resolved as it is written. -/
theorem IsBareName.resolve_eq {name : List Char} (h : IsBareName name) (r : Resolver) :
    r.resolve (String.ofList name) = r.resolveName (String.ofList name) := by
  rw [Resolver.resolve, h.erase_self, h.dimensions_eq]
  cases r.resolveName _ <;> rfl

/-- The last character of the text is neither a blank nor a dot. -/
def EndsPlainly (s : List Char) : Prop := ∃ c ∈ s.getLast?, isBlank c = false ∧ c ≠ '.'

theorem EndsPlainly.append {s : List Char} (front : List Char) (h : EndsPlainly s) :
    EndsPlainly (front ++ s) := by
  obtain ⟨c, hc, hstop⟩ := h
  refine ⟨c, ?_, hstop⟩
  rw [List.getLast?_append, Option.mem_def.mp hc]
  rfl

theorem endsPlainly_concat {c : Char} (front : List Char) (hblank : isBlank c = false)
    (hdot : c ≠ '.') : EndsPlainly (front ++ [c]) := ⟨c, by simp, hblank, hdot⟩

theorem endsPlainly_identifier {w : List Char} (h : isIdentifier w) : EndsPlainly w := by
  have hne : w ≠ [] := by rintro rfl; cases h
  obtain ⟨hblank, hmark⟩ := plain_of_isIdentifier h _ (List.getLast_mem hne)
  exact ⟨w.getLast hne, List.getLast?_eq_some_getLast hne, hblank,
    fun hdot => hmark (by rw [hdot]; decide)⟩

theorem NamePart.endsPlainly_print (p : NamePart) : EndsPlainly p.print := by
  rw [NamePart.print]
  cases p.arguments with
  | none =>
    rw [Option.map_none, Option.getD_none, List.append_nil]
    exact endsPlainly_identifier p.isName
  | some a =>
    refine EndsPlainly.append _ ?_
    show EndsPlainly (a.gap.1 ++ ('<' :: a.text ++ ['>']))
    exact (endsPlainly_concat _ (by decide) (by decide)).append _

namespace ClassType

variable (t : ClassType)

theorem endsPlainly_parts : EndsPlainly (dotted (t.parts.map NamePart.print)) := by
  obtain ⟨init, p, hparts⟩ := (List.eq_nil_or_concat' t.parts).resolve_left t.parts_ne_nil
  obtain ⟨front, hdotted⟩ := exists_dotted_concat (init.map NamePart.print) p.print
  rw [hparts, List.map_append, List.map_singleton, hdotted]
  exact p.endsPlainly_print.append front

theorem endsPlainly_dims :
    EndsPlainly (dotted (t.parts.map NamePart.print) ++ t.dims.flatMap printDim) := by
  rcases List.eq_nil_or_concat' t.dims with hdims | ⟨init, d, hdims⟩
  · rw [hdims, List.flatMap_nil, List.append_nil]
    exact t.endsPlainly_parts
  · rw [hdims, List.flatMap_append, List.flatMap_singleton]
    refine EndsPlainly.append _ (EndsPlainly.append _ ?_)
    show EndsPlainly (d.1.1 ++ ('[' :: d.2.1 ++ [']']))
    exact (endsPlainly_concat _ (by decide) (by decide)).append _

theorem endsWith_print : endsWith (trimEnd t.print) "..." = t.varargs.isSome := by
  obtain ⟨shown, hshown⟩ : ∃ shown, shown =
      t.before.1 ++ (dotted (t.parts.map NamePart.print) ++ t.dims.flatMap printDim) := ⟨_, rfl⟩
  have hprint : t.print = String.ofList (shown ++ printVarargs t.varargs ++ t.behind.1) := by
    rw [print, hshown]
    simp only [List.append_assoc]
  rw [hprint]
  cases t.varargs with
  | none =>
    obtain ⟨c, hc, hblank, hdot⟩ : EndsPlainly shown := hshown ▸ t.endsPlainly_dims.append _
    have hlast : shown.getLast?.all (!isBlank ·) := by rw [hc, Option.all_some, hblank]; rfl
    rw [printVarargs, List.append_nil, trimEnd_append t.behind.2 hlast]
    exact endsWith_dots fun heq => hdot (Option.some.inj (hc.symm.trans heq))
  | some gap =>
    have hlast : (shown ++ printVarargs (some gap)).getLast? = some '.' := by
      rw [printVarargs, ← List.append_assoc, List.getLast?_append_of_ne_nil _ (by decide)]
      rfl
    rw [trimEnd_append t.behind.2 (by rw [hlast]; decide), endsWith,
      @String.toList_ofList (shown ++ _), Option.isSome_some, List.isSuffixOf_iff_suffix,
      printVarargs, ← List.append_assoc]
    exact List.suffix_append _ _

/-- There is an array level for every dimension outside arguments, and one for varargs. -/
theorem dimensions_print : dimensions t.print = t.levels := by
  have hblank : ∀ c ∈ ['.', '.', '.'], c ∉ ['<', '>', '['] := by simp
  have hcount : bracketsFrom 0 t.print.toList = t.dims.length := by
    rw [print, String.toList_ofList, bracketsFrom_of_blank t.before.2, bracketsFrom_parts,
      bracketsFrom_dims]
    cases t.varargs with
    | none =>
      rw [printVarargs, List.nil_append, ← List.append_nil t.behind.1,
        bracketsFrom_of_blank t.behind.2]
      rfl
    | some gap =>
      rw [printVarargs, List.append_assoc, bracketsFrom_of_blank gap.2, bracketsFrom_of_plain hblank,
        ← List.append_nil t.behind.1, bracketsFrom_of_blank t.behind.2]
      rfl
  rw [dimensions, hcount, t.endsWith_print]
  rfl

end ClassType

/-! ## The name that is read -/

/-- The names up to the first one with arguments. -/
def namesRead : List NamePart → List (List Char)
  | [] => []
  | p :: rest => if p.arguments.isSome then [p.name] else p.name :: namesRead rest

theorem namesRead_ne_nil {parts : List NamePart} (h : parts ≠ []) : namesRead parts ≠ [] := by
  cases parts with
  | nil => exact (h rfl).elim
  | cons p rest =>
    rw [namesRead]
    split <;> exact List.cons_ne_nil _ _

/-- What follows the names that are read: nothing, or the arguments of the last of them. -/
def FollowsNames (tail : List Char) : Prop :=
  tail = [] ∨ ∃ (gap : Blanks) (rest : List Char), tail = gap.1 ++ '<' :: rest

theorem NamePart.print_cases (p : NamePart) (rest : List Char) :
    (p.arguments = none ∧ p.print = p.name) ∨
      (p.arguments.isSome ∧ ∃ tail, p.print ++ rest = p.name ++ tail ∧ FollowsNames tail) := by
  rw [NamePart.print]
  cases p.arguments with
  | none => exact .inl ⟨rfl, List.append_nil p.name⟩
  | some a =>
    refine .inr ⟨rfl, a.print ++ rest, List.append_assoc .., .inr ⟨a.gap, a.text ++ '>' :: rest, ?_⟩⟩
    rw [TypeArguments.print]
    simp only [List.append_assoc, List.cons_append, List.nil_append]

theorem flatMap_dot {ps : List (List Char)} (h : ps ≠ []) :
    ps.flatMap ('.' :: ·) = '.' :: dotted ps := by
  obtain ⟨p, ps, rfl⟩ := List.exists_cons_of_ne_nil h
  rfl

theorem exists_flatMap_print (parts : List NamePart) :
    ∃ tail, (parts.map NamePart.print).flatMap ('.' :: ·) =
      (namesRead parts).flatMap ('.' :: ·) ++ tail ∧ FollowsNames tail := by
  induction parts with
  | nil => exact ⟨[], rfl, .inl rfl⟩
  | cons p rest ih =>
    obtain ⟨tail, hrest, htail⟩ := ih
    rw [List.map_cons, List.flatMap_cons, namesRead]
    obtain ⟨hnone, hprint⟩ | ⟨hsome, tail', hprint, htail'⟩ :=
      p.print_cases ((rest.map NamePart.print).flatMap ('.' :: ·))
    · rw [hnone, Option.isSome_none, if_neg Bool.false_ne_true, hprint, hrest, List.flatMap_cons]
      exact ⟨tail, (List.append_assoc _ _ _).symm, htail⟩
    · rw [if_pos hsome, List.flatMap_singleton, List.cons_append, hprint]
      exact ⟨tail', rfl, htail'⟩

theorem exists_dotted_print {parts : List NamePart} (h : parts ≠ []) :
    ∃ tail, dotted (parts.map NamePart.print) = dotted (namesRead parts) ++ tail ∧
      FollowsNames tail := by
  obtain ⟨tail, hprint, htail⟩ := exists_flatMap_print parts
  rw [flatMap_dot (namesRead_ne_nil h), flatMap_dot fun hnil => h (List.map_eq_nil_iff.mp hnil)]
    at hprint
  exact ⟨tail, (List.cons.inj hprint).2, htail⟩

/-- Either all names are read, as none but the last has arguments, or there are more of them. -/
theorem namesRead_cases (parts : List NamePart) :
    ((∀ p ∈ parts.dropLast, p.arguments = none) ∧ namesRead parts = parts.map NamePart.name) ∨
      ((¬∀ p ∈ parts.dropLast, p.arguments = none) ∧
        ∃ q qs, parts.map NamePart.name = namesRead parts ++ q :: qs) := by
  induction parts with
  | nil => exact .inl ⟨nofun, rfl⟩
  | cons p rest ih =>
    cases rest with
    | nil => exact .inl ⟨List.forall_mem_nil _, by rw [namesRead, namesRead]; split <;> rfl⟩
    | cons q rest =>
      rw [List.dropLast_cons_cons, List.forall_mem_cons, namesRead, List.map_cons]
      cases hp : p.arguments with
      | some a =>
        exact .inr ⟨fun h => Option.some_ne_none a h.1, q.name, rest.map NamePart.name, rfl⟩
      | none =>
        rw [Option.isSome_none, if_neg Bool.false_ne_true]
        obtain ⟨hlast, hall⟩ | ⟨hinner, n, ns, hmore⟩ := ih
        · exact .inl ⟨⟨rfl, hlast⟩, by rw [hall]⟩
        · exact .inr ⟨fun h => hinner h.2, n, ns, by rw [hmore]; rfl⟩

theorem namesRead_subset (parts : List NamePart) : namesRead parts ⊆ parts.map NamePart.name := by
  obtain ⟨-, h⟩ | ⟨-, q, qs, h⟩ := namesRead_cases parts
  · exact h ▸ List.Subset.refl _
  · exact h ▸ List.subset_append_left _ _

theorem isIdentifier_of_mem {parts : List NamePart} {w : List Char}
    (h : w ∈ parts.map NamePart.name) : isIdentifier w := by
  obtain ⟨p, -, rfl⟩ := List.mem_map.mp h
  exact p.isName

namespace ClassType

variable (t : ClassType)

theorem erase_print : erase t.print = String.ofList (dotted (namesRead t.parts)) := by
  have hname : IsBareName (dotted (namesRead t.parts)) :=
    isBareName_dotted (namesRead_ne_nil t.parts_ne_nil) fun w hw =>
      isIdentifier_of_mem (namesRead_subset t.parts hw)
  obtain ⟨tail, hparts, htail⟩ := exists_dotted_print t.parts_ne_nil
  rw [print, hparts]
  obtain rfl | ⟨gap, rest, rfl⟩ := htail
  · rw [List.append_nil]
    cases t.dims with
    | cons d dims =>
      rw [List.flatMap_cons, printDim, List.append_assoc, List.append_assoc]
      exact hname.erase_eq t.before.2 d.1.2 (.inr (.inr (.inl rfl)))
    | nil =>
      rw [List.flatMap_nil, List.nil_append]
      cases t.varargs with
      | none =>
        rw [printVarargs, List.nil_append, ← List.append_nil t.behind.1]
        exact hname.erase_eq t.before.2 t.behind.2 (.inl rfl)
      | some gap =>
        rw [printVarargs, List.append_assoc]
        exact hname.erase_eq t.before.2 gap.2 (.inr (.inr (.inr ⟨_, t.behind.2, rfl⟩)))
  · rw [List.append_assoc, List.append_assoc]
    exact hname.erase_eq t.before.2 gap.2 (.inr (.inl rfl))

/-- What a written type resolves to: the type of the name that is read, in its array levels. -/
theorem resolve_print (r : Resolver) :
    r.resolve t.print =
      (r.resolveName (String.ofList (dotted (namesRead t.parts)))).map (·.arrayOf t.levels) := by
  rw [Resolver.resolve, t.erase_print, t.dimensions_print]

/-- The dotted name alone resolves as it is. -/
theorem resolve_name (r : Resolver) : r.resolve t.name = r.resolveName t.name := by
  have hname : IsBareName (dotted (t.parts.map NamePart.name)) :=
    isBareName_dotted (fun hnil => t.parts_ne_nil (List.map_eq_nil_iff.mp hnil)) fun w hw =>
      isIdentifier_of_mem hw
  exact hname.resolve_eq r

end ClassType

/-! ## Resolving a part of a name -/

/-- The words that never name a class are written small, as packages are. -/
theorem isPackageSegment_reserved : ∀ s ∈ "var" :: primitives, isPackageSegment s := by decide

theorem cutFirst_extend {sep : Char} {s front back : List Char}
    (h : cutFirst sep s = some (front, back)) (more : List Char) :
    cutFirst sep (s ++ more) = some (front, back ++ more) := by
  induction s generalizing front with
  | nil => cases h
  | cons c s ih =>
    rw [List.cons_append, cutFirst]
    unfold cutFirst at h
    split at h
    · cases h
      rw [if_pos ‹_›]
    · obtain ⟨⟨before, behind⟩, hcut, heq⟩ := Option.map_eq_some_iff.mp h
      cases heq
      rw [if_neg ‹_›, ih hcut]
      rfl

theorem ne_longer (s : List Char) (c : Char) (more : List Char) :
    String.ofList s ≠ String.ofList (s ++ c :: more) := fun h => by
  have hchars := String.ofList_inj.mp h
  rw [List.self_eq_append_right] at hchars
  cases hchars

/-- A name is resolved like the name that it begins with, up to a dot, exactly if it is not resolved
at all. -/
theorem resolveName_eq_longer_iff (r : Resolver) (front more : List Char) :
    r.resolveName (String.ofList front) = r.resolveName (String.ofList (front ++ '.' :: more)) ↔
      r.resolveName (String.ofList (front ++ '.' :: more)) = none := by
  have hne := ne_longer front '.' more
  cases hcut : cutFirst '.' front with
  | none =>
    have hlonger : splitFirst '.' (String.ofList (front ++ '.' :: more)) =
        some (String.ofList front, String.ofList more) := by
      rw [splitFirst, String.toList_ofList, cutFirst_append (not_mem_of_cutFirst hcut)]
      rfl
    have hsimple : splitFirst '.' (String.ofList front) = none := by
      rw [splitFirst, String.toList_ofList, hcut]
      rfl
    rw [resolveName_dotted r hlonger, resolveName_simple r hsimple]
    generalize String.ofList (front ++ '.' :: more) = whole at hne
    generalize String.ofList front = word at hne
    cases r.resolveSimple word with
    | none =>
      by_cases hpackage : isPackageSegment word
      · rw [Option.elim_none, if_pos hpackage]
        refine iff_of_false ?_ (Option.some_ne_none _)
        split
        · exact (Option.some_ne_none _).symm
        · split <;> simp
      · have hword : word ∉ "var" :: primitives := fun h =>
          hpackage (isPackageSegment_reserved word h)
        have hprimitive : ¬primitives.contains word := by
          simpa using fun h => hword (List.mem_cons_of_mem _ h)
        rw [Option.elim_none, if_neg hpackage, if_neg hprimitive]
        exact iff_of_true (ite_self none) rfl
    | some outer =>
      refine iff_of_false (fun h => ?_) (Option.some_ne_none _)
      split at h
      · cases h
      · split at h
        · cases h
        · have htext := congrArg String.toList (JavaType.ofClass.inj (Option.some.inj h))
          rw [String.append_assoc, String.toList_append, List.self_eq_append_right] at htext
          simp at htext
  | some parts =>
    obtain ⟨head, rest⟩ := parts
    have hlonger : splitFirst '.' (String.ofList (front ++ '.' :: more)) =
        some (String.ofList head, String.ofList (rest ++ '.' :: more)) := by
      rw [splitFirst, String.toList_ofList, cutFirst_extend hcut]
      rfl
    have hfront : splitFirst '.' (String.ofList front) =
        some (String.ofList head, String.ofList rest) := by
      rw [splitFirst, String.toList_ofList, hcut]
      rfl
    rw [resolveName_dotted r hlonger, resolveName_dotted r hfront]
    cases r.resolveSimple (String.ofList head) with
    | none =>
      rw [Option.elim_none, Option.elim_none]
      split
      · exact iff_of_false (fun h => hne (JavaType.ofClass.inj (Option.some.inj h)))
          (Option.some_ne_none _)
      · exact iff_of_true rfl rfl
    | some outer =>
      rw [Option.elim_some, Option.elim_some]
      refine iff_of_false (fun h => ?_) (Option.some_ne_none _)
      have htext := JavaType.ofClass.inj (Option.some.inj h)
      rw [String.append_right_inj] at htext
      exact ne_longer rest '.' more htext

/-- A written class type resolves to the type of its dotted name without type arguments, in an array
level for every dimension outside of them and one for varargs, exactly if only its last name has
arguments or the dotted name does not resolve. -/
theorem resolve_print_iff (r : Resolver) (t : ClassType) :
    r.resolve t.print = (r.resolve t.name).map (·.arrayOf t.levels) ↔
      t.ArgumentsLast ∨ r.resolve t.name = none := by
  rw [t.resolve_print, t.resolve_name, (Option.map_injective (arrayOf_injective t.levels)).eq_iff]
  obtain ⟨hlast, hall⟩ | ⟨hinner, q, qs, hmore⟩ := namesRead_cases t.parts
  · rw [hall]
    exact iff_of_true rfl (.inl hlast)
  · obtain ⟨rest, hdotted, hdot⟩ := dotted_append_cons (namesRead t.parts) q qs
    obtain ⟨more, rfl⟩ := hdot.resolve_left (namesRead_ne_nil t.parts_ne_nil)
    rw [ClassType.name, hmore, hdotted, resolveName_eq_longer_iff]
    exact ⟨.inr, fun h => h.resolve_left hinner⟩

/-- `Outer<String>.Inner`. -/
def innerOfGeneric : ClassType where
  before := ⟨[], List.forall_mem_nil _⟩
  parts :=
    [⟨"Outer".toList, by decide, some ⟨⟨[], List.forall_mem_nil _⟩, "String".toList, by decide⟩⟩,
      ⟨"Inner".toList, by decide, none⟩]
  parts_ne_nil := List.cons_ne_nil _ _
  dims := []
  varargs := none
  behind := ⟨[], List.forall_mem_nil _⟩

/-- The names behind type arguments are lost, and the type is taken for the one around it. -/
theorem inner_of_generic_is_outer :
    innerOfGeneric.print = "Outer<String>.Inner" ∧ innerOfGeneric.name = "Outer.Inner" ∧
      innerOfGeneric.levels = 0 ∧
      let r := (({ package := "", classpath := {} } : Resolver).declare "Outer").declare "Outer.Inner"
      r.resolve innerOfGeneric.print = some (.ofClass "Outer") ∧
        r.resolve innerOfGeneric.name = some (.ofClass "Outer.Inner") := by
  decide +kernel

end JavaMigration.Java
