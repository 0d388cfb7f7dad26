import Mathlib.Data.List.TakeWhile
import JavaMigration.Java.Resolver
import JavaMigration.Proofs.Text.Lines
import JavaMigration.Proofs.Text.Words

/-!
# The head of a written type

What a written type resolves to hangs on one simple name: what is left in front of the first dot
once type arguments, dimensions and outer blanks are gone. That name stands in the written type as
a word (`containsWord_headOf`), and two resolvers that agree on it agree on the type
(`resolve_congr`).
-/

namespace JavaMigration.Text

/-! ## Words in a text -/

/-- A part of a text behind blanks only and in front of no name character. -/
def StandsIn (t s : List Char) : Prop :=
  ∃ front back, s = front ++ (t ++ back) ∧ (∀ c ∈ front, isBlank c) ∧
    back.head?.any isNameChar = false

namespace StandsIn

theorem refl (s : List Char) : StandsIn s s := ⟨[], [], by simp, by simp, rfl⟩

theorem trans {s t u : List Char} (h : StandsIn u t) (h' : StandsIn t s) : StandsIn u s := by
  obtain ⟨front, back, rfl, hfront, hback⟩ := h
  obtain ⟨front', back', rfl, hfront', hback'⟩ := h'
  refine ⟨front' ++ front, back ++ back', by simp, ?_, ?_⟩
  · exact List.forall_mem_append.mpr ⟨hfront', hfront⟩
  · cases back with
    | nil => exact hback'
    | cons c back => exact hback

/-- A text in front of something that does not go on with a name. -/
theorem of_append {t back : List Char} (h : back.head?.any isNameChar = false) :
    StandsIn t (t ++ back) := ⟨[], back, rfl, by simp, h⟩

end StandsIn

/-- The code points of the blanks. -/
def blanks : List Nat :=
  [9, 10, 11, 12, 13, 32, 0x85, 0xA0, 0x1680, 0x2000, 0x2001, 0x2002, 0x2003, 0x2004, 0x2005,
    0x2006, 0x2007, 0x2008, 0x2009, 0x200A, 0x2028, 0x2029, 0x202F, 0x205F, 0x3000]

theorem mem_blanks {c : Char} (h : isBlank c) : c.toNat ∈ blanks := by
  unfold isBlank at h
  simp only [Bool.or_eq_true, Bool.and_eq_true, decide_eq_true_eq, beq_iff_eq] at h
  simp only [blanks, List.mem_cons, List.not_mem_nil, or_false]
  omega

/-- A table looked up by going through it, which is quick to evaluate. -/
theorem covers_eq (table : Array (Nat × Nat)) (n : Nat) :
    CharRange.covers table n = table.toList.any fun r => r.1 ≤ n && n ≤ r.2 :=
  Array.any_toList.symm

set_option maxRecDepth 100000 in
theorem blanks_not_covered :
    ∀ n ∈ blanks, 128 ≤ n → (CharRange.alphabetic.toList.any fun r => r.1 ≤ n && n ≤ r.2) = false ∧
      (CharRange.numeric.toList.any fun r => r.1 ≤ n && n ≤ r.2) = false := by decide +kernel

theorem isNameChar_of_isBlank {c : Char} (h : isBlank c) : isNameChar c = false := by
  have hmem := mem_blanks h
  by_cases hascii : c.toNat < 128
  · have hsmall : ∀ n ∈ blanks, n < 128 → isNameChar (Char.ofNat n) = false := by decide
    rw [← Char.ofNat_toNat c]
    exact hsmall _ hmem hascii
  · obtain ⟨hletter, hnumber⟩ := blanks_not_covered _ hmem (Nat.le_of_not_lt hascii)
    have hmark : c ≠ '_' ∧ c ≠ '$' :=
      ⟨fun heq => hascii (heq ▸ by decide), fun heq => hascii (heq ▸ by decide)⟩
    rw [isNameChar, isAlphanumeric, if_neg hascii, covers_eq, covers_eq, hletter, hnumber]
    simp [hmark]

theorem head?_of_all_isBlank {s : List Char} (h : ∀ c ∈ s, isBlank c) :
    s.head?.any isNameChar = false := by
  cases s with
  | nil => rfl
  | cons c s => exact isNameChar_of_isBlank (h c List.mem_cons_self)

theorem standsIn_trim (s : String) : StandsIn (trim s).toList s.toList := by
  have hstart : ∀ s : String, StandsIn (dropWhileStart isBlank s).toList s.toList := by
    intro s
    unfold dropWhileStart
    rw [String.toList_ofList]
    refine ⟨s.toList.takeWhile isBlank, [], ?_, fun c hc => List.mem_takeWhile_imp hc, rfl⟩
    rw [List.append_nil, List.takeWhile_append_dropWhile]
  have hend : ∀ s : String, StandsIn (dropWhileEnd isBlank s).toList s.toList := by
    intro s
    unfold dropWhileEnd
    rw [String.toList_ofList]
    refine ⟨[], (s.toList.reverse.takeWhile isBlank).reverse, ?_, nofun, ?_⟩
    · rw [List.nil_append, ← List.reverse_append, List.takeWhile_append_dropWhile,
        List.reverse_reverse]
    · exact head?_of_all_isBlank fun c hc => List.mem_takeWhile_imp (List.mem_reverse.mp hc)
  exact (hend _).trans (hstart s)

theorem standsIn_takeWhile {sep : Char} (h : isNameChar sep = false) (s : List Char) :
    StandsIn (s.takeWhile (· != sep)) s := by
  refine ⟨[], s.dropWhile (· != sep), ?_, nofun, ?_⟩
  · rw [List.nil_append, List.takeWhile_append_dropWhile]
  · have hhead := List.head?_dropWhile_not (· != sep) s
    cases hd : (s.dropWhile (· != sep)).head? with
    | none => rfl
    | some c =>
      rw [hd] at hhead
      have hc : c = sep := by simpa using hhead
      rw [Option.any_some, hc, h]

theorem standsIn_before {sep : Char} (h : isNameChar sep = false) (s : String) :
    StandsIn (before sep s).toList s.toList := by
  unfold before
  rw [String.toList_ofList]
  exact standsIn_takeWhile h _

/-! ## Finding a word -/

theorem wordFrom_of_standsIn {word s : List Char} (h : StandsIn word s)
    (hword : word.head?.any isNameChar) : wordFrom word none 0 s := by
  obtain ⟨front, back, rfl, hfront, hback⟩ := h
  have hprev : (none : Option Char).any isNameChar = false := rfl
  revert hprev
  generalize (none : Option Char) = prev
  intro hprev
  induction front generalizing prev with
  | nil => exact wordFrom_append (by rintro rfl; cases hword) hprev hback
  | cons b front ih =>
    obtain ⟨hb, hfront⟩ := List.forall_mem_cons.mp hfront
    have hblank := isNameChar_of_isBlank hb
    -- the word begins with a name character and so not at a blank
    have hprefix : ¬word.isPrefixOf (b :: (front ++ (word ++ back))) := by
      cases word with
      | nil => cases hword
      | cons c word =>
        have hc : isNameChar c := hword
        have hne : c ≠ b := fun heq => by rw [heq, hblank] at hc; cases hc
        simp [List.isPrefixOf, hne]
    rw [List.cons_append, wordFrom, if_neg hprefix]
    exact ih hfront (some b) hblank

end JavaMigration.Text

namespace JavaMigration.Java

open Text

/-! ## Heads -/

/-- The part of a name in front of its first dot; all of a simple name. -/
def firstName (name : String) : String := ((splitFirst '.' name).map (·.1)).getD name

/-- The simple name on which the type of a reference hangs. -/
def headOf (written : String) : String := firstName (erase written)

theorem isNameChar_marks :
    isNameChar '<' = false ∧ isNameChar '[' = false ∧ isNameChar '.' = false := by decide

theorem standsIn_firstName (name : String) : StandsIn (firstName name).toList name.toList := by
  unfold firstName splitFirst
  cases hcut : cutFirst '.' name.toList with
  | none => exact .refl _
  | some parts =>
    rw [Option.map_some, Option.map_some, Option.getD_some, String.toList_ofList, cutFirst_eq hcut]
    exact .of_append isNameChar_marks.2.2

theorem dropDots_eq (s : List Char) : ∃ n, s = List.replicate n '.' ++ dropDots s := by
  induction s using dropDots.induct with
  | case1 s ih =>
    obtain ⟨n, hn⟩ := ih
    refine ⟨n + 3, ?_⟩
    rw [dropDots, List.replicate_succ, List.replicate_succ, List.replicate_succ, List.cons_append,
      List.cons_append, List.cons_append, ← hn]
  | case2 s h => exact ⟨0, by unfold dropDots; split <;> simp_all⟩

theorem standsIn_erase (written : String) : StandsIn (erase written).toList written.toList := by
  obtain ⟨hangle, hbracket, hdot⟩ := isNameChar_marks
  unfold erase
  extract_lets name
  have hname : StandsIn name.toList written.toList :=
    ((standsIn_trim _).trans (standsIn_before hbracket _)).trans (standsIn_before hangle _)
  have hdots : StandsIn (dropDots name.toList.reverse).reverse name.toList := by
    obtain ⟨n, hn⟩ := dropDots_eq name.toList.reverse
    generalize dropDots name.toList.reverse = kept at hn ⊢
    have hsplit : name.toList = kept.reverse ++ List.replicate n '.' := by
      rw [← List.reverse_inj, List.reverse_append, List.reverse_reverse, List.reverse_replicate, hn]
    rw [hsplit]
    refine .of_append ?_
    cases n with
    | zero => rfl
    | succ n => exact hdot
  refine (standsIn_trim _).trans (StandsIn.trans ?_ hname)
  rw [String.toList_ofList]
  exact hdots

/-- The head of a written type stands in it as a word. -/
theorem containsWord_headOf {written : String}
    (h : (headOf written).toList.head?.any isNameChar) : containsWord written (headOf written) := by
  have hstands : StandsIn (headOf written).toList written.toList :=
    (standsIn_firstName _).trans (standsIn_erase written)
  have hne : (headOf written).isEmpty = false := by
    rw [Bool.eq_false_iff]
    intro hempty
    rw [String.isEmpty_iff.mp hempty] at h
    cases h
  unfold containsWord
  rw [hne, wordFrom_of_standsIn hstands h]
  rfl

/-! ## Resolving by the head -/

variable {r r' : Resolver}

/-- The words that never name a type have no dot in them. -/
theorem splitFirst_reserved : ∀ s ∈ "" :: "var" :: primitives, splitFirst '.' s = none := by decide

/-- The type of a dotted name is a member of what its head stands for. -/
theorem resolveName_dotted (r : Resolver) {name head rest : String}
    (h : splitFirst '.' name = some (head, rest)) :
    r.resolveName name =
      (r.resolveSimple head).elim (if isPackageSegment head then some (.ofClass name) else none)
        fun outer => some (.ofClass (outer ++ "." ++ rest)) := by
  have hne : name ∉ "" :: "var" :: primitives := fun hmem => by
    rw [splitFirst_reserved name hmem] at h
    cases h
  rw [List.mem_cons, List.mem_cons, not_or, not_or] at hne
  obtain ⟨hempty, hvar, hprimitive⟩ := hne
  unfold Resolver.resolveName
  rw [if_neg (by simp [hempty, hvar]), if_neg (by simpa using hprimitive), h]
  dsimp only
  cases r.resolveSimple head <;> rfl

/-- The type of a simple name is what it stands for, unless it is reserved. -/
theorem resolveName_simple (r : Resolver) {name : String} (h : splitFirst '.' name = none) :
    r.resolveName name =
      if name.isEmpty || name == "var" then none
      else if primitives.contains name then some (.primitive name)
      else (r.resolveSimple name).map .ofClass := by
  unfold Resolver.resolveName
  rw [h]

theorem resolveName_congr {name : String}
    (h : r'.resolveSimple (firstName name) = r.resolveSimple (firstName name)) :
    r'.resolveName name = r.resolveName name := by
  unfold firstName at h
  cases hsplit : splitFirst '.' name with
  | none =>
    rw [hsplit, Option.map_none, Option.getD_none] at h
    rw [resolveName_simple r' hsplit, resolveName_simple r hsplit, h]
  | some parts =>
    rw [hsplit, Option.map_some, Option.getD_some] at h
    rw [resolveName_dotted r' hsplit, resolveName_dotted r hsplit, h]

/-- What a written type resolves to is settled by what its head does. -/
theorem resolve_congr {written : String}
    (h : r'.resolveSimple (headOf written) = r.resolveSimple (headOf written)) :
    r'.resolve written = r.resolve written := by
  rw [Resolver.resolve, Resolver.resolve, resolveName_congr h]

theorem arrayOf_injective (n : Nat) : Function.Injective (JavaType.arrayOf · n) := by
  induction n with
  | zero => exact fun _ _ h => h
  | succ n ih => exact fun _ _ h => ih (JavaType.array.inj h)

/-- A word that can only name a type, and is all of the reference it makes up. -/
structure IsTypeWord (s : String) : Prop where
  erased : erase s = s
  flat : dimensions s = 0
  undotted : splitFirst '.' s = none
  reserved : s.isEmpty = false ∧ (s == "var") = false ∧ primitives.contains s = false
  capital : isPackageSegment s = false

namespace IsTypeWord

variable {s : String}

theorem headOf_eq (h : IsTypeWord s) : headOf s = s := by
  rw [headOf, h.erased, firstName, h.undotted]
  rfl

theorem resolveName_eq {name : String} (h : IsTypeWord name) (r : Resolver) :
    r.resolveName name = (r.resolveSimple name).map .ofClass := by
  obtain ⟨hempty, hvar, hprimitive⟩ := h.reserved
  rw [resolveName_simple r h.undotted, hempty, hvar, hprimitive]
  rfl

theorem resolve_eq (h : IsTypeWord s) (r : Resolver) :
    r.resolve s = (r.resolveSimple s).map .ofClass := by
  rw [Resolver.resolve, h.erased, h.flat, h.resolveName_eq]
  cases r.resolveSimple s <;> rfl

theorem ofClass_injective : Function.Injective JavaType.ofClass := fun _ _ h => JavaType.ofClass.inj h

/-- If a name keeps its type, the word in front stands for what it stood for. -/
theorem resolveSimple_of_resolveName_eq {name full : String} (h : IsTypeWord (firstName name))
    (hsame : r'.resolveName name = r.resolveName name)
    (hfull : r'.resolveSimple (firstName name) = some full) :
    r.resolveSimple (firstName name) = some full := by
  cases hsplit : splitFirst '.' name with
  | none =>
    have hfirst : firstName name = name := by
      rw [firstName, hsplit]
      rfl
    rw [hfirst] at h hfull ⊢
    rw [h.resolveName_eq, h.resolveName_eq] at hsame
    rw [← hfull]
    exact (Option.map_injective ofClass_injective hsame).symm
  | some parts =>
    obtain ⟨head, rest⟩ := parts
    have hfirst : firstName name = head := by
      rw [firstName, hsplit]
      rfl
    have hcapital := h.capital
    rw [hfirst] at hfull hcapital ⊢
    rw [resolveName_dotted r' hsplit, resolveName_dotted r hsplit, hfull, hcapital] at hsame
    cases hsimple : r.resolveSimple head with
    | none =>
      rw [hsimple] at hsame
      cases hsame
    | some outer =>
      rw [hsimple] at hsame
      have htext := ofClass_injective (Option.some.inj hsame)
      rw [String.append_assoc, String.append_assoc] at htext
      rw [String.append_left_inj] at htext
      rw [htext]

/-- If a reference keeps its type, the word at its head stands for what it stood for. -/
theorem resolveSimple_of_resolve_eq {written full : String} (h : IsTypeWord (headOf written))
    (hsame : r'.resolve written = r.resolve written)
    (hfull : r'.resolveSimple (headOf written) = some full) :
    r.resolveSimple (headOf written) = some full := by
  unfold Resolver.resolve at hsame
  exact h.resolveSimple_of_resolveName_eq
    (Option.map_injective (arrayOf_injective (dimensions written)) hsame) hfull

end IsTypeWord

end JavaMigration.Java
