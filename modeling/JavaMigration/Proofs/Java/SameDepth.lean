import JavaMigration.Proofs.Java.Braces
import JavaMigration.Proofs.Java.Printed
import JavaMigration.Proofs.Java.Variables

/-!
# The braces of printed statements

What is printed for a statement leads to the depth in braces that its source leads to
(`Shaped.sameDepth`): printing changes only spaces, except that it repeats members of enums, and
those close what they open.
-/

namespace JavaMigration.Java

open Source

/-! ## Lexemes of the same depth -/

/-- The lexemes lead from each depth to the same one. -/
def SameDepth (ls ms : List Lexeme) : Prop := ∀ d, braceDepth d ls = braceDepth d ms

namespace SameDepth

variable {ls ms ns os : List Lexeme}

theorem refl (ls : List Lexeme) : SameDepth ls ls := fun _ => rfl

theorem append (h : SameDepth ls ms) (h' : SameDepth ns os) : SameDepth (ls ++ ns) (ms ++ os) := by
  intro d
  rw [braceDepth_append, braceDepth_append, h d]
  exact Option.bind_congr fun e _ => h' e

/-- Spaces do not matter. -/
theorem of_texts (h : ls.map (·.text) = ms.map (·.text)) : SameDepth ls ms := by
  induction ls generalizing ms with
  | nil =>
    rw [List.map_eq_nil_iff.mp h.symm]
    exact .refl []
  | cons l ls ih =>
    obtain ⟨m, ms, rfl, htext, hmore⟩ := List.map_eq_cons_iff.mp h.symm
    intro d
    rw [braceDepth, braceDepth, htext]
    exact Option.bind_congr fun e _ => ih hmore.symm e

end SameDepth

/-! ## Members of enums -/

section

variable {ls : List Lexeme}

/-- A member closes what it opens. -/
theorem braceDepth_member (hplain : ∀ l ∈ ls, l.Plain) {s : Syntax} (hin : s.In ls)
    (hmember : s.IsMember) (d : Nat) : braceDepth d s.lexemes = some d := by
  cases s with
  | leaf l =>
    have htext : l.text = ";" := hmember
    rw [Syntax.lexemes, braceDepth, htext]
    rfl
  | node p cs =>
    exact braceDepth_of_closed (braceDepth_of_conforms hin.1 fun l hl => hplain l (hin.2.subset hl)) d

theorem braceDepth_members (hplain : ∀ l ∈ ls, l.Plain) {items : List Syntax}
    (hin : ∀ s ∈ items, s.In ls) (hmembers : ∀ s ∈ items, s.IsMember) (d : Nat) :
    braceDepth d (lexemesOf items) = some d := by
  induction items with
  | nil => rfl
  | cons s items ih =>
    obtain ⟨hs, hitems⟩ := List.forall_mem_cons.mp hin
    obtain ⟨hmember, hmembers⟩ := List.forall_mem_cons.mp hmembers
    rw [lexemesOf, braceDepth_append, braceDepth_member hplain hs hmember, Option.bind_some,
      ih hitems hmembers]

theorem sameDepth_printedItems {items : List Syntax}
    (h : ∀ s ∈ items, SameDepth (printed s) s.lexemes) :
    SameDepth (printedItems items) (lexemesOf items) := by
  induction items with
  | nil => exact .refl []
  | cons s items ih =>
    obtain ⟨hs, hitems⟩ := List.forall_mem_cons.mp h
    exact hs.append (ih hitems)

/-- The semicolons that are not printed with the members are no braces. -/
theorem sameDepth_printedMembers {items : List Syntax} (hmembers : ∀ s ∈ items, s.IsMember)
    (h : ∀ s ∈ items, SameDepth (printed s) s.lexemes) :
    SameDepth (printedMembers items) (lexemesOf items) := by
  induction items with
  | nil => exact .refl []
  | cons s items ih =>
    obtain ⟨hmember, hmore⟩ := List.forall_mem_cons.mp hmembers
    obtain ⟨hs, hitems⟩ := List.forall_mem_cons.mp h
    cases s with
    | leaf l =>
      have htext : l.text = ";" := hmember
      intro d
      rw [lexemesOf_leaf, braceDepth, htext]
      exact ih hmore hitems d
    | node p cs =>
      rw [printedMembers, lexemesOf]
      refine .append ?_ (sameDepth_printedItems hitems)
      split
      · exact fun d => (SameDepth.of_texts (texts_leadWith _ _) d).trans (hs d)
      · exact hs

/-! ## Statements -/

theorem sameDepth_braced {b i : Phrase} {first last : Lexeme} {items : List Syntax}
    (h : ∀ s ∈ items, SameDepth (printed s) s.lexemes) :
    SameDepth (printedBody (.node b [.leaf first, .node i items, .leaf last]))
      (Syntax.node b [.leaf first, .node i items, .leaf last]).lexemes := by
  have hread : (Syntax.node b [.leaf first, .node i items, .leaf last]).lexemes =
      [first] ++ lexemesOf items ++ [last] := by
    simp [Syntax.lexemes]
  rw [hread]
  exact ((SameDepth.refl [first]).append (sameDepth_printedItems h)).append (.refl [last])

theorem sameDepth_enum {b c i : Phrase} {first last : Lexeme} {constants items : List Syntax}
    (hplain : ∀ l ∈ ls, l.Plain) (hin : ∀ s ∈ items, s.In ls)
    (hmembers : ∀ s ∈ items, s.IsMember) (h : ∀ s ∈ items, SameDepth (printed s) s.lexemes) :
    SameDepth (printedBody (.node b [.leaf first, .node c constants, .node i items, .leaf last]))
      (Syntax.node b [.leaf first, .node c constants, .node i items, .leaf last]).lexemes := by
  have hprinted : printedBody (.node b [.leaf first, .node c constants, .node i items, .leaf last]) =
      (first :: lexemesOf constants) ++
        (lexemesOf (throughLastSemicolon items) ++ printedMembers items) ++ [last] := by
    simp [printedBody, lexemesOf_append]
  have hread : (Syntax.node b [.leaf first, .node c constants, .node i items, .leaf last]).lexemes =
      (first :: lexemesOf constants) ++ lexemesOf items ++ [last] := by
    simp [Syntax.lexemes]
  have hmem : ∀ s ∈ throughLastSemicolon items, s ∈ items :=
    fun s hs => (throughLastSemicolon_isPrefix items).subset hs
  have hthrough := braceDepth_members hplain (fun s hs => hin s (hmem s hs))
    fun s hs => hmembers s (hmem s hs)
  rw [hprinted, hread]
  refine .append (.append (.refl _) fun d => ?_) (.refl [last])
  rw [braceDepth_append, hthrough, Option.bind_some, sameDepth_printedMembers hmembers h d]

theorem sameDepth_withBody (head : List Syntax) {body : Syntax}
    (h : SameDepth (printedBody body) body.lexemes) :
    SameDepth (lexemesOf head ++ printedBody body) (lexemesOf (head ++ [body])) := by
  rw [lexemesOf_append, lexemesOf_singleton]
  exact (SameDepth.refl _).append h

theorem sameDepth_withThrows (head : List Syntax) {t : Phrase} {throwing : List Syntax} {body : Syntax}
    (h : SameDepth (printedBody body) body.lexemes) :
    SameDepth (lexemesOf (head ++ [.node t (throwing.map tight)]) ++ printedBody body)
      (lexemesOf (head ++ [.node t throwing, body])) := by
  have htexts := SameDepth.of_texts (texts_lexemesOf_tight throwing)
  rw [lexemesOf_append, lexemesOf_append, List.append_assoc, lexemesOf_singleton, lexemesOf,
    lexemesOf_singleton, Syntax.lexemes, Syntax.lexemes]
  exact (SameDepth.refl _).append (htexts.append h)

/-- What is printed for a statement leads to the depth that its source leads to. -/
theorem Shaped.sameDepth (hplain : ∀ l ∈ ls, l.Plain) {s : Syntax} (h : Shaped s) (hin : s.In ls) :
    SameDepth (printed s) s.lexemes := by
  induction h with
  | @type m b i modifiers items key name first last header _ _ _ _ _ ih =>
    let head : List Syntax := [.node m modifiers, .leaf key, .leaf name, header]
    have hitems : ∀ s ∈ items, s.In ls := Syntax.In.items head (i := i) hin (by simp)
    exact sameDepth_withBody head
      (sameDepth_braced fun s hs => ih s hs (hitems s hs))
  | @enum m b c i modifiers constants items key name first last header _ _ _ _ hmembers _ ih =>
    let head : List Syntax := [.node m modifiers, .leaf key, .leaf name, header]
    have hitems : ∀ s ∈ items, s.In ls := Syntax.In.items head (i := i) hin (by simp)
    exact sameDepth_withBody head
      (sameDepth_enum hplain hitems hmembers fun s hs => ih s hs (hitems s hs))
  | @vars m modifiers declarators type close =>
    have hprinted : printed (.node .vars
        [.node m modifiers, type, .node .declarators declarators, .leaf close]) =
        lexemesOf [.node m modifiers, type] ++ (lexemesOf (declarators.map tight) ++ [close]) := by
      simp [printed, lexemesOf, Syntax.lexemes]
    have hread : (Syntax.node .vars [.node m modifiers, type, .node .declarators declarators,
        .leaf close]).lexemes =
        lexemesOf [.node m modifiers, type] ++ (lexemesOf declarators ++ [close]) := by
      simp [lexemesOf, Syntax.lexemes]
    rw [hprinted, hread]
    exact (SameDepth.refl _).append
      ((SameDepth.of_texts (texts_lexemesOf_tight declarators)).append (.refl [close]))
  | @signature m g p modifiers generic parameters throwing type dims name close =>
    exact sameDepth_withThrows
      [.node m modifiers, .node g generic, type, .leaf name, .node p parameters, dims] (.refl [close])
  | @method m g p b i modifiers generic parameters throwing items type dims name first last
      _ _ _ _ _ _ _ _ ih =>
    let head : List Syntax :=
      [.node m modifiers, .node g generic, type, .leaf name, .node p parameters, dims]
    have hitems : ∀ s ∈ items, s.In ls :=
      Syntax.In.items (head ++ [.node .throwsPart throwing]) (i := i) hin (by simp)
    exact sameDepth_withThrows head (sameDepth_braced fun s hs => ih s hs (hitems s hs))
  | expression => exact .refl _
  | raw h =>
    rw [printed_of_raw h]
    exact .refl _

/-- So does what is printed for a list of statements. -/
theorem sameDepth_of_valid {items : List Syntax} (h : ∀ s ∈ items, s.Valid)
    (hplain : ∀ l ∈ lexemesOf items, l.Plain) :
    SameDepth (printedItems items) (lexemesOf items) :=
  sameDepth_printedItems fun s hs =>
    (h s hs).shaped.sameDepth hplain ⟨h s hs, lexemes_infix_of_mem hs⟩

end

end JavaMigration.Java
