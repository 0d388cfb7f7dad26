import JavaMigration.Proofs.Edit.AddedImport
import JavaMigration.Proofs.Edit.Indentation

/-!
# Removing an import

Removing an import takes one import statement out of what a unit shows, and with it one of the two
spaces around the statement. The space that is lost is not always looked at before: a comment in it
is lost too (`comment_behind_first_import_is_lost`). If it holds none, nothing but the statement is
gone (`removeImport_deletes_one_iff`).
-/

namespace JavaMigration.Source

open Text

theorem Import.plainTarget?_eq_some_iff {i : Import} {name : String} :
    i.plainTarget? = some name ↔ i.isStatic = false ∧ i.target = name := by
  unfold plainTarget?
  cases i.isStatic <;> simp

theorem Hides.of_visible_eq {old new : String} (h : visible new = visible old) : Hides [] old new :=
  ⟨by rw [h], by simp [h]⟩

/-- A space in front of a text is left out. -/
theorem Hides.leaveOut (s : Space) (text : String) : Hides [s] (s.text ++ text) text := by
  have hspace : Hides [s] s.text "" := .space (t := .empty) rfl
  have hrest := hspace.append (.refl text)
  rwa [String.empty_append] at hrest

/-- The text of a unit up to the code of an import, where some imports are in front. -/
def CompilationUnit.textBefore (u : CompilationUnit) (before : List Import) (i : Import) : String :=
  u.lead.text ++ (u.package.map (·.print)).getD "" ++ String.join (before.map Import.print) ++
    i.lead.text

/-- The text of a unit behind an import, where some imports follow. -/
def CompilationUnit.textBehind (u : CompilationUnit) (after : List Import) : String :=
  String.join (after.map Import.print) ++ printStatements u.types ++ u.close.text

theorem CompilationUnit.print_eq_around {u : CompilationUnit} {before after : List Import}
    {i : Import} (h : u.imports = before ++ i :: after) :
    u.print = u.textBefore before i ++ i.code ++ u.textBehind after := by
  rw [CompilationUnit.print, h, List.map_append, List.map_cons, String.join_append,
    String.join_cons, Import.print_eq]
  simp only [textBefore, textBehind, String.append_assoc]

end JavaMigration.Source

namespace JavaMigration.Edit

open Java Source Text

/-! ## Closing the gap -/

/-- Whether the import behind a removed one gets its space. -/
def takesLead (wasFirst : Bool) (removed next : Import) : Bool :=
  wasFirst || (next.lead.isBlank && removed.lead.newlines > next.lead.newlines)

/-- The imports behind a removed one. -/
def closeUp (wasFirst : Bool) (removed : Import) : List Import → List Import
  | [] => []
  | next :: rest =>
    if takesLead wasFirst removed next then { next with lead := removed.lead } :: rest
    else next :: rest

/-- The space that is lost with an import: its own one, or that of the next import. -/
def spaceLost (wasFirst : Bool) (removed : Import) : List Import → Space
  | [] => removed.lead
  | next :: _ => if takesLead wasFirst removed next then next.lead else removed.lead

theorem dropImport_of_forall {p : Import → Bool} {imports : List Import}
    (h : ∀ i ∈ imports, p i = false) (isFirst : Bool) : dropImport p isFirst imports = none := by
  induction imports generalizing isFirst with
  | nil => rfl
  | cons i imports ih =>
    obtain ⟨hi, himports⟩ := List.forall_mem_cons.mp h
    rw [dropImport.eq_def]
    simp [hi, ih himports]

theorem dropImport_append {p : Import → Bool} {before : List Import} {i : Import}
    (hbefore : ∀ j ∈ before, p j = false) (hi : p i) (isFirst : Bool) (after : List Import) :
    dropImport p isFirst (before ++ i :: after) =
      some (before ++ closeUp (isFirst && before.isEmpty) i after) := by
  induction before generalizing isFirst with
  | nil =>
    rw [List.nil_append, dropImport.eq_def]
    cases after with
    | nil => simp [hi, closeUp]
    | cons next rest => simp [hi, closeUp, takesLead, apply_ite some]
  | cons b before ih =>
    obtain ⟨hb, hbefore⟩ := List.forall_mem_cons.mp hbefore
    rw [List.cons_append, dropImport.eq_def]
    simp [hb, ih hbefore]

/-- Closing up changes spaces only. -/
theorem map_closeUp {β : Type} {f : Import → β} (hf : ∀ (i : Import) lead, f { i with lead } = f i)
    (wasFirst : Bool) (removed : Import) (imports : List Import) :
    (closeUp wasFirst removed imports).map f = imports.map f := by
  cases imports with
  | nil => rfl
  | cons next rest =>
    rw [closeUp]
    split
    · rw [List.map_cons, List.map_cons, hf]
    · rfl

/-! ## When an import is removed -/

/-- The unit without an import that stood between others. -/
def withoutImport (u : CompilationUnit) (before : List Import) (i : Import) (after : List Import) :
    CompilationUnit :=
  let imports := before ++ closeUp before.isEmpty i after
  { u with
    imports
    types := if imports.isEmpty && u.package.isNone then moveUp u.types else u.types }

theorem isPlainImport_iff {i : Import} {name : String} :
    (!i.isStatic && i.target == name) = true ↔ i.plainTarget? = some name := by
  rw [Import.plainTarget?_eq_some_iff, Bool.and_eq_true, Bool.not_eq_true', beq_iff_eq]

theorem removeImport_of_absent {u : CompilationUnit} {name : String}
    (h : ∀ i ∈ u.imports, i.plainTarget? ≠ some name) : removeImport u name = .kept := by
  have hnone : ∀ i ∈ u.imports, (!i.isStatic && i.target == name) = false := fun i hi =>
    Bool.eq_false_iff.mpr (mt isPlainImport_iff.mp (h i hi))
  rw [removeImport, dropImport_of_forall hnone]

theorem removeImport_of_referenced {u : CompilationUnit} {name : String}
    (h : u.anyPiece (refersTo name)) : removeImport u name = .kept := by
  unfold removeImport
  split
  · rfl
  · rw [if_pos h]

/-- The first import of the name is removed if nothing refers to the type. -/
theorem removeImport_of_unused {u : CompilationUnit} {name : String} {before after : List Import}
    {i : Import} (himports : u.imports = before ++ i :: after)
    (hbefore : ∀ j ∈ before, j.plainTarget? ≠ some name) (hi : i.plainTarget? = some name)
    (hunused : u.anyPiece (refersTo name) = false) :
    removeImport u name = .replaced (withoutImport u before i after) := by
  have hnone : ∀ j ∈ before, (!j.isStatic && j.target == name) = false := fun j hj =>
    Bool.eq_false_iff.mpr (mt isPlainImport_iff.mp (hbefore j hj))
  rw [removeImport, himports, dropImport_append hnone (isPlainImport_iff.mpr hi), Bool.true_and]
  simp [hunused, withoutImport]

/-- Either there is nothing to remove, or something refers to the type, or its first import goes. -/
theorem removeImport_cases (u : CompilationUnit) (name : String) :
    removeImport u name = .kept ∧
        ((∀ i ∈ u.imports, i.plainTarget? ≠ some name) ∨ u.anyPiece (refersTo name)) ∨
      ∃ before i after, u.imports = before ++ i :: after ∧ i.plainTarget? = some name ∧
        (∀ j ∈ before, j.plainTarget? ≠ some name) ∧ u.anyPiece (refersTo name) = false ∧
        removeImport u name = .replaced (withoutImport u before i after) := by
  cases hfind : u.imports.find? (·.plainTarget? == some name) with
  | none =>
    have habsent : ∀ i ∈ u.imports, i.plainTarget? ≠ some name := by simpa using hfind
    exact .inl ⟨removeImport_of_absent habsent, .inl habsent⟩
  | some i =>
    obtain ⟨hi, before, after, himports, hbefore⟩ := List.find?_eq_some_iff_append.mp hfind
    have hi := beq_iff_eq.mp hi
    have hbefore : ∀ j ∈ before, j.plainTarget? ≠ some name := by simpa using hbefore
    cases hpiece : u.anyPiece (refersTo name) with
    | true => exact .inl ⟨removeImport_of_referenced hpiece, .inr rfl⟩
    | false =>
      exact .inr ⟨before, i, after, himports, hi, hbefore, rfl,
        removeImport_of_unused himports hbefore hi hpiece⟩

/-! ## What is gone -/

/-- The new text shows what the old one shows but for one import of the name. -/
def ShowsWithout (name old new : String) : Prop :=
  ∃ front back, visible old = front ++ visible ("import" ++ name ++ ";") ++ back ∧
    visible new = front ++ back

/-- Where one statement was cut out and a space was hidden, nothing but the statement is gone if and
only if the space is blank. -/
theorem showsWithout_iff_of_hides {s : Space} {name front code back new : String}
    (hcode : visible code = visible ("import" ++ name ++ ";")) (h : Hides [s] (front ++ back) new) :
    ShowsWithout name (front ++ code ++ back) new ↔ s.isBlank := by
  constructor
  · rintro ⟨l, r, hold, hnew⟩
    have hlength := h.length
    have hall := congrArg List.length hold
    simp only [hnew, visible_append, List.length_append, hcode, List.map_cons, List.map_nil,
      List.sum_cons, List.sum_nil] at hlength hall
    rw [← Space.visible_text_iff, ← List.length_eq_zero_iff]
    omega
  · intro hblank
    have hsame : visible new = visible (front ++ back) := by
      rw [h.same_iff]
      simpa using hblank
    exact ⟨visible front, visible back, by simp [hcode], by rw [hsame, visible_append]⟩

theorem visible_moveUp (types : List Statement) :
    visible (printStatements (moveUp types)) = visible (printStatements types) := by
  cases types with
  | nil => rfl
  | cons first rest =>
    rw [moveUp, printStatements, printStatements, visible_append, visible_append,
      Statement.visible_print_withLead (Space.visible_dropNewlines _)]

/-- Of the space of a removed import and the one behind it one stays. -/
theorem hides_closeUp (wasFirst : Bool) (removed : Import) (imports : List Import) :
    Hides [spaceLost wasFirst removed imports]
      (removed.lead.text ++ String.join (imports.map Import.print))
      (String.join ((closeUp wasFirst removed imports).map Import.print)) := by
  cases imports with
  | nil => exact .leaveOut removed.lead _
  | cons next rest =>
    rw [spaceLost, closeUp]
    split
    · simp only [List.map_cons, String.join_cons, Import.print_eq, String.append_assoc]
      exact (Hides.refl removed.lead.text).append (.leaveOut next.lead _)
    · exact .leaveOut removed.lead _

theorem hides_withoutImport (u : CompilationUnit) (before : List Import) (i : Import)
    (after : List Import) :
    Hides [spaceLost before.isEmpty i after] (u.textBefore before i ++ u.textBehind after)
      (withoutImport u before i after).print := by
  have htypes : Hides [] (printStatements u.types)
      (printStatements (withoutImport u before i after).types) := by
    refine Hides.of_visible_eq ?_
    unfold withoutImport
    dsimp only
    split
    · exact visible_moveUp u.types
    · rfl
  have hparts := (Hides.refl (u.lead.text ++ (u.package.map (·.print)).getD "" ++
    String.join (before.map Import.print))).append
    ((hides_closeUp before.isEmpty i after).append (htypes.append (.refl u.close.text)))
  rw [CompilationUnit.print, show (withoutImport u before i after).imports =
    before ++ closeUp before.isEmpty i after from rfl, List.map_append, String.join_append]
  simp only [CompilationUnit.textBefore, CompilationUnit.textBehind, String.append_assoc,
    List.nil_append, List.append_nil] at hparts ⊢
  exact hparts

/-- A comment is all that a unit can lose with an import. -/
theorem showsWithout_iff {u : CompilationUnit} {name : String} {before after : List Import}
    {i : Import} (himports : u.imports = before ++ i :: after) (hi : i.plainTarget? = some name) :
    ShowsWithout name u.print (withoutImport u before i after).print ↔
      (spaceLost before.isEmpty i after).isBlank := by
  obtain ⟨hstatic, htarget⟩ := Import.plainTarget?_eq_some_iff.mp hi
  rw [CompilationUnit.print_eq_around himports]
  exact showsWithout_iff_of_hides (by rw [Import.visible_code hstatic, htarget])
    (hides_withoutImport u before i after)

/-- Removing the import of a type keeps a unit, or takes the first plain import of the name out of
it. Then the unit shows what it showed but for that one statement, if and only if the space that is
lost with it holds no comment. -/
theorem removeImport_deletes_one_iff (u : CompilationUnit) (name : String) :
    removeImport u name = .kept ∨
      ∃ before i after v, u.imports = before ++ i :: after ∧ i.isStatic = false ∧
        i.target = name ∧ removeImport u name = .replaced v ∧
        v.imports.map (fun j => { j with lead := .empty }) =
          (before ++ after).map (fun j => { j with lead := .empty }) ∧
        (ShowsWithout name u.print v.print ↔ (spaceLost before.isEmpty i after).isBlank) := by
  rcases removeImport_cases u name with ⟨hkept, -⟩ | ⟨before, i, after, himports, hi, -, -, hnew⟩
  · exact .inl hkept
  · obtain ⟨hstatic, htarget⟩ := Import.plainTarget?_eq_some_iff.mp hi
    refine .inr ⟨before, i, after, _, himports, hstatic, htarget, hnew, ?_,
      showsWithout_iff himports hi⟩
    rw [withoutImport, List.map_append, map_closeUp fun _ _ => rfl, List.map_append]

/-- An import with a comment in front of it, behind one that nothing uses. -/
def commentedUnit : CompilationUnit :=
  { path := "A.java"
    package := none
    imports := [{ id := 0, target := "a.B" }, { id := 1, lead := ⟨"\n/* c */ "⟩, target := "a.C" }]
    types := [.raw { id := 0, lead := ⟨"\n"⟩, text := "class A \x7b C c; \x7d" }]
    close := ⟨"\n"⟩ }

/-- The comment goes with the import in front of it. -/
theorem comment_behind_first_import_is_lost :
    ∃ v, removeImport commentedUnit "a.B" = .replaced v ∧
      v.print = "import a.C;\nclass A \x7b C c; \x7d\n" ∧
      ¬ShowsWithout "a.B" commentedUnit.print v.print := by
  have himports : commentedUnit.imports = [] ++ { id := 0, target := "a.B" } ::
    [{ id := 1, lead := ⟨"\n/* c */ "⟩, target := "a.C" }] := rfl
  refine ⟨_, removeImport_of_unused himports (by simp) (by decide) (by decide +kernel),
    by decide +kernel, ?_⟩
  rw [showsWithout_iff himports (by decide)]
  decide +kernel

end JavaMigration.Edit
