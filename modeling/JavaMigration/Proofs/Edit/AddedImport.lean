import JavaMigration.Proofs.Edit.ImportPlaces
import JavaMigration.Proofs.Edit.Synthesis
import JavaMigration.Proofs.Text.Visible

/-!
# Adding an import

Adding the import of a type keeps a unit in which the type is covered. Otherwise there is one import
more, and apart from blanks the text gets nothing but that import, in one place
(`addImport_adds_one`).
-/

namespace JavaMigration.Source

open Java

/-- The unit can use the type without a further import: the type is in no package, in `java.lang`,
in the package of the unit, or imported by itself or with its package. -/
def CompilationUnit.Covers (u : CompilationUnit) (name : String) : Prop :=
  packageOf name ∈ ["", "java.lang", u.packageName] ∨
    ∃ i ∈ u.imports, i.isStatic = false ∧ (i.target = name ∨ i.target = packageOf name ++ ".*")

/-- An import on demand is of the package in front of the star. -/
theorem Import.onDemand_iff {i : Import} {package : String} :
    (i.isOnDemand && i.package == package) = true ↔ i.target = package ++ ".*" := by
  unfold isOnDemand Import.package packageOf Text.endsWith Text.splitLast
  have hstar : ∀ front : List Char,
      Text.cutLast '.' (front ++ ['.', '*']) = some (front, ['*']) := by
    intro front
    induction front with
    | nil => rfl
    | cons c front ih => rw [List.cons_append, Text.cutLast, ih]
  rw [Bool.and_eq_true, List.isSuffixOf_iff_suffix, beq_iff_eq]
  constructor
  · rintro ⟨⟨front, hfront⟩, hpackage⟩
    rw [← hfront, show ".*".toList = ['.', '*'] from rfl, hstar] at hpackage
    rw [← String.toList_inj, ← hfront, String.toList_append, ← hpackage]
    simp
  · intro htarget
    rw [htarget, String.toList_append, show ".*".toList = ['.', '*'] from rfl, hstar]
    simp

/-- An import behind its space. -/
def Import.code (i : Import) : String :=
  (if i.isStatic then "import static " else "import ") ++ i.target ++ ";"

theorem Import.print_eq (i : Import) : i.print = i.lead.text ++ i.code := by
  rw [print, code, String.append_assoc, String.append_assoc, String.append_assoc]

@[simp] theorem Import.code_lead (i : Import) (lead : Space) :
    ({ i with lead } : Import).code = i.code := rfl

theorem Import.visible_code {i : Import} (h : i.isStatic = false) :
    Text.visible i.code = Text.visible ("import" ++ i.target ++ ";") := by
  simp only [code, h, Bool.false_eq_true, if_false, Text.visible_append]
  rfl

end JavaMigration.Source

namespace JavaMigration.Edit

open Java Source Text

theorem isCovered_iff {u : CompilationUnit} {name : String} :
    isCovered u name ↔ u.Covers name := by
  unfold isCovered CompilationUnit.Covers
  extract_lets package
  have himports : (u.imports.any fun i =>
        !i.isStatic && (i.target == name || i.isOnDemand && i.package == package)) ↔
      ∃ i ∈ u.imports, i.isStatic = false ∧ (i.target = name ∨ i.target = package ++ ".*") := by
    rw [List.any_eq_true]
    refine exists_congr fun i => and_congr_right fun _ => ?_
    rw [Bool.and_eq_true, Bool.not_eq_true', Bool.or_eq_true, beq_iff_eq, Import.onDemand_iff]
  rw [Bool.or_eq_true, himports]
  simp [package, String.isEmpty_iff, or_assoc]

/-! ## What imports show -/

/-- What imports show, one after the other. -/
def shown (imports : List Import) : List Char := imports.flatMap fun i => visible i.print

theorem visible_imports (imports : List Import) :
    visible (String.join (imports.map Import.print)) = shown imports := by
  rw [visible_join, List.flatMap_map]
  rfl

theorem shown_append (is js : List Import) : shown (is ++ js) = shown is ++ shown js :=
  List.flatMap_append

theorem shown_cons (i : Import) (imports : List Import) :
    shown (i :: imports) = visible i.lead.text ++ (visible i.code ++ shown imports) := by
  rw [shown, List.flatMap_cons, Import.print_eq, visible_append, List.append_assoc]
  rfl

theorem visible_separator {nl : String} (h : visible nl = []) (sameGroup : Bool) :
    visible (separator sameGroup nl).text = [] := by
  cases sameGroup <;> simp [separator, h]

/-- An import that is not the first of all shows what it did when it is laid out anew. -/
theorem shown_settleBehind (new : Import) {nl : String} (h : visible nl = [])
    (imports : List Import) : shown (settleBehind new nl false imports) = shown imports := by
  cases imports with
  | nil => rfl
  | cons next rest =>
    rw [settleBehind]
    split
    · next hblank =>
      rw [Bool.false_or, ← Space.visible_text_iff] at hblank
      rw [shown_cons, shown_cons, visible_separator h, hblank]
      rfl
    · rfl

/-- Between the others a new import shows itself in one place. -/
theorem shown_insertImport {new : Import} {nl : String} (hnl : visible nl = [])
    (hlead : visible new.lead.text = []) (imports : List Import) :
    ∃ front back, shown imports = front ++ back ∧
      shown (insertImport new nl imports) = front ++ visible new.code ++ back := by
  obtain ⟨before, after, rfl, hcut⟩ := exists_cutBehindLast (sortsBefore · new) imports
  rw [insertImport_append hcut, shown_append, shown_append, shown_cons]
  cases before with
  | nil =>
    cases after with
    | nil => exact ⟨[], [], rfl, by simp [leadBetween, hlead, shown, settleBehind]⟩
    | cons first rest =>
      -- the new import stands between the first one and its space
      refine ⟨visible first.lead.text, visible first.code ++ shown rest, shown_cons first rest, ?_⟩
      rw [settleBehind, if_pos (by rfl), shown_cons, visible_separator hnl, leadBetween]
      simp [shown]
  | cons b before =>
    refine ⟨shown (b :: before), shown after, rfl, ?_⟩
    rw [leadBetween, visible_separator hnl, List.isEmpty_cons, shown_settleBehind new hnl]
    simp

theorem visible_setApart {nl : String} (hnl : visible nl = []) (types : List Statement) :
    visible (printStatements (setApart nl types)) = visible (printStatements types) := by
  cases types with
  | nil => rfl
  | cons first rest =>
    rw [setApart]
    split
    · rfl
    · rw [printStatements, printStatements, visible_append, visible_append,
        Statement.visible_print_withLead]
      simp [hnl, Space.visible_dropNewlines]

theorem visible_print (u : CompilationUnit) :
    visible u.print = visible u.lead.text ++ visible ((u.package.map (·.print)).getD "") ++
      shown u.imports ++ visible (printStatements u.types) ++ visible u.close.text := by
  rw [CompilationUnit.print, visible_append, visible_append, visible_append, visible_append,
    visible_imports]

/-! ## The unit -/

/-- A unit that got an import of a type. Of the imports behind it only spaces may differ. -/
structure Adds (u : CompilationUnit) (name : String) (v : CompilationUnit) : Prop where
  imports : ∃ front back new back', u.imports = front ++ back ∧ v.imports = front ++ new :: back' ∧
    new.isStatic = false ∧ new.target = name ∧ (∀ i ∈ u.imports, i.id ≠ new.id) ∧
    back'.map (fun i => { i with lead := .empty }) = back.map fun i => { i with lead := .empty }
  inOrder : InOrder u.imports → InOrder v.imports
  print : ∃ front back, visible u.print = front ++ back ∧
    visible v.print = front ++ visible ("import" ++ name ++ ";") ++ back
  again : addImport v name = .kept

theorem ne_freshImportId {u : CompilationUnit} {i : Import} (h : i ∈ u.imports) :
    i.id ≠ u.freshImportId :=
  ((lt_foldl_max _ 0).2 _ (List.mem_map_of_mem h)).ne

theorem addImport_of_covered {u : CompilationUnit} {name : String} (h : u.Covers name) :
    addImport u name = .kept := by
  rw [addImport, if_pos (isCovered_iff.mpr h)]

/-- A unit with a plain import of a type is kept. -/
theorem addImport_of_imported {u : CompilationUnit} {name : String}
    (h : ∃ i ∈ u.imports, i.isStatic = false ∧ i.target = name) : addImport u name = .kept := by
  obtain ⟨i, hi, hstatic, htarget⟩ := h
  exact addImport_of_covered (.inr ⟨i, hi, hstatic, .inl htarget⟩)

section

variable {u : CompilationUnit} {name nl : String} {new : Import} (hnl : visible nl = [])
  (hid : new.id = u.freshImportId) (hstatic : new.isStatic = false) (htarget : new.target = name)
  (hlead : visible new.lead.text = [])

include hnl hid hstatic htarget hlead

/-- The first import of a unit. -/
theorem adds_first (himports : u.imports = []) :
    Adds u name { u with imports := [new], types := setApart nl u.types } := by
  refine ⟨⟨[], [], new, [], himports, rfl, hstatic, htarget,
    fun _ hi => hid ▸ ne_freshImportId hi, rfl⟩, fun _ => List.pairwise_singleton _ _, ?_, ?_⟩
  · refine ⟨visible u.lead.text ++ visible ((u.package.map (·.print)).getD ""),
      visible (printStatements u.types) ++ visible u.close.text, ?_, ?_⟩
    · rw [visible_print, himports]
      simp [shown]
    · rw [visible_print]
      simp only [shown_cons, visible_setApart hnl, hlead, Import.visible_code hstatic, htarget]
      simp [shown]
  · exact addImport_of_imported ⟨new, List.mem_singleton_self new, hstatic, htarget⟩

/-- An import among others. -/
theorem adds_insertImport : Adds u name { u with imports := insertImport new nl u.imports } := by
  obtain ⟨before, after, himports, hcut⟩ := exists_cutBehindLast (sortsBefore · new) u.imports
  refine ⟨?_, inOrder_insertImport new nl, ?_, ?_⟩
  · rw [himports, insertImport_append hcut]
    exact ⟨before, after, _, _, rfl, rfl, hstatic, htarget,
      fun _ hi => hid ▸ ne_freshImportId (himports ▸ hi), map_settleBehind (fun _ _ => rfl) ..⟩
  · obtain ⟨front, back, hold, hshown⟩ := shown_insertImport hnl hlead u.imports
    refine ⟨visible u.lead.text ++ visible ((u.package.map (·.print)).getD "") ++ front,
      back ++ visible (printStatements u.types) ++ visible u.close.text, ?_, ?_⟩
    · rw [visible_print, hold]
      simp
    · rw [visible_print]
      simp only [hshown, Import.visible_code hstatic, htarget]
      simp
  · have hmem : { new with lead := leadBetween new nl before after } ∈
        insertImport new nl u.imports := by
      rw [himports, insertImport_append hcut]
      simp
    exact addImport_of_imported ⟨_, hmem, hstatic, htarget⟩

end

/-- Adding the import of a type keeps a unit that covers the type, and otherwise puts one import
more among the others. They keep their order, and nothing else of what the unit shows changes. -/
theorem addImport_adds_one (u : CompilationUnit) (name : String) :
    u.Covers name ∧ addImport u name = .kept ∨
      ¬u.Covers name ∧ ∃ v, addImport u name = .replaced v ∧ Adds u name v := by
  by_cases hcovers : u.Covers name
  · exact .inl ⟨hcovers, addImport_of_covered hcovers⟩
  · refine .inr ⟨hcovers, ?_⟩
    have hnl := visible_lineEnding u.print
    rw [addImport, if_neg (mt isCovered_iff.mp hcovers)]
    split
    · next himports =>
      refine ⟨_, rfl, adds_first hnl rfl rfl rfl ?_ himports⟩
      dsimp only
      split
      · simp [hnl]
      · rfl
    · exact ⟨_, rfl, adds_insertImport hnl rfl rfl rfl rfl⟩

end JavaMigration.Edit
