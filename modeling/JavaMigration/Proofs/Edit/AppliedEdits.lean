import JavaMigration.Proofs.Edit.ImportedNames
import JavaMigration.Proofs.Edit.RemovedImport
import JavaMigration.Proofs.Source.Declared

/-!
# Import edits a second time

Once import edits are made, the types to add are covered, and the imports to remove are gone or in
use. Neither is undone by the edits that follow: no removal takes an import away that covers one of
the additions, and no edit changes what the unit refers to. So there is nothing left to do
(`apply_again`).
-/

namespace JavaMigration.Source

open Java

/-- The targets of the imports that are not static. -/
def CompilationUnit.plainTargets (u : CompilationUnit) : List String :=
  u.imports.filterMap Import.plainTarget?

theorem CompilationUnit.mem_plainTargets {u : CompilationUnit} {name : String} :
    name ∈ u.plainTargets ↔ ∃ i ∈ u.imports, i.plainTarget? = some name := List.mem_filterMap

/-- What a unit covers is told from its package and its imports that are not static. -/
theorem CompilationUnit.covers_iff {u : CompilationUnit} {name : String} :
    u.Covers name ↔ packageOf name ∈ ["", "java.lang", u.packageName] ∨
      name ∈ u.plainTargets ∨ packageOf name ++ ".*" ∈ u.plainTargets := by
  simp only [Covers, mem_plainTargets, Import.plainTarget?_eq_some_iff, ← exists_or, ← and_or_left]

theorem piecesOf_shifted {ss ts : List Statement} (h : Shifted ss ts) :
    piecesOf ts = piecesOf ss := by
  cases ss with
  | nil => rw [show ts = [] from h]
  | cons s rest =>
    obtain ⟨lead, -, rfl⟩ := h
    rw [piecesOf, piecesOf, Statement.pieces_withLead]

end JavaMigration.Source

namespace JavaMigration.Edit

open Java Source

variable {u v : CompilationUnit} {e : ImportEdits} {name : String}

/-! ## One edit -/

/-- Units of the same package that refer to the same types. -/
def SameCode (u v : CompilationUnit) : Prop :=
  v.packageName = u.packageName ∧ ∀ name, v.anyPiece (refersTo name) = u.anyPiece (refersTo name)

theorem SameCode.of_shifted (hframe : u.SameFrame v) (h : Shifted u.types v.types) :
    SameCode u v := by
  refine ⟨?_, fun name => ?_⟩
  · unfold CompilationUnit.SameFrame at hframe
    rw [hframe]
    rfl
  · rw [anyPiece_refersTo, anyPiece_refersTo, piecesOf_shifted h]

theorem sameCode_addImport (u : CompilationUnit) (name : String) :
    SameCode u ((addImport u name).get u) :=
  .of_shifted (sameFrame_addImport u name) (shifted_addImport u name)

theorem sameCode_removeImport (u : CompilationUnit) (name : String) :
    SameCode u ((removeImport u name).get u) :=
  .of_shifted (sameFrame_removeImport u name) (shifted_removeImport u name)

/-- A type that is not covered joins the targets. -/
theorem plainTargets_addImport (u : CompilationUnit) (name : String) :
    u.Covers name ∧ addImport u name = .kept ∨
      ¬u.Covers name ∧ ((addImport u name).get u).plainTargets.Perm (name :: u.plainTargets) := by
  obtain ⟨hcovered, hkept⟩ | ⟨hcovered, front, back, v, himports, hadd, hbare⟩ :=
    addImport_cases u name
  · exact .inl ⟨isCovered_iff.mp hcovered, hkept⟩
  · refine .inr ⟨fun h => Bool.false_ne_true (hcovered.symm.trans (isCovered_iff.mpr h)), ?_⟩
    have hnew : v.plainTargets = (front ++ { id := u.freshImportId, target := name } ::
        back).filterMap Import.plainTarget? := filterMap_of_bare_eq (fun _ => rfl) hbare
    have hold : u.plainTargets = (front ++ back).filterMap Import.plainTarget? := by
      rw [CompilationUnit.plainTargets, himports]
    rw [hadd, hold]
    exact hnew ▸ List.perm_middle.filterMap Import.plainTarget?

/-- There is nothing to remove, or something is in the way. -/
def Settled (u : CompilationUnit) (name : String) : Prop :=
  name ∉ u.plainTargets ∨ u.anyPiece (refersTo name)

/-- A target that nothing refers to is taken out once. -/
theorem plainTargets_removeImport (u : CompilationUnit) (name : String) :
    Settled u name ∧ removeImport u name = .kept ∨
      ((removeImport u name).get u).plainTargets = u.plainTargets.erase name := by
  obtain ⟨hkept, hsettled⟩ | ⟨before, i, after, himports, hi, hbefore, -, hnew⟩ :=
    removeImport_cases u name
  · refine .inl ⟨hsettled.imp_left fun habsent hmem => ?_, hkept⟩
    obtain ⟨i, hi, htarget⟩ := CompilationUnit.mem_plainTargets.mp hmem
    exact habsent i hi htarget
  · have hclosed : (closeUp before.isEmpty i after).filterMap Import.plainTarget? =
        after.filterMap Import.plainTarget? :=
      filterMap_of_bare_eq (fun _ => rfl) (map_closeUp (fun _ _ => rfl) ..)
    have hfront : name ∉ before.filterMap Import.plainTarget? := by
      simpa [List.mem_filterMap] using hbefore
    have hold : u.plainTargets = before.filterMap Import.plainTarget? ++
        name :: after.filterMap Import.plainTarget? := by
      rw [CompilationUnit.plainTargets, himports, List.filterMap_append,
        List.filterMap_cons_some hi]
    refine .inr ?_
    rw [hnew, hold, List.erase_append_right _ hfront, List.erase_cons_head, ← hclosed]
    exact List.filterMap_append

/-! ## What an edit brings about, and what it leaves -/

theorem covers_addImport (u : CompilationUnit) (name : String) :
    ((addImport u name).get u).Covers name := by
  obtain ⟨hcovers, hkept⟩ | ⟨-, htargets⟩ := plainTargets_addImport u name
  · rwa [hkept]
  · exact CompilationUnit.covers_iff.mpr (.inr (.inl (htargets.symm.subset List.mem_cons_self)))

theorem covers_of_subset {other : String} (h : u.Covers other) (hcode : SameCode u v)
    (hsub : ∀ target ∈ [other, packageOf other ++ ".*"], target ∈ u.plainTargets →
      target ∈ v.plainTargets) : v.Covers other := by
  rw [CompilationUnit.covers_iff] at h ⊢
  rw [hcode.1]
  exact h.imp_right (.imp (hsub _ (by simp)) (hsub _ (by simp)))

/-- An addition leaves what is covered. -/
theorem covers_after_addImport {other : String} (h : u.Covers other) (name : String) :
    ((addImport u name).get u).Covers other := by
  obtain ⟨-, hkept⟩ | ⟨-, htargets⟩ := plainTargets_addImport u name
  · rwa [hkept]
  · exact covers_of_subset h (sameCode_addImport u name) fun target _ hmem =>
      htargets.symm.subset (List.mem_cons_of_mem _ hmem)

/-- The removal of another single type leaves what is covered. -/
theorem covers_after_removeImport {other : String} (h : u.Covers other) (hne : other ≠ name)
    (hsingle : Text.endsWith name ".*" = false) :
    ((removeImport u name).get u).Covers other := by
  obtain ⟨-, hkept⟩ | htargets := plainTargets_removeImport u name
  · rwa [hkept]
  · refine covers_of_subset h (sameCode_removeImport u name) fun target htarget hmem => ?_
    have hother : target ≠ name := by
      rintro rfl
      rw [List.mem_pair] at htarget
      refine htarget.elim (fun heq => hne heq.symm) fun heq => ?_
      rw [heq, Text.endsWith, String.toList_append,
        List.isSuffixOf_iff_suffix.mpr (List.suffix_append _ _)] at hsingle
      cases hsingle
    exact htargets ▸ (List.mem_erase_of_ne hother).mpr hmem

/-- No target joins twice. -/
theorem nodup_addImport (h : u.plainTargets.Nodup) (name : String) :
    ((addImport u name).get u).plainTargets.Nodup := by
  obtain ⟨-, hkept⟩ | ⟨hcovers, htargets⟩ := plainTargets_addImport u name
  · rwa [hkept]
  · have hfresh : name ∉ u.plainTargets := fun hmem =>
      hcovers (CompilationUnit.covers_iff.mpr (.inr (.inl hmem)))
    exact htargets.nodup_iff.mpr (List.nodup_cons.mpr ⟨hfresh, h⟩)

theorem sublist_removeImport (u : CompilationUnit) (name : String) :
    ((removeImport u name).get u).plainTargets.Sublist u.plainTargets := by
  obtain ⟨-, hkept⟩ | htargets := plainTargets_removeImport u name
  · rw [hkept]
    exact .refl _
  · exact htargets ▸ List.erase_sublist

theorem settled_removeImport (h : u.plainTargets.Nodup) (name : String) :
    Settled ((removeImport u name).get u) name := by
  obtain ⟨hsettled, hkept⟩ | htargets := plainTargets_removeImport u name
  · rwa [hkept]
  · exact .inl (htargets ▸ h.not_mem_erase)

/-- Whether a removal is settled is not changed by another one. -/
theorem settled_after_removeImport {other : String} (h : Settled u other) (name : String) :
    Settled ((removeImport u name).get u) other :=
  h.imp (fun habsent hmem => habsent ((sublist_removeImport u name).subset hmem))
    fun hrefers => (sameCode_removeImport u name).2 other ▸ hrefers

/-- A settled removal keeps the unit. -/
theorem removeImport_of_settled (h : Settled u name) : removeImport u name = .kept := by
  rcases h with habsent | hrefers
  · exact removeImport_of_absent fun i hi htarget =>
      habsent (CompilationUnit.mem_plainTargets.mpr ⟨i, hi, htarget⟩)
  · exact removeImport_of_referenced hrefers

/-! ## All edits -/

section Run

variable {edit : CompilationUnit → String → Revision CompilationUnit} {names : List String}

theorem applyAll_of_kept (h : ∀ name ∈ names, edit u name = .kept) :
    ImportEdits.applyAll edit u names = .kept := by
  induction names with
  | nil => rfl
  | cons name rest ih =>
    rw [ImportEdits.applyAll, h name List.mem_cons_self]
    exact ih fun other hother => h other (List.mem_cons_of_mem _ hother)

theorem applyAll_preserves {P : CompilationUnit → Prop}
    (h : ∀ u, ∀ name ∈ names, P u → P ((edit u name).get u)) (hu : P u) :
    P ((ImportEdits.applyAll edit u names).get u) :=
  applyAll_rel (R := fun u v => P u → P v) (fun _ => id) (fun h h' hu => h' (h hu)) h u hu

/-- What each edit brings about for its name, and no other undoes, holds in the end. -/
theorem applyAll_settles {I : CompilationUnit → Prop} {P : CompilationUnit → String → Prop}
    (hinv : ∀ u name, I u → I ((edit u name).get u))
    (hsettle : ∀ u name, I u → P ((edit u name).get u) name)
    (hkeep : ∀ u name other, P u other → P ((edit u name).get u) other) (hu : I u) :
    ∀ name ∈ names, P ((ImportEdits.applyAll edit u names).get u) name := by
  induction names generalizing u with
  | nil => exact fun _ hname => absurd hname List.not_mem_nil
  | cons name rest ih =>
    rw [get_applyAll_cons]
    refine List.forall_mem_cons.mpr ⟨?_, ih (hinv u name hu)⟩
    -- the rest of the edits leave what the first one has brought about
    exact applyAll_preserves (P := (P · name)) (fun w other _ => hkeep w other name)
      (hsettle u name hu)

end Run

/-- Import edits that remove single types, none of which they add, change nothing more when they are
made again, if no import stands twice in the unit. -/
theorem apply_again (hdistinct : u.plainTargets.Nodup)
    (hdisjoint : ∀ name ∈ e.additions, name ∉ e.removals)
    (hsingle : ∀ name ∈ e.removals, Text.endsWith name ".*" = false) :
    e.apply ((e.apply u).get u) = .kept := by
  rw [get_apply]
  extract_lets added
  generalize hw : (ImportEdits.applyAll removeImport added e.removals).get added = w
  have hadded : ∀ name ∈ e.additions, added.Covers name :=
    applyAll_settles (I := fun _ => True) (P := CompilationUnit.Covers) (fun _ _ => id)
      (fun u name _ => covers_addImport u name) (fun _ name _ h => covers_after_addImport h name)
      trivial
  have hnodup : added.plainTargets.Nodup :=
    applyAll_preserves (P := (·.plainTargets.Nodup)) (fun _ name _ h => nodup_addImport h name)
      hdistinct
  have hsettled : ∀ name ∈ e.removals, Settled w name :=
    hw ▸ applyAll_settles (I := (·.plainTargets.Nodup)) (P := Settled)
      (fun _ _ h => h.sublist (sublist_removeImport ..))
      (fun _ name h => settled_removeImport h name)
      (fun _ name _ h => settled_after_removeImport h name) hnodup
  have hcovers : ∀ name ∈ e.additions, w.Covers name := by
    intro name hname
    have hne : ∀ other ∈ e.removals, name ≠ other := fun other hother heq =>
      hdisjoint name hname (heq ▸ hother)
    exact hw ▸ applyAll_preserves (P := (·.Covers name))
      (fun _ other hother h => covers_after_removeImport h (hne other hother) (hsingle other hother))
      (hadded name hname)
  have hkept : ImportEdits.applyAll addImport w e.additions = .kept :=
    applyAll_of_kept fun name hname => addImport_of_covered (hcovers name hname)
  rw [ImportEdits.apply, hkept]
  exact applyAll_of_kept fun name hname => removeImport_of_settled (hsettled name hname)

/-- A class that uses one of the imports in front of it. -/
def importingUnit : CompilationUnit :=
  { path := "A.java"
    package := none
    imports := [{ id := 0, target := "a.*" }, { id := 1, lead := ⟨"\n"⟩, target := "b.C" },
      { id := 2, lead := ⟨"\n"⟩, target := "b.D" }]
    types := [.raw { id := 0, lead := ⟨"\n"⟩, text := "class A \x7b D d; \x7d" }]
    close := ⟨"\n"⟩ }

/-- One of the additions is covered, and one of the removals is in use. -/
theorem apply_again_importingUnit :
    let e : ImportEdits := { additions := ["a.B", "c.E"], removals := ["b.C", "b.D"] }
    importingUnit.plainTargets.Nodup ∧ (∀ name ∈ e.additions, name ∉ e.removals) ∧
      (∀ name ∈ e.removals, Text.endsWith name ".*" = false) ∧
      ((e.apply importingUnit).get importingUnit).print =
        "import a.*;\nimport b.D;\nimport c.E;\nclass A \x7b D d; \x7d\n" ∧
      e.apply ((e.apply importingUnit).get importingUnit) = .kept := by
  intro e
  have hdistinct : importingUnit.plainTargets.Nodup := by decide
  have hdisjoint : ∀ name ∈ e.additions, name ∉ e.removals := by decide
  have hsingle : ∀ name ∈ e.removals, Text.endsWith name ".*" = false := by decide
  exact ⟨hdistinct, hdisjoint, hsingle, by decide +kernel, apply_again hdistinct hdisjoint hsingle⟩

end JavaMigration.Edit
