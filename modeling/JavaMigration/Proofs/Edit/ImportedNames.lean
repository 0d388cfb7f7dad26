import JavaMigration.Proofs.Edit.ImportEdits
import JavaMigration.Proofs.Java.Resolution

/-!
# What import edits do to names

Import edits leave the references of a unit and its imports on demand alone, and the name at the
head of a reference is imported afterwards as it was before, or as a type that was added
(`rebinds_apply`). An import is only removed if no reference has its name.
-/

namespace JavaMigration.Source

open Java

/-! ## One import among others -/

theorem referencesOf_shifted {ss ts : List Statement} (h : Shifted ss ts) :
    referencesOf ts = referencesOf ss := by
  cases ss with
  | nil => rw [show ts = [] from h]
  | cons s rest =>
    obtain ⟨lead, -, rfl⟩ := h
    rw [referencesOf_cons, referencesOf_cons, Statement.references_withLead]

/-- An import of a single type binds the simple name of its target. -/
theorem Import.single?_eq {i : Import} {p : String × String} (h : i.single? = some p) :
    p = (simpleName i.target, i.target) := by
  unfold Import.single? at h
  split at h
  · cases h
  · obtain ⟨parts, hparts, rfl⟩ := Option.map_eq_some_iff.mp h
    rw [simpleName, hparts]
    rfl

theorem lookup_insert (front back : List (String × String)) (key value simple : String) :
    (front ++ (key, value) :: back).lookup simple = (front ++ back).lookup simple ∨
      simple = key ∧ (front ++ (key, value) :: back).lookup simple = some value := by
  rw [List.lookup_append, List.lookup_append, List.lookup_cons]
  by_cases h : simple = key
  · subst h
    cases front.lookup simple with
    | none => exact .inr ⟨rfl, by simp⟩
    | some full => exact .inl rfl
  · rw [beq_false_of_ne h]
    exact .inl rfl

theorem namesBound_insert (front : List Import) (i : Import) (back : List Import) :
    ∃ later earlier, namesBound (front ++ back) = later ++ earlier ∧
      namesBound (front ++ i :: back) = later ++ (i.single?.toList ++ earlier) := by
  refine ⟨(back.filterMap Import.single?).reverse, (front.filterMap Import.single?).reverse, ?_, ?_⟩
  · rw [namesBound, List.filterMap_append, List.reverse_append]
  · rw [namesBound, List.filterMap_append, List.filterMap_cons]
    cases i.single? <;> simp

/-- An import more makes a name stand for what it stood for, or for the target of the import. -/
theorem importedAs_insert (front : List Import) (i : Import) (back : List Import) (simple : String) :
    importedAs simple (front ++ i :: back) = importedAs simple (front ++ back) ∨
      simple = simpleName i.target ∧ importedAs simple (front ++ i :: back) = some i.target := by
  obtain ⟨later, earlier, hwithout, hwith⟩ := namesBound_insert front i back
  unfold importedAs
  rw [hwithout, hwith]
  cases hi : i.single? with
  | none => exact .inl rfl
  | some p =>
    rw [Import.single?_eq hi]
    exact lookup_insert later earlier _ _ simple

/-- Other names stand for what they stood for. -/
theorem importedAs_insert_of_ne {i : Import} {simple : String} (h : simple ≠ simpleName i.target)
    (front back : List Import) :
    importedAs simple (front ++ i :: back) = importedAs simple (front ++ back) :=
  (importedAs_insert front i back simple).resolve_right fun hnamed => h hnamed.1

theorem packagesOf_insert {i : Import} (h : Text.stripEnd? i.target ".*" = none)
    (front back : List Import) :
    packagesOf (front ++ i :: back) = packagesOf (front ++ back) := by
  have hnone : i.onDemand? = none := by
    unfold Import.onDemand?
    rw [h]
    split <;> rfl
  rw [packagesOf, packagesOf, List.filterMap_append, List.filterMap_append,
    List.filterMap_cons_none hnone]

end JavaMigration.Source

namespace JavaMigration.Edit

open Java Source

theorem splitBehindLast_append {α : Type} (p : α → Bool) (as : List α) :
    (splitBehindLast p as).1 ++ (splitBehindLast p as).2 = as := by
  induction as with
  | nil => rfl
  | cons a as ih =>
    unfold splitBehindLast
    split
    · next after heq =>
      rw [heq] at ih
      split <;> simp_all
    · next before after hne heq =>
      rw [heq] at ih
      simp_all

/-- A new import joins the others, which stay in their order. -/
theorem insertImport_eq (new : Import) (nl : String) (imports : List Import) :
    ∃ front back, imports = front ++ back ∧
      (insertImport new nl imports).map Import.bare = (front ++ new :: back).map Import.bare := by
  refine ⟨_, _, (splitBehindLast_append (sortsBefore · new) imports).symm, ?_⟩
  unfold insertImport
  generalize splitBehindLast (sortsBefore · new) imports = parts
  obtain ⟨before, after⟩ := parts
  dsimp only
  split
  · next heq => cases heq; rfl
  · next heq => cases heq; rfl
  · next heq =>
    cases heq
    rw [List.map_append, List.map_append]
    cases after with
    | nil => rfl
    | cons next rest =>
      dsimp only
      split <;> rfl

/-- The import that is dropped passes the test, and the others stay in their order. -/
theorem dropImport_eq {p : Import → Bool} {isFirst : Bool} {imports rest : List Import}
    (h : dropImport p isFirst imports = some rest) :
    ∃ front i back, imports = front ++ i :: back ∧ p i ∧
      rest.map Import.bare = (front ++ back).map Import.bare := by
  induction imports generalizing isFirst rest with
  | nil => cases h
  | cons i imports ih =>
    unfold dropImport at h
    split at h
    · next hp =>
      refine ⟨[], i, imports, rfl, hp, ?_⟩
      split at h
      · cases h; rfl
      · split at h <;> cases h <;> rfl
    · obtain ⟨kept, hkept, rfl⟩ := Option.map_eq_some_iff.mp h
      obtain ⟨front, j, back, rfl, hj, hbare⟩ := ih hkept
      exact ⟨i :: front, j, back, rfl, hj, by rw [List.map_cons, hbare]; rfl⟩

/-! ## Edits -/

/-- A unit in which the type is covered is kept, and any other one gets an import more. -/
theorem addImport_cases (u : CompilationUnit) (name : String) :
    isCovered u name ∧ addImport u name = .kept ∨
      isCovered u name = false ∧ ∃ front back v, u.imports = front ++ back ∧
        addImport u name = .replaced v ∧
        v.imports.map Import.bare =
          (front ++ { id := u.freshImportId, target := name } :: back).map Import.bare := by
  cases hcovered : isCovered u name with
  | true => exact .inl ⟨rfl, by rw [addImport, if_pos hcovered]⟩
  | false =>
    refine .inr ⟨rfl, ?_⟩
    rw [addImport, if_neg (by simp [hcovered])]
    split
    · next himports => exact ⟨[], [], _, himports, rfl, rfl⟩
    · obtain ⟨front, back, himports, hbare⟩ :=
        insertImport_eq { id := u.freshImportId, target := name } (Text.lineEnding u.print)
          u.imports
      exact ⟨front, back, _, himports, rfl, hbare⟩

/-- The units have the same references and the same imports on demand, and a name at the head of a
reference is imported as before or as one of some types. -/
structure Rebinds (names : List String) (u v : CompilationUnit) : Prop where
  references : referencesOf v.types = referencesOf u.types
  packages : packagesOf v.imports = packagesOf u.imports
  imported : ∀ ref ∈ referencesOf u.types,
    importedAs (headOf ref.name) v.imports = importedAs (headOf ref.name) u.imports ∨
      ∃ full ∈ names, simpleName full = headOf ref.name ∧
        importedAs (headOf ref.name) v.imports = some full

namespace Rebinds

variable {names : List String} {u v w : CompilationUnit}

theorem refl (names : List String) (u : CompilationUnit) : Rebinds names u u :=
  ⟨rfl, rfl, fun _ _ => .inl rfl⟩

theorem trans (h : Rebinds names u v) (h' : Rebinds names v w) : Rebinds names u w where
  references := h'.references.trans h.references
  packages := h'.packages.trans h.packages
  imported ref href := by
    rcases h'.imported ref (h.references ▸ href) with hsame | hnamed
    · rw [hsame]
      exact h.imported ref href
    · exact .inr hnamed

end Rebinds

variable {names : List String} {name : String}

theorem rebinds_addImport (hname : name ∈ names) (hsingle : Text.stripEnd? name ".*" = none)
    (u : CompilationUnit) : Rebinds names u ((addImport u name).get u) := by
  have hreferences := referencesOf_shifted (shifted_addImport u name)
  obtain ⟨-, hkept⟩ | ⟨-, front, back, v, himports, hadd, hbare⟩ := addImport_cases u name
  · rw [hkept]
    exact .refl names u
  · rw [hadd] at hreferences ⊢
    refine ⟨hreferences, ?_, fun ref _ => ?_⟩
    · rw [show ((Revision.replaced v).get u) = v from rfl, packagesOf_congr hbare, himports]
      exact packagesOf_insert (i := { id := u.freshImportId, target := name }) hsingle front back
    · unfold importedAs
      rw [show ((Revision.replaced v).get u) = v from rfl, namesBound_congr hbare, himports]
      rcases importedAs_insert front { id := u.freshImportId, target := name } back
        (headOf ref.name) with hkept | hnamed
      · exact .inl hkept
      · exact .inr ⟨name, hname, hnamed.1.symm, hnamed.2⟩

/-- The import of a type whose name is not at the head of any reference can be done without. -/
theorem rebinds_removeImport (hsingle : Text.stripEnd? name ".*" = none)
    (hword : (simpleName name).toList.head?.any Text.isNameChar) (u : CompilationUnit) :
    Rebinds names u ((removeImport u name).get u) := by
  have hreferences := referencesOf_shifted (shifted_removeImport u name)
  unfold removeImport at hreferences ⊢
  cases hdrop : dropImport (fun i => !i.isStatic && i.target == name) true u.imports with
  | none => exact .refl _ _
  | some rest =>
    rw [hdrop] at hreferences
    dsimp only at hreferences ⊢
    split
    · exact .refl _ _
    · next hrefers =>
      rw [if_neg hrefers] at hreferences
      obtain ⟨front, i, back, himports, hi, hbare⟩ := dropImport_eq hdrop
      have htarget : i.target = name := by simp_all
      refine ⟨hreferences, ?_, fun ref href => .inl ?_⟩
      · show packagesOf rest = _
        rw [packagesOf_congr hbare, himports, packagesOf_insert (by rw [htarget, hsingle])]
      · -- otherwise the name of the reference holds the simple name as a word
        have hne : headOf ref.name ≠ simpleName i.target := by
          intro hhead
          obtain ⟨p, hp, hpiece⟩ := List.mem_filterMap.mp (referencesOf_subset _ href)
          refine hrefers (List.any_eq_true.mpr ⟨p, List.mem_append_right _ hp, ?_⟩)
          cases p with
          | identifier j =>
            cases hpiece
            dsimp only [Identifier.reference] at hhead
            rw [htarget] at hhead
            rw [← hhead] at hword
            rw [refersTo, ← hhead, containsWord_headOf hword, Bool.or_true]
          | _ => cases hpiece
        show importedAs _ rest = _
        rw [importedAs, namesBound_congr hbare, himports]
        exact (importedAs_insert_of_ne hne front back).symm

/-- Import edits change what the name at the head of a reference is imported as only to a type that
they add. -/
theorem rebinds_apply {e : ImportEdits}
    (hadditions : ∀ name ∈ e.additions, Text.stripEnd? name ".*" = none)
    (hremovals : ∀ name ∈ e.removals, Text.stripEnd? name ".*" = none ∧
      (simpleName name).toList.head?.any Text.isNameChar) (u : CompilationUnit) :
    Rebinds e.additions u ((e.apply u).get u) :=
  apply_rel (.refl _) .trans (fun u name hname => rebinds_addImport hname (hadditions name hname) u)
    (fun u name hname => rebinds_removeImport (hremovals name hname).1 (hremovals name hname).2 u) u

end JavaMigration.Edit
