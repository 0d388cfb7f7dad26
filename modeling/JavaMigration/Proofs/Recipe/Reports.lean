import JavaMigration.Proofs.Java.Variables
import JavaMigration.Proofs.Recipe.Completeness

/-!
# Recipes that report nothing

The templates of a recipe whose code reads as it is meant go where they are put, and a field that is
closed has the type their placeholder asks for: a rule field has the tracked type, and where it was
read from source a name that is known to be of that class is one. With the defaults no run of code
as it was read reports anything (`default_recipe_reports_nothing`).
-/

namespace JavaMigration.Source

/-- The variables of a type inside are variables of the tree. -/
theorem allVarsOf_subset_of_mem_allTypesOf {ss : List Statement} {d : TypeDecl}
    (h : d ∈ allTypesOf ss) : allVarsOf d.body.statements ⊆ allVarsOf ss := by
  induction ss using statements_induction with
  | nil => cases h
  | type e rest hbody hrest =>
    rw [allTypesOf_cons, Statement.allTypes_type, List.append_assoc] at h
    rw [allVarsOf_cons, Statement.allVars_type]
    rcases List.mem_append.mp h with h | h
    · exact List.subset_append_of_subset_left _ (hbody h)
    · rcases List.mem_cons.mp h with rfl | h
      · exact List.subset_append_left _ _
      · exact List.subset_append_of_subset_right _ (hrest h)
  | method e b rest hb hbody hrest =>
    rw [allTypesOf_cons, Statement.allTypes_method hb] at h
    rw [allVarsOf_cons, Statement.allVars_method hb]
    rcases List.mem_append.mp h with h | h
    · exact List.subset_append_of_subset_left _ (hbody h)
    · exact List.subset_append_of_subset_right _ (hrest h)
  | signature e rest hb hrest =>
    rw [allTypesOf_cons, Statement.allTypes_signature hb] at h
    exact List.subset_append_of_subset_right _ (hrest h)
  | vars e rest hrest => exact List.subset_append_of_subset_right _ (hrest h)
  | call c rest hrest => exact List.subset_append_of_subset_right _ (hrest h)
  | raw r rest hrest => exact List.subset_append_of_subset_right _ (hrest h)

end JavaMigration.Source

namespace JavaMigration.Edit

open Java Source

namespace Template

variable {t : Template} {slot : Slot} {kind : NodeKind} {arguments : List Node}

theorem refusal?_eq_none {fits : Bool} (harguments : t.checkArguments arguments = .ok ())
    (hfits : fits) : t.refusal? slot kind arguments fits = none := by
  rw [refusal?, harguments]
  exact if_pos hfits

/-- A template with one placeholder takes an argument of the type of that placeholder. -/
theorem checkArguments_singleton {token name : String} {n : Node}
    (hplaceholders : t.placeholders = [⟨token, some name⟩]) (hn : hasClassType n.type? name) :
    t.checkArguments [n] = .ok () := by
  rw [checkArguments, hplaceholders, if_neg (by simp)]
  simp only [mismatch, if_pos hn]

theorem checkArguments_nil (hplaceholders : t.placeholders = []) :
    t.checkArguments [] = .ok () := by
  rw [checkArguments, hplaceholders]
  rfl

end Template

end JavaMigration.Edit

namespace JavaMigration.Recipe

open Java Source Match Edit

namespace RuleMigration

/-! ## The type of a field -/

/-- A name in a rule field that was read from source has the tracked type. -/
theorem hasClassType_of_isRuleField {m : RuleMigration} {d : VariableDecl} {v : Declarator}
    (htyped : TypedAsWritten d) (hrule : m.isRuleField d) (hv : v ∈ d.declarators) :
    hasClassType v.name.type m.tracked.name := by
  have hmatches := (Bool.and_eq_true_iff.mp hrule).1
  rw [TypePattern.matchesVariables, Bool.and_eq_true_iff, List.all_eq_true] at hmatches
  obtain ⟨hwritten, hnames⟩ := hmatches
  obtain ⟨n, hn⟩ := htyped.2 v hv
  have hname := hnames v hv
  rw [hn] at hname ⊢
  cases htype : d.type.type with
  | none =>
    rw [htype] at hwritten
    cases hwritten
  | some t =>
    rw [htype] at hname
    exact hname

theorem hasClassType_of_fieldFound {m : RuleMigration} {b : Block} {field : Identifier}
    (htyped : ∀ d ∈ allVarsOf b.statements, TypedAsWritten d)
    (hfield : fieldFound (m.findingsInBlock b) = some field) :
    hasClassType field.type m.tracked.name := by
  rw [(m.tagged_findingsInBlock b).fieldFound_eq, findingsInBlock_eq] at hfield
  obtain ⟨d, hd, hrule, v, hv, rfl⟩ := mem_fields_allFindings (List.mem_of_getLast? hfield)
  exact hasClassType_of_isRuleField (htyped d hd) hrule hv

/-! ## Closing a field of that type -/

variable {c : Config} {field : Identifier}

theorem closeInFault?_ordinary (hfield : hasClassType field.type c.trackedType)
    (thrown : List Identifier) : (ordinary c).closeInFault? field thrown = none := by
  have hclose : (ordinary c).closeStatement.checkArguments [.identifier field] = .ok () :=
    Template.checkArguments_singleton rfl hfield
  have hthrown : (ordinary c).thrown.checkArguments [] = .ok () :=
    Template.checkArguments_nil rfl
  have hfits : ((ordinary c).closeStatement.asStatements? [.identifier field]).isSome := rfl
  rw [closeInFault?, Template.refusal?_eq_none hclose hfits, Option.none_or]
  split
  · rfl
  · exact Template.refusal?_eq_none hthrown rfl

/-- Wherever a field of the tracked type is closed, the templates take it. -/
theorem closeFault?_ordinary (hfield : hasClassType field.type c.trackedType)
    (method : Option StatementId) (members : List Statement) :
    (ordinary c).closeFault? field method members = none := by
  have hnew : (ordinary c).newMethod.checkArguments [.identifier field] = .ok () :=
    Template.checkArguments_singleton rfl hfield
  cases method with
  | none => exact Template.refusal?_eq_none hnew rfl
  | some id =>
    unfold closeFault?
    dsimp only
    cases members.find? (·.id == id) with
    | none => rfl
    | some s =>
      cases s with
      | method d =>
        dsimp only
        split
        · rfl
        · exact closeInFault?_ordinary hfield d.thrown
      | _ => rfl

theorem failure?_ordinary {d : TypeDecl}
    (htyped : ∀ v ∈ allVarsOf d.body.statements, TypedAsWritten v) :
    (ordinary c).failure? d = none := by
  unfold failure?
  dsimp only
  cases hfound : fieldFound ((ordinary c).findingsInBlock d.body) with
  | none => rfl
  | some field => exact closeFault?_ordinary (hasClassType_of_fieldFound htyped hfound) _ _

/-- A recipe whose templates read as their code is meant reports nothing on code in which every
name has the written type. -/
theorem migrate_ordinary_snd {u : CompilationUnit}
    (htyped : ∀ d ∈ allVarsOf u.types, TypedAsWritten d) : ((ordinary c).migrate u).2 = [] := by
  have hreports : (ordinary c).reports u.path u.types = [] :=
    reports_eq_nil_iff.mpr fun d hd =>
      failure?_ordinary fun v hv => htyped v (allVarsOf_subset_of_mem_allTypesOf hd hv)
  rw [migrate_eq, diagnostics_eq_reports, hreports]

/-- With the defaults, whatever was parsed and with whatever types known, nothing is reported: every
field that is to be closed can be. -/
theorem default_recipe_reports_nothing {m : RuleMigration} {classpath : Classpath}
    {path source : String} {u : CompilationUnit} (hm : ofConfig {} = .ok m)
    (hparse : parse? classpath path source = some u) :
    (m.migrate u).2 = [] ∧ (m.run u).2 = [] := by
  obtain ⟨ls, close, -, hread⟩ := readFrom_of_parse? hparse
  cases ordinary_default.ofConfig_eq.symm.trans hm
  have hmigrate := migrate_ordinary_snd (c := {}) fun d hd => (hread d hd).typedAsWritten
  refine ⟨hmigrate, ?_⟩
  unfold run
  split
  · exact hmigrate
  · rfl

/-- A field that is closed is not reported. -/
theorem rule_is_closed_without_report :
    ∃ (m : RuleMigration) (u : CompilationUnit), ofConfig {} = .ok m ∧
      parse? {} "A.java" ruleSource = some u ∧ (m.run u).1.isKept = false ∧
      (m.migrate u).2 = [] ∧ (m.run u).2 = [] := by
  obtain ⟨m, u, hm, hu, hmigrates⟩ := exists_of_passes passes_rule
  have hchanged := (Bool.and_eq_true_iff.mp hmigrates).1
  exact ⟨m, u, hm, hu, by simpa using hchanged, default_recipe_reports_nothing hm hu⟩

end RuleMigration

end JavaMigration.Recipe
