import JavaMigration.Proofs.Edit.ImportEdits
import JavaMigration.Proofs.Recipe.Faults
import JavaMigration.Proofs.Recipe.Findings

/-!
# Trees in which nothing is left to do

A tree is settled if every rule field in it stands in a type that fails. A migration keeps such a
tree as it is and reports the failing types (`migrate_of_allSettled`). What a migration makes of a
tree is settled, and the types that fail in it are those that failed before
(`allSettled_rewriteAll`), provided that no generated code declares an annotated variable.
-/

namespace JavaMigration.Recipe

open Java Source Match Edit

namespace RuleMigration

/-! ## Reports -/

variable (m : RuleMigration) (path : String)

/-- The report on a type, if it fails. -/
def report? (d : TypeDecl) : Option Diagnostic :=
  (m.failure? d).map fun fault => ⟨path, d.name.name, fault.message⟩

/-- The reports on the types in some statements, at any depth. -/
def reports (ss : List Statement) : List Diagnostic := (allTypesOf ss).filterMap (m.report? path)

theorem reports_append (ss ts : List Statement) :
    m.reports path (ss ++ ts) = m.reports path ss ++ m.reports path ts := by
  rw [reports, allTypesOf_append, List.filterMap_append]
  rfl

theorem reports_cons (s : Statement) (rest : List Statement) :
    m.reports path (s :: rest) = m.reports path [s] ++ m.reports path rest :=
  m.reports_append path [s] rest

theorem reports_type (d : TypeDecl) :
    m.reports path [.type d] = m.reports path d.body.statements ++ (m.report? path d).toList := by
  unfold reports
  rw [allTypesOf_cons, allTypesOf_nil, List.append_nil, Statement.allTypes_type,
    List.filterMap_append]
  cases h : m.report? path d <;> simp [h]

theorem reports_method {d : MethodDecl} {b : Block} (h : d.body = some b) :
    m.reports path [.method d] = m.reports path b.statements := by
  rw [reports, allTypesOf_cons, allTypesOf_nil, List.append_nil, Statement.allTypes_method h]
  rfl

theorem map_sitesOf (ss : List Statement) (above : List Node) :
    (sitesOf above ss).map (·.2) = allTypesOf ss := by
  induction ss using statements_induction generalizing above with
  | nil => rfl
  | type d rest hbody hrest =>
    rw [sitesOf_type, List.map_append, List.map_cons, hbody, hrest, allTypesOf_cons,
      Statement.allTypes_type, List.append_assoc, List.singleton_append]
  | method d b rest hb hbody hrest =>
    rw [sitesOf_method above hb, List.map_append, hbody, hrest, allTypesOf_cons,
      Statement.allTypes_method hb]
  | signature d rest hb hrest =>
    rw [sitesOf_signature above hb, hrest, allTypesOf_cons, Statement.allTypes_signature hb,
      List.nil_append]
  | vars d rest hrest => exact hrest above
  | call c rest hrest => exact hrest above
  | raw r rest hrest => exact hrest above

/-- The reports of a run can be told from the types of the unit alone. -/
theorem diagnostics_eq_reports (u : CompilationUnit) :
    (m.progress u).diagnostics = m.reports u.path u.types := by
  have hsite : m.diagnosticAt u.path = fun site => m.report? u.path site.2 := by
    funext site
    rw [diagnosticAt, fault?_outcome]
    rfl
  rw [diagnostics_progress, hsite, reports, ← map_sitesOf u.types [.unit u], List.filterMap_map]
  rfl

/-! ## Settled trees -/

mutual

/-- Every rule field in the statement stands in a type that fails. -/
def Settled (m : RuleMigration) : Statement → Prop
  | .type d => m.TypeSettled d
  | .method d => m.MethodSettled d
  | .vars d => m.isRuleField d = false
  | .call _ => True
  | .raw _ => True

def TypeSettled (m : RuleMigration) : TypeDecl → Prop
  | ⟨id, lead, annotations, modifiers, kind, kindLead, name, header, body, type⟩ =>
    (m.failure? ⟨id, lead, annotations, modifiers, kind, kindLead, name, header, body,
      type⟩).isSome ∨ m.BlockSettled body

def MethodSettled (m : RuleMigration) : MethodDecl → Prop
  | ⟨_, _, _, _, _, _, _, _, body, _⟩ =>
    match body with
    | some body => m.BlockSettled body
    | none => True

def BlockSettled (m : RuleMigration) : Block → Prop
  | ⟨_, statements, _⟩ => m.AllSettled statements

def AllSettled (m : RuleMigration) : List Statement → Prop
  | [] => True
  | s :: r => m.Settled s ∧ m.AllSettled r

end

variable {m path}

theorem settled_type_iff {d : TypeDecl} :
    m.Settled (.type d) ↔ (m.failure? d).isSome ∨ m.AllSettled d.body.statements := by
  cases d with
  | mk _ _ _ _ _ _ _ _ body _ => cases body; rfl

theorem settled_method_iff {d : MethodDecl} {b : Block} (h : d.body = some b) :
    m.Settled (.method d) ↔ m.AllSettled b.statements := by
  cases d; subst h; cases b; rfl

theorem settled_signature {d : MethodDecl} (h : d.body = none) : m.Settled (.method d) := by
  cases d; subst h; trivial

theorem settled_vars_iff {d : VariableDecl} : m.Settled (.vars d) ↔ m.isRuleField d = false := Iff.rfl

theorem allSettled_cons_iff {s : Statement} {rest : List Statement} :
    m.AllSettled (s :: rest) ↔ m.Settled s ∧ m.AllSettled rest := Iff.rfl

theorem allSettled_iff {ss : List Statement} : m.AllSettled ss ↔ ∀ s ∈ ss, m.Settled s := by
  induction ss with
  | nil => simp [AllSettled]
  | cons s ss ih => rw [allSettled_cons_iff, ih, List.forall_mem_cons]

theorem allSettled_append_iff {ss ts : List Statement} :
    m.AllSettled (ss ++ ts) ↔ m.AllSettled ss ∧ m.AllSettled ts := by
  simp only [allSettled_iff, List.mem_append, or_imp, forall_and]

/-! ## Nothing to do -/

theorem fields_allFindings_cons (s : Statement) (rest : List Statement) :
    fields (m.allFindings (s :: rest)) = fields (m.findings s) ++ fields (m.allFindings rest) :=
  fields_append _ _

theorem findings_method_of_some {d : MethodDecl} {b : Block} (h : d.body = some b) :
    fields (m.findings (.method d)) = fields (m.allFindings b.statements) := by
  rw [show m.findings (.method d) = m.findingsInMethod d from rfl, m.findingsInMethod_of_some h,
    fields_append, fields_methodFinding, List.append_nil]

theorem findings_method_of_none {d : MethodDecl} (h : d.body = none) :
    fields (m.findings (.method d)) = [] := by
  rw [show m.findings (.method d) = m.findingsInMethod d from rfl, m.findingsInMethod_of_none h,
    fields_methodFinding]

/-- A settled tree has no field to close for the type around it. -/
theorem AllSettled.fields_eq {ss : List Statement} (h : m.AllSettled ss) :
    fields (m.allFindings ss) = [] := by
  induction ss using statements_induction with
  | nil => rfl
  | type d rest _ hrest => exact hrest h.2
  | method d b rest hb hbody hrest =>
    have hd := hbody ((settled_method_iff hb).mp h.1)
    rw [fields_allFindings_cons, findings_method_of_some hb, hd, hrest h.2, List.append_nil]
  | signature d rest hb hrest =>
    rw [fields_allFindings_cons, findings_method_of_none hb, hrest h.2, List.append_nil]
  | vars d rest hrest =>
    have hd : m.isRuleField d = false := h.1
    have hfound : m.findings (.vars d) = [] := by
      rw [show m.findings (.vars d) = m.fieldFindings d from rfl, fieldFindings, hd]
      rfl
    rw [fields_allFindings_cons, hfound, hrest h.2]
    rfl
  | call c rest hrest => exact hrest h.2
  | raw r rest hrest => exact hrest h.2

theorem fieldFound_eq_none {ss : List Statement} (h : fields (m.allFindings ss) = []) :
    fieldFound (m.allFindings ss) = none := by
  rw [(m.tagged_allFindings ss).fieldFound_eq, h]
  rfl

theorem AllSettled.failure?_eq {d : TypeDecl} (h : m.AllSettled d.body.statements) :
    m.failure? d = none := by
  have hfound : fieldFound (m.findingsInBlock d.body) = none := by
    rw [findingsInBlock_eq, fieldFound_eq_none h.fields_eq]
  simp only [failure?, hfound, Option.bind_none]

theorem AllSettled.outcome_eq {d : TypeDecl} (h : m.AllSettled d.body.statements)
    (above : List Node) : m.outcome above d = none := by
  rw [outcome_visitedType, closing, findingsInBlock_eq, fieldFound_eq_none h.fields_eq]
  rfl

/-- A type either fails, and then nothing in it changes, or there is nothing to do in it. -/
theorem outcome_of_settled {d : TypeDecl} (h : m.Settled (.type d)) (above : List Node) :
    (∃ fault, m.outcome above d = some (.error fault)) ∨
      m.outcome above d = none ∧ m.AllSettled d.body.statements := by
  rcases settled_type_iff.mp h with hfails | hbody
  · left
    rw [← fault?_outcome m above d] at hfails
    match hout : m.outcome above d with
    | none => rw [hout] at hfails; cases hfails
    | some (.ok _) => rw [hout] at hfails; cases hfails
    | some (.error fault) => exact ⟨fault, rfl⟩
  · exact .inr ⟨hbody.outcome_eq above, hbody⟩

theorem AllSettled.rewriteAll_eq {ss : List Statement} (h : m.AllSettled ss) (above : List Node) :
    m.rewriteAll above ss = .kept := by
  induction ss using statements_induction generalizing above with
  | nil => rfl
  | type d rest hbody hrest =>
    have hkept : m.rewriteType above d = .kept := by
      rw [rewriteType_outcome]
      obtain ⟨fault, hout⟩ | ⟨hout, hsettled⟩ := outcome_of_settled h.1 above
      · rw [hout]
        rfl
      · rw [hout, rewriteBlock_eq, hbody hsettled]
        rfl
    have hd : m.rewrite above (.type d) = (m.rewriteType above d).map .type := rfl
    rw [rewriteAll_cons, hrest h.2, hd, hkept]
    rfl
  | method d b rest hb hbody hrest =>
    have hsettled := (settled_method_iff hb).mp h.1
    have hd : m.rewrite above (.method d) = (m.rewriteMethod above d).map .method := rfl
    rw [rewriteAll_cons, hrest h.2, hd, m.rewriteMethod_eq above hb, rewriteBlock_eq,
      hbody hsettled]
    rfl
  | signature d rest hb hrest =>
    have hd : m.rewrite above (.method d) = .kept := by cases d; subst hb; rfl
    rw [rewriteAll_cons, hrest h.2, hd]
  | vars d rest hrest =>
    have hd : m.rewrite above (.vars d) = .kept := by
      rw [show m.rewrite above (.vars d) = (m.rewriteVars d).map .vars from rfl, rewriteVars,
        settled_vars_iff.mp h.1]
      rfl
    rw [rewriteAll_cons, hrest h.2, hd]
  | call c rest hrest =>
    rw [rewriteAll_cons, hrest h.2]
    rfl
  | raw r rest hrest =>
    rw [rewriteAll_cons, hrest h.2]
    rfl

/-- In a settled tree no type asks for imports. -/
theorem AllSettled.imports_eq {ss : List Statement} (h : m.AllSettled ss) (above : List Node) :
    (m.allVerdicts above ss).filterMap Verdict.imports? = [] := by
  induction ss using statements_induction generalizing above with
  | nil => rfl
  | type d rest hbody hrest =>
    have hinside : m.verdictsInBlock (.type d :: above) d.body =
        m.allVerdicts (.block d.body :: .type d :: above) d.body.statements := by
      cases d.body; rfl
    have hd : (m.verdictsOnType above d).filterMap Verdict.imports? = [] := by
      rw [verdictsOnType_outcome]
      obtain ⟨fault, hout⟩ | ⟨hout, hsettled⟩ := outcome_of_settled h.1 above
      · rw [hout, withVerdict, List.filterMap_append, imports_filter_isFailed]
        rfl
      · rw [hout, withVerdict, hinside, hbody hsettled]
    rw [allVerdicts_cons, List.filterMap_append, hrest h.2, List.append_nil]
    exact hd
  | method d b rest hb hbody hrest =>
    have hsettled := (settled_method_iff hb).mp h.1
    have hd : m.verdicts above (.method d) =
        m.allVerdicts (.block b :: .method d :: above) b.statements := by
      cases d; subst hb; cases b; rfl
    rw [allVerdicts_cons, List.filterMap_append, hrest h.2, hd, hbody hsettled, List.append_nil]
  | signature d rest hb hrest =>
    have hd : m.verdicts above (.method d) = [] := by cases d; subst hb; rfl
    rw [allVerdicts_cons, hd, List.nil_append, hrest h.2]
  | vars d rest hrest => exact hrest h.2 above
  | call c rest hrest => exact hrest h.2 above
  | raw r rest hrest => exact hrest h.2 above

/-- A settled unit is kept, and its failing types are reported. -/
theorem migrate_of_allSettled {u : CompilationUnit} (h : m.AllSettled u.types) :
    m.migrate u = (.kept, m.reports u.path u.types) := by
  have hkept : m.rewriteUnit u = .kept := by
    rw [rewriteUnit, h.rewriteAll_eq]
    rfl
  have hprogress : m.progress u = { imports := {}, diagnostics := m.reports u.path u.types } := by
    rw [← diagnostics_eq_reports, progress, record_eq, h.imports_eq]
    rfl
  rw [migrate_eq, hprogress, hkept]
  rfl

/-! ## Trees without rule fields -/

variable (m) in
/-- No variable declared in the statements is a rule field. -/
def Quiet (ss : List Statement) : Prop := ∀ d ∈ allVarsOf ss, m.isRuleField d = false

theorem quiet_cons_iff {s : Statement} {rest : List Statement} :
    m.Quiet (s :: rest) ↔ (∀ d ∈ s.allVars, m.isRuleField d = false) ∧ m.Quiet rest :=
  List.forall_mem_append

theorem Quiet.of_unannotated {ss : List Statement} (h : Unannotated ss) : m.Quiet ss := by
  intro d hd
  rw [isRuleField, h d hd]
  exact Bool.and_false _

/-- A tree has no rule field if it is settled and no type fails in it. -/
theorem quiet_iff {ss : List Statement} :
    m.Quiet ss ↔ m.AllSettled ss ∧ ∀ d ∈ allTypesOf ss, m.failure? d = none := by
  induction ss using statements_induction with
  | nil => simp [Quiet, AllSettled]
  | type d rest hbody hrest =>
    rw [quiet_cons_iff, hrest, Statement.allVars_type, ← Quiet, hbody, allSettled_cons_iff,
      settled_type_iff, allTypesOf_cons, Statement.allTypes_type, List.forall_mem_append,
      List.forall_mem_append]
    constructor
    · rintro ⟨⟨hd, hinside⟩, hsettled, hmore⟩
      have hnone : m.failure? d = none := hd.failure?_eq
      exact ⟨⟨.inr hd, hsettled⟩, ⟨hinside, by simpa using hnone⟩, hmore⟩
    · rintro ⟨⟨hd, hsettled⟩, ⟨hinside, hself⟩, hmore⟩
      have hnone : m.failure? d = none := hself d List.mem_cons_self
      rw [hnone] at hd
      exact ⟨⟨hd.resolve_left Bool.false_ne_true, hinside⟩, hsettled, hmore⟩
  | method d b rest hb hbody hrest =>
    rw [quiet_cons_iff, hrest, Statement.allVars_method hb, ← Quiet, hbody, allSettled_cons_iff,
      settled_method_iff hb, allTypesOf_cons, Statement.allTypes_method hb, List.forall_mem_append]
    tauto
  | signature d rest hb hrest =>
    rw [quiet_cons_iff, hrest, Statement.allVars_signature hb, allSettled_cons_iff,
      allTypesOf_cons, Statement.allTypes_signature hb, List.nil_append]
    simp [settled_signature hb]
  | vars d rest hrest =>
    rw [quiet_cons_iff, hrest, allSettled_cons_iff, settled_vars_iff, allTypesOf_cons]
    simp [Statement.allVars, Statement.allTypes, and_assoc]
  | call c rest hrest =>
    rw [quiet_cons_iff, hrest, allSettled_cons_iff, allTypesOf_cons]
    simp [Statement.allVars, Statement.allTypes, Settled]
  | raw r rest hrest =>
    rw [quiet_cons_iff, hrest, allSettled_cons_iff, allTypesOf_cons]
    simp [Statement.allVars, Statement.allTypes, Settled]

theorem reports_eq_nil_iff {ss : List Statement} :
    m.reports path ss = [] ↔ ∀ d ∈ allTypesOf ss, m.failure? d = none := by
  rw [reports, List.filterMap_eq_nil_iff]
  exact forall₂_congr fun d _ => Option.map_eq_none_iff

theorem Quiet.reports_eq {ss : List Statement} (h : m.Quiet ss) : m.reports path ss = [] :=
  reports_eq_nil_iff.mpr (quiet_iff.mp h).2

end RuleMigration

end JavaMigration.Recipe
