import JavaMigration.Proofs.Java.Variables
import JavaMigration.Proofs.Recipe.Idempotence
import JavaMigration.Proofs.Recipe.Persistence

/-!
# No rule field is left

A run without reports leaves no variable whose names all have the tracked type and which has the
rule annotation in front (`run_leaves_no_rule_field`). An annotation behind another modifier is
itself a modifier, and is not looked at (`late_rule_is_left`).
-/

namespace JavaMigration.Recipe

open Java Source Match Edit

namespace RuleMigration

variable {c : Config} {m : RuleMigration}

/-! ## Written types -/

/-- Taking an annotation off a variable adds none. -/
theorem annotations_unmarked {d : VariableDecl} (h : d.annotations = []) :
    (m.unmarked d).annotations = [] := by
  unfold unmarked VariableDecl.retainAnnotations
  rw [h]
  rfl

theorem persists_typedAsWritten :
    m.Persists fun d => d.annotations = [] ∨ TypedAsWritten d where
  unannotated h := .inl h
  unmarked {d} h := by
    rcases h with hnone | htyped
    · exact .inl (annotations_unmarked hnone)
    · obtain ⟨annotations, modifiers, lead, hunmarked⟩ := m.unmarked_eq d
      rw [hunmarked]
      exact .inr htyped
  moved _ h := h

/-! ## Rule fields -/

/-- A variable typed as written is a rule field if all its names have the tracked type and one of
the annotations in front is the rule annotation. -/
theorem isRuleField_of_names (hmade : MadeFrom c m)
    (hname : (AnnotationPattern.ofSignature c.ruleAnnotation).name = c.ruleAnnotation)
    {d : VariableDecl} (htyped : TypedAsWritten d)
    (hnames : ∀ v ∈ d.declarators, hasClassType v.name.type c.trackedType) {a : Annotation}
    (ha : a ∈ d.annotations) (hrule : hasClassType a.name.type c.ruleAnnotation) :
    m.isRuleField d := by
  have hdeclared : ∀ v ∈ d.declarators, v.name.type.all (·.isClass c.trackedType) := by
    intro v hv
    have hv := hnames v hv
    cases htype : v.name.type with
    | none => rfl
    | some t =>
      rw [htype] at hv
      exact hv
  have hmatches : m.tracked.matchesVariables d := by
    rw [TypePattern.matchesVariables, hmade.tracked, Bool.and_eq_true_iff, List.all_eq_true]
    exact ⟨htyped.hasClassType hnames, hdeclared⟩
  have hannotated : m.rule.matchesAnnotation a := by
    rw [AnnotationPattern.matchesAnnotation, hmade.rule, hname]
    exact hrule
  exact Bool.and_eq_true_iff.mpr ⟨hmatches, List.any_eq_true.mpr ⟨a, ha, hannotated⟩⟩

/-- If a run of a unit that was read from source reports nothing, no variable of the result whose
names all have the tracked type has the rule annotation in front. -/
theorem run_leaves_no_rule_field {classpath : Classpath} {path source : String}
    {u : CompilationUnit} (hm : ofConfig c = .ok m) (hc : c.Plain)
    (hparse : parse? classpath path source = some u) (hreports : (m.run u).2 = []) :
    ∀ d ∈ allVarsOf ((m.run u).1.get u).types,
      (∀ v ∈ d.declarators, hasClassType v.name.type c.trackedType) →
        ∀ a ∈ d.annotations, hasClassType a.name.type c.ruleAnnotation = false := by
  have hmade := madeFrom_of_ofConfig hm
  have hplain := generatesPlain hm hc
  rw [run_eq_migrate hmade hc.rule] at hreports ⊢
  have hquiet : m.Quiet ((m.migrate u).1.get u).types := by
    obtain ⟨hsettled, hsame⟩ := settled_migrate hplain u
    exact quiet_iff.mpr ⟨hsettled, reports_eq_nil_iff.mp (hsame.trans hreports)⟩
  have htyped : ∀ d ∈ allVarsOf ((m.migrate u).1.get u).types,
      d.annotations = [] ∨ TypedAsWritten d := by
    obtain ⟨ls, close, -, hread⟩ := readFrom_of_parse? hparse
    exact persists_typedAsWritten.migrate hplain fun d hd => .inr (hread d hd).typedAsWritten
  intro d hd hnames a ha
  rw [Bool.eq_false_iff]
  intro hrule
  rcases htyped d hd with hnone | hwritten
  · rw [hnone] at ha
    cases ha
  · have hfield := isRuleField_of_names hmade hc.rule hwritten hnames ha hrule
    rw [hquiet d hd] at hfield
    cases hfield

theorem plain_default : ({} : Config).Plain where
  rule := by decide
  after := by decide
  tracked := by decide
  exception := by decide
  close := by decide
  method := by decide

/-- A class with a field that the defaults migrate. -/
def ruleSource : String :=
  "class A \x7b @org.junit.Rule okhttp3.mockwebserver.MockWebServer s; \x7d"

set_option maxRecDepth 100000 in
theorem passes_rule :
    passes {} ruleSource fun m u => !(m.run u).1.isKept && (m.run u).2.isEmpty :=
  ordinary_default.passes (by decide +kernel)

theorem rule_is_migrated :
    ∃ (m : RuleMigration) (u : CompilationUnit),
      ofConfig {} = .ok m ∧ parse? {} "A.java" ruleSource = some u ∧ (m.run u).1.isKept = false ∧
      (m.run u).2 = [] ∧
      ∀ d ∈ allVarsOf ((m.run u).1.get u).types,
        (∀ v ∈ d.declarators, hasClassType v.name.type "okhttp3.mockwebserver.MockWebServer") →
          ∀ a ∈ d.annotations, hasClassType a.name.type "org.junit.Rule" = false := by
  obtain ⟨m, u, hm, hu, hmigrates⟩ := exists_of_passes passes_rule
  obtain ⟨hchanged, hempty⟩ := Bool.and_eq_true_iff.mp hmigrates
  have hreports := List.isEmpty_iff.mp hempty
  exact ⟨m, u, hm, hu, by simpa using hchanged, hreports,
    run_leaves_no_rule_field hm plain_default hu hreports⟩

/-! ## Annotations behind other modifiers -/

/-- A class whose field has the rule annotation behind a keyword. -/
def lateRuleSource : String :=
  "class A \x7b public @org.junit.Rule okhttp3.mockwebserver.MockWebServer s; \x7d"

/-- Whether the unit is kept without a report, although its one field has the tracked type and the
rule annotation. -/
def leavesLateRule (m : RuleMigration) (u : CompilationUnit) : Bool :=
  match u.types with
  | [.type t] =>
    match t.body.statements with
    | [.vars d] =>
      (m.run u).1.isKept && (m.run u).2.isEmpty &&
        d.declarators.all (hasClassType ·.name.type "okhttp3.mockwebserver.MockWebServer") &&
        (d.modifiers.map (·.word)).contains "@org.junit.Rule"
    | _ => false
  | _ => false

set_option maxRecDepth 100000 in
theorem passes_lateRule : passes {} lateRuleSource leavesLateRule :=
  ordinary_default.passes (by decide +kernel)

set_option maxRecDepth 100000 in
theorem lateRule_resolves :
    (readUnit lateRuleSource).any fun (items, _) =>
      hasClassType ((resolverOf items {}).resolve "org.junit.Rule") "org.junit.Rule" := by
  decide +kernel

theorem eq_kept_of_isKept {α β : Type} {result : Revision α × List β} (hkept : result.1.isKept)
    (hempty : result.2.isEmpty) : result = (.kept, []) := by
  obtain ⟨_ | new, reports⟩ := result
  · rw [List.isEmpty_iff.mp (show reports.isEmpty from hempty)]
  · cases hkept

/-- With the defaults, a field of the tracked type with the rule annotation behind a keyword is
kept without a report. -/
theorem late_rule_is_left :
    ∃ (m : RuleMigration) (u : CompilationUnit) (t : TypeDecl) (d : VariableDecl),
      ofConfig {} = .ok m ∧ parse? {} "A.java" lateRuleSource = some u ∧ m.run u = (.kept, []) ∧
      u.types = [.type t] ∧ t.body.statements = [.vars d] ∧
      (∀ v ∈ d.declarators, hasClassType v.name.type "okhttp3.mockwebserver.MockWebServer") ∧
      "@org.junit.Rule" ∈ d.modifiers.map (·.word) ∧
      (readUnit lateRuleSource).any fun (items, _) =>
        hasClassType ((resolverOf items {}).resolve "org.junit.Rule") "org.junit.Rule" := by
  obtain ⟨m, u, hm, hu, hleaves⟩ := exists_of_passes passes_lateRule
  unfold leavesLateRule at hleaves
  split at hleaves
  · next t ht =>
    split at hleaves
    · next d hd =>
      simp only [Bool.and_eq_true, List.all_eq_true, List.contains_iff_mem] at hleaves
      obtain ⟨⟨⟨hkept, hempty⟩, hnames⟩, hword⟩ := hleaves
      exact ⟨m, u, t, d, hm, hu, eq_kept_of_isKept hkept hempty, ht, hd, hnames, hword,
        lateRule_resolves⟩
    · cases hleaves
  · cases hleaves

end RuleMigration

end JavaMigration.Recipe
