import JavaMigration.Proofs.Recipe.Generated
import JavaMigration.Proofs.Recipe.Settled

/-!
# The condition hides nothing

The condition of a recipe asks for the names of the rule annotation and of the tracked type, by a
search that knows nothing of the migration. A rule field has names of both. So a unit that does
not meet the condition has no rule field at any depth, and migrating it would change nothing.
-/

namespace JavaMigration.Recipe

open Java Source Match Edit

namespace RuleMigration

variable {c : Config} {m : RuleMigration}

theorem holds_condition_iff {u : CompilationUnit} :
    m.condition.holds u ↔
      u.anyPiece (mentions m.config.ruleAnnotation) ∧ u.anyPiece (mentions m.config.trackedType) := by
  simp [condition, Condition.holds, Condition.holdAll]

/-- The names of a rule field are the ones that the condition asks for. -/
theorem holds_condition_of_isRuleField (hmade : MadeFrom c m)
    (hname : (AnnotationPattern.ofSignature c.ruleAnnotation).name = c.ruleAnnotation)
    {u : CompilationUnit} {d : VariableDecl} (hd : d ∈ allVarsOf u.types) (h : m.isRuleField d) :
    m.condition.holds u := by
  obtain ⟨htracked, hrule⟩ := Bool.and_eq_true_iff.mp h
  obtain ⟨htype, -⟩ := Bool.and_eq_true_iff.mp htracked
  obtain ⟨a, ha, hmatches⟩ := List.any_eq_true.mp hrule
  have hpieces : d.pieces ⊆ u.pieces := fun p hp =>
    List.mem_append_right _ (pieces_subset_of_mem_allVarsOf hd hp)
  rw [AnnotationPattern.matchesAnnotation, hmade.rule, hname] at hmatches
  rw [hmade.tracked, TypePattern.matchesType] at htype
  rw [holds_condition_iff, hmade.config]
  constructor
  · exact List.any_eq_true.mpr ⟨_, hpieces (d.annotation_mem_pieces ha), hmatches⟩
  · exact List.any_eq_true.mpr ⟨_, hpieces d.type_mem_pieces, htype⟩

theorem quiet_of_not_condition (hmade : MadeFrom c m)
    (hname : (AnnotationPattern.ofSignature c.ruleAnnotation).name = c.ruleAnnotation)
    {u : CompilationUnit} (h : m.condition.holds u = false) : m.Quiet u.types := by
  intro d hd
  rw [Bool.eq_false_iff]
  intro hrule
  have hholds := holds_condition_of_isRuleField hmade hname hd hrule
  rw [h] at hholds
  exact Bool.false_ne_true hholds

theorem migrate_of_quiet {u : CompilationUnit} (h : m.Quiet u.types) : m.migrate u = (.kept, []) := by
  rw [migrate_of_allSettled (quiet_iff.mp h).1, h.reports_eq]

theorem run_eq_migrate (hmade : MadeFrom c m)
    (hname : (AnnotationPattern.ofSignature c.ruleAnnotation).name = c.ruleAnnotation)
    (u : CompilationUnit) : m.run u = m.migrate u := by
  unfold run
  by_cases h : m.condition.holds u
  · rw [if_pos h]
  · rw [if_neg h, migrate_of_quiet (quiet_of_not_condition hmade hname (Bool.eq_false_iff.mpr h))]

/-- A unit that does not meet the condition is one that the migration would keep without a report,
and so the condition makes no difference to any unit. -/
theorem condition_is_transparent (hm : ofConfig c = .ok m)
    (hname : (AnnotationPattern.ofSignature c.ruleAnnotation).name = c.ruleAnnotation)
    (u : CompilationUnit) :
    (m.condition.holds u = false → m.migrate u = (.kept, [])) ∧ m.run u = m.migrate u := by
  have hmade := madeFrom_of_ofConfig hm
  constructor
  · intro h
    exact migrate_of_quiet (quiet_of_not_condition hmade hname h)
  · exact run_eq_migrate hmade hname u

/-- A class whose field has the type to look for, and another annotation. -/
def otherRuleSource : String := "class A \x7b @x.R b.S s; \x7d"

set_option maxRecDepth 100000 in
theorem passes_otherRule : passes shortConfig otherRuleSource fun m u => !m.condition.holds u :=
  ordinary_short.passes (by decide +kernel)

theorem ofSignature_short : (AnnotationPattern.ofSignature shortConfig.ruleAnnotation).name =
    shortConfig.ruleAnnotation := by decide

theorem other_rule_is_rejected :
    ∃ (m : RuleMigration) (u : CompilationUnit),
      ofConfig shortConfig = .ok m ∧ parse? {} "A.java" otherRuleSource = some u ∧
      m.condition.holds u = false ∧ m.migrate u = (.kept, []) ∧ m.run u = m.migrate u := by
  obtain ⟨m, u, hm, hu, hrejects⟩ := exists_of_passes passes_otherRule
  have hholds : m.condition.holds u = false := by simpa using hrejects
  obtain ⟨hrejected, hrun⟩ := condition_is_transparent hm ofSignature_short u
  exact ⟨m, u, hm, hu, hholds, hrejected hholds, hrun⟩

end RuleMigration

end JavaMigration.Recipe
