import JavaMigration.Proofs.Java.Words
import JavaMigration.Proofs.Text.Pieces
import JavaMigration.Recipe.RuleMigration

/-!
# Settings and the recipe made from them

What a recipe holds of its settings, and the settings from which code is generated that reads as
intended: a method under one annotation, and a call.
-/

namespace JavaMigration.Java

open Text

/-- The simple name is one of the parts of a name between its dots. -/
theorem simpleName_mem_pieces (name : String) :
    (simpleName name).toList ∈ pieces '.' name.toList ∧ (simpleName name).toList ⊆ name.toList := by
  unfold simpleName splitLast
  obtain ⟨hnone, hpieces⟩ | ⟨before, last, front, hsome, -, hpieces, hsubset⟩ :=
    cutLast_cases '.' name.toList
  · rw [hnone, hpieces]
    exact ⟨List.mem_singleton.mpr rfl, List.Subset.refl _⟩
  · rw [hsome, hpieces]
    simp [hsubset]

end JavaMigration.Java

namespace JavaMigration.Recipe

open Java Source Match Edit

/-- Settings whose names are plain ones: the rule annotation is written as annotations are compared,
the after annotation is a dotted Java name, the methods are Java identifiers, and no other name
brings an at-sign into the generated code. -/
structure Config.Plain (c : Config) : Prop where
  rule : (AnnotationPattern.ofSignature c.ruleAnnotation).name = c.ruleAnnotation
  after : (Text.pieces '.' c.afterAnnotation.toList).all isIdentifier
  tracked : '@' ∉ c.trackedType.toList
  exception : '@' ∉ c.exceptionType.toList
  close : isIdentifier c.closeMethod.toList
  method : isIdentifier c.methodName.toList

namespace Config.Plain

variable {c : Config}

theorem simpleName_after (h : c.Plain) : isIdentifier (simpleName c.afterAnnotation).toList :=
  List.all_eq_true.mp h.after _ (simpleName_mem_pieces c.afterAnnotation).1

theorem at_not_mem_after (h : c.Plain) : '@' ∉ c.afterAnnotation.toList := by
  intro hmem
  have hdot : '@' ≠ '.' := by decide
  obtain ⟨p, hp, hat⟩ := Text.mem_pieces hdot hmem
  have hident := List.all_eq_true.mp h.after p hp
  exact not_mem_of_isIdentifier hident (by decide) (by decide) hat

end Config.Plain

namespace RuleMigration

/-- What a recipe holds of its settings. -/
structure MadeFrom (c : Config) (m : RuleMigration) : Prop where
  config : m.config = c
  rule : m.rule = .ofSignature c.ruleAnnotation
  tracked : m.tracked = ⟨c.trackedType⟩
  newMethod : Template.build (newMethodCode c)
    [c.afterAnnotation, c.exceptionType, c.trackedType] = .ok m.newMethod
  closeStatement : Template.build (closeCode c) [c.trackedType] = .ok m.closeStatement

theorem build_of_buildTemplate {code : String} {imports : List String} {t : Template}
    (h : buildTemplate code imports = .ok t) : Template.build code imports = .ok t := by
  unfold buildTemplate at h
  cases hbuild : Template.build code imports with
  | error fault =>
    rw [hbuild] at h
    cases h
  | ok u =>
    rw [hbuild] at h
    cases h
    rfl

theorem madeFrom_of_ofConfig {c : Config} {m : RuleMigration} (h : ofConfig c = .ok m) :
    MadeFrom c m := by
  unfold ofConfig at h
  cases hfault : c.fault? with
  | some fault =>
    rw [hfault] at h
    cases h
  | none =>
    rw [hfault] at h
    cases hmethod : buildTemplate (newMethodCode c)
        [c.afterAnnotation, c.exceptionType, c.trackedType] with
    | error fault => simp [hmethod, bind, Except.bind] at h
    | ok newMethod =>
      cases hclose : buildTemplate (closeCode c) [c.trackedType] with
      | error fault => simp [hmethod, hclose, bind, Except.bind] at h
      | ok closeStatement =>
        cases hthrown : buildTemplate (simpleName c.exceptionType) [c.exceptionType] with
        | error fault => simp [hmethod, hclose, hthrown, bind, Except.bind] at h
        | ok thrown =>
          simp only [hmethod, hclose, hthrown, bind, Except.bind, pure, Except.pure,
            Except.ok.injEq] at h
          subst h
          exact ⟨rfl, rfl, rfl, build_of_buildTemplate hmethod, build_of_buildTemplate hclose⟩

end RuleMigration

end JavaMigration.Recipe
