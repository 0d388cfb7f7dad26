import JavaMigration.Document.Value
import JavaMigration.Recipe.Config

/-!
# Settings from documents

The settings that a value says. A setting that is missing has its default, while a dependency
is given in full or not at all.
-/

namespace JavaMigration.Recipe

open Document

def DependencyConfig.ofValue (v : Value) : Option DependencyConfig := do
  match ← v.fields? ["group", "artifact", "selector", "known_versions"] with
  | [group, artifact, selector, known] =>
    return {
      group := ← (← group).text?
      artifact := ← (← artifact).text?
      selector := ← (← selector).text?
      known := ← (← known).texts? }
  | _ => none

namespace Config

/-- A text, or the default if there is no value. -/
def textOr (default : String) : Option Value → Option String
  | none => some default
  | some v => v.text?

/-- The dependency to upgrade: none at all if the value is null. -/
def dependencyOr (default : Option DependencyConfig) :
    Option Value → Option (Option DependencyConfig)
  | none => some default
  | some (.null _) => some none
  | some v => (DependencyConfig.ofValue v).map some

def ofValue (v : Value) : Option Config := do
  let defaults : Config := {}
  let fields ← v.fields? ["rule_annotation", "after_annotation", "tracked_type", "close_method",
    "exception_type", "method_name", "dependency"]
  match fields with
  | [rule, after, tracked, close, exception, method, dependency] =>
    return {
      ruleAnnotation := ← textOr defaults.ruleAnnotation rule
      afterAnnotation := ← textOr defaults.afterAnnotation after
      trackedType := ← textOr defaults.trackedType tracked
      closeMethod := ← textOr defaults.closeMethod close
      exceptionType := ← textOr defaults.exceptionType exception
      methodName := ← textOr defaults.methodName method
      dependency := ← dependencyOr defaults.dependency dependency }
  | _ => none

end Config

end JavaMigration.Recipe
