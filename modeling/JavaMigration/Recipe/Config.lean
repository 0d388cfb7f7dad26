import JavaMigration.Dependency.Upgrade
import JavaMigration.Java.JavaType

/-!
# Settings of the rule migration

Which annotated fields are migrated, what is generated for them, and the dependency that is
upgraded alongside. Every setting has a default.
-/

namespace JavaMigration.Recipe

open Java Dependency

/-- The dependency to upgrade, with its selector as written. -/
structure DependencyConfig where
  group : String
  artifact : String
  selector : String
  known : List String
  deriving DecidableEq, Repr, Inhabited

def DependencyConfig.upgrade (d : DependencyConfig) : Upgrade :=
  ⟨d.group, d.artifact, .ofText d.selector, d.known⟩

/-- The mock web server of the defaults. -/
def mockWebServer : DependencyConfig where
  group := "com.squareup.okhttp3"
  artifact := "mockwebserver"
  selector := "4.X"
  known :=
    ["3.14.9", "4.0.0", "4.0.1", "4.1.0", "4.2.2", "4.3.1", "4.4.1", "4.5.0", "4.6.0", "4.7.2",
      "4.8.1", "4.9.0", "4.9.1", "4.9.2", "4.9.3", "4.10.0", "4.11.0", "4.12.0"]

structure Config where
  /-- The annotation that marks a field to migrate. -/
  ruleAnnotation : String := "org.junit.Rule"
  /-- The annotation of the methods that run after each test. -/
  afterAnnotation : String := "org.junit.jupiter.api.AfterEach"
  /-- The type of the fields to migrate. -/
  trackedType : String := "okhttp3.mockwebserver.MockWebServer"
  /-- The method that closes such a field. -/
  closeMethod : String := "close"
  /-- What that method throws. -/
  exceptionType : String := "java.io.IOException"
  /-- The name of a generated method. -/
  methodName : String := "afterEachTest"
  dependency : Option DependencyConfig := some mockWebServer
  deriving DecidableEq, Repr, Inhabited

/-- What is wrong with settings. -/
inductive ConfigFault where
  /-- The setting `key` is no dotted name. -/
  | unqualified (key value : String)
  | emptyName
  deriving DecidableEq, Repr, Inhabited

def ConfigFault.message : ConfigFault → String
  | unqualified key value =>
    "Invalid configuration: " ++ key ++ " must be a fully-qualified type name, got `" ++ value ++
      "`"
  | emptyName => "Invalid configuration: close_method and method_name must not be empty"

/-- Whether a name has a dot in it and none at either end. -/
def isQualified (name : String) : Bool :=
  name.toList.contains '.' && !Text.startsWith name "." && !Text.endsWith name "."

namespace Config

/-- The settings that name types, with their keys. -/
def typeNames (c : Config) : List (String × String) :=
  [("rule_annotation", c.ruleAnnotation), ("after_annotation", c.afterAnnotation),
    ("tracked_type", c.trackedType), ("exception_type", c.exceptionType)]

/-- The first thing that is wrong with the settings. -/
def fault? (c : Config) : Option ConfigFault :=
  match c.typeNames.find? fun p => !isQualified p.2 with
  | some (key, value) => some (.unqualified key value)
  | none => if c.closeMethod.isEmpty || c.methodName.isEmpty then some .emptyName else none

end Config

end JavaMigration.Recipe
