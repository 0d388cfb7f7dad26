import JavaMigration.Edit.Imports
import JavaMigration.Edit.Template
import JavaMigration.Match.Condition
import JavaMigration.Match.Pattern
import JavaMigration.Recipe.Config
import JavaMigration.Recipe.Context

/-!
# Migrating rule fields

A field of the tracked type with the rule annotation loses that annotation, and its class
closes it after each test: at the end of its last method with the after annotation, or in a new
one. Fields and methods leave a message at their class; the class acts on them when everything
in it has been visited. A class that cannot be changed stays as it was, with all that is nested
in it, and is reported.
-/

namespace JavaMigration.Recipe

open Java Source Match Edit

/-- Why there is no recipe for some settings. -/
inductive RecipeFault where
  | config (fault : ConfigFault)
  /-- The code generated from the settings is no template. -/
  | template (code : String) (fault : TemplateFault)
  deriving DecidableEq, Repr, Inhabited

def RecipeFault.message : RecipeFault → String
  | config fault => fault.message
  | template code fault => "Invalid template `" ++ code ++ "`: " ++ fault.message

structure RuleMigration where
  config : Config
  rule : AnnotationPattern
  after : AnnotationPattern
  tracked : TypePattern
  /-- A method that closes the field. -/
  newMethod : Template
  /-- A statement that closes the field. -/
  closeStatement : Template
  /-- What the statement throws. -/
  thrown : Template
  deriving Inhabited

namespace RuleMigration

/-! ## Setting up -/

def newMethodCode (c : Config) : String :=
  "@" ++ simpleName c.afterAnnotation ++ "\nvoid " ++ c.methodName ++ "() throws " ++
    simpleName c.exceptionType ++ " \x7b#\x7bany(" ++ c.trackedType ++ ")\x7d." ++ c.closeMethod ++
    "();\n\x7d"

def closeCode (c : Config) : String :=
  "#\x7bany(" ++ c.trackedType ++ ")\x7d." ++ c.closeMethod ++ "();"

def buildTemplate (code : String) (imports : List String) : Except RecipeFault Template :=
  (Template.build code imports).mapError (RecipeFault.template code)

/-- The recipe for some settings. -/
def ofConfig (c : Config) : Except RecipeFault RuleMigration := do
  if let some fault := c.fault? then throw (.config fault)
  return {
    config := c
    rule := .ofSignature c.ruleAnnotation
    after := .ofSignature c.afterAnnotation
    tracked := ⟨c.trackedType⟩
    newMethod := ← buildTemplate (newMethodCode c)
      [c.afterAnnotation, c.exceptionType, c.trackedType]
    closeStatement := ← buildTemplate (closeCode c) [c.trackedType]
    thrown := ← buildTemplate (simpleName c.exceptionType) [c.exceptionType] }

variable (m : RuleMigration)

def name : String := "rule-to-lifecycle-method"

def displayName : String :=
  simpleName m.config.trackedType ++ " @" ++ simpleName m.config.ruleAnnotation ++ " to @" ++
    simpleName m.config.afterAnnotation

def description : String :=
  "Removes @" ++ simpleName m.config.ruleAnnotation ++ " from " ++
    simpleName m.config.trackedType ++ " fields and calls " ++ m.config.closeMethod ++
    "() on them in an @" ++ simpleName m.config.afterAnnotation ++ " method."

/-- The types a reader of units should know, so that imports of them on demand resolve. -/
def classpath : List String :=
  [m.config.ruleAnnotation, m.config.afterAnnotation, m.config.trackedType,
    m.config.exceptionType]

/-- The upgrades to make once per project. -/
def upgrades : List Dependency.Upgrade := m.config.dependency.toList.map (·.upgrade)

/-- The units the migration looks at. -/
def condition : Condition :=
  .all [.usesType m.config.ruleAnnotation, .usesType m.config.trackedType]

/-! ## Closing a field -/

/-- Puts a statement in place of the first one with an identity. -/
def replaceById (id : StatementId) (new : Statement) : List Statement → List Statement
  | [] => []
  | s :: r => if s.id = id then new :: r else s :: replaceById id new r

/-- Adds a close statement to a method with a body, and the exception to its `throws` clause
unless it is there. The names are types to import. -/
def closeIn {μ : Type} (method : MethodDecl) (field : Identifier) (cursor : Cursor μ) :
    Except ApplyFault (MethodDecl × List String) := do
  let closed ← m.closeStatement.apply (cursor.push (.method method)) .last [.identifier field]
  let .method method := closed | throw .noTarget
  if method.thrown.any fun t => hasClassType t.type m.config.exceptionType then
    return (method, [])
  let declared ← m.thrown.apply (cursor.push (.method method)) .throws []
  let .method method := declared | throw .noTarget
  return (method, [m.config.exceptionType])

/-- Closes a field in the class at the cursor, in the method with an identity or else in a new
one. A method without a body is left alone. The names are types to import. -/
def closeField {μ : Type} (d : TypeDecl) (field : Identifier) (method : Option StatementId)
    (cursor : Cursor μ) : Except ApplyFault (TypeDecl × List String) := do
  match method with
  | none =>
    let .type new ← m.newMethod.apply cursor .last [.identifier field] | throw .noTarget
    return (new, m.newMethod.imports.filter (· != m.config.trackedType))
  | some id =>
    match d.body.statements.find? (·.id == id) with
    | some (.method method) =>
      if method.body.isNone then return (d, [])
      let (method, imports) ← m.closeIn method field cursor
      let statements := replaceById id (.method method) d.body.statements
      return ({ d with body := { d.body with statements } }, imports)
    | _ => return (d, [])

/-! ## Visiting -/

/-- What a class is told about its members. -/
inductive Finding where
  /-- A field that lost its annotation. -/
  | field (ident : Identifier)
  /-- A method that runs after each test. -/
  | afterMethod (id : StatementId)
  deriving DecidableEq, Repr, Inhabited

def Finding.field? : Finding → Option Identifier
  | field ident => some ident
  | afterMethod _ => none

def Finding.afterMethod? : Finding → Option StatementId
  | field _ => none
  | afterMethod id => some id

def fieldKey : String := "tracked-variable"

def afterMethodKey : String := "after-method"

/-- What a traversal collects. -/
structure Progress where
  imports : ImportEdits := {}
  diagnostics : List Diagnostic := []
  deriving DecidableEq, Repr, Inhabited

abbrev Migrating (α : Type) : Type := Walk Finding Progress α

def setImports (imports : ImportEdits) : Migrating Unit := do
  Walk.setOwn { ← Walk.own with imports }

/-- Takes the rule annotations off a declaration of the tracked type and tells its class. -/
def visitVariables (d : VariableDecl) : Migrating (Revision VariableDecl) := do
  if !m.tracked.matchesVariables d then return .kept
  let stripped := d.retainAnnotations fun a => !m.rule.matchesAnnotation a
  if stripped.annotations.length = d.annotations.length then return .kept
  if let some first := stripped.declarators.head? then
    let _ ← Walk.post .type fieldKey (.field first.name)
  return .replaced stripped

/-- Tells the class of a method that runs after each test. -/
def visitMethod (d : MethodDecl) (walk : Migrating (Revision MethodDecl)) :
    Migrating (Revision MethodDecl) := do
  let visited ← walk
  if (visited.get d).annotations.any m.after.matchesAnnotation then
    let _ ← Walk.post .type afterMethodKey (.afterMethod d.id)
  return visited

/-- Closes the last field that lost its annotation. If that fails, the class is reported, and
nothing in it changes. -/
def visitType (path : String) (d : TypeDecl) (walk : Migrating (Revision TypeDecl)) :
    Migrating (Revision TypeDecl) := do
  let pending := (← Walk.own).imports
  let visited ← walk
  let field ← Walk.poll Finding.field? fieldKey
  let method ← Walk.poll Finding.afterMethod? afterMethodKey
  match field with
  | none => return visited
  | some field =>
    match m.closeField (visited.get d) field method (← Walk.cursor) with
    | .ok (closed, added) =>
      let imports := added.foldl ImportEdits.add (← Walk.own).imports
      setImports (imports.remove m.config.ruleAnnotation)
      return .replaced closed
    | .error fault =>
      let own ← Walk.own
      let diagnostic : Diagnostic := ⟨path, d.name.name, fault.message⟩
      Walk.setOwn { imports := pending, diagnostics := own.diagnostics ++ [diagnostic] }
      return .kept

/-- Edits the imports once everything else is done. -/
def visitUnit (u : CompilationUnit) (walk : Migrating (Revision CompilationUnit)) :
    Migrating (Revision CompilationUnit) := do
  setImports {}
  let visited ← walk
  match (← Walk.own).imports.apply (visited.get u) with
  | .kept => return visited
  | .replaced new => return .replaced new

def visitor (path : String) : Visitor Finding Progress where
  unit := visitUnit
  type := m.visitType path
  method := m.visitMethod
  vars := m.visitVariables

/-- Migrates a unit whether or not it meets the condition. -/
def migrate (u : CompilationUnit) : Revision CompilationUnit × List Diagnostic :=
  let (revision, progress) := (m.visitor u.path).run {} u
  (revision, progress.diagnostics)

/-- Migrates a unit that meets the condition and keeps any other. -/
def run (u : CompilationUnit) : Revision CompilationUnit × List Diagnostic :=
  if m.condition.holds u then m.migrate u else (.kept, [])

end RuleMigration

end JavaMigration.Recipe
