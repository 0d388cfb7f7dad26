import JavaMigration.Java.JavaType
import JavaMigration.Source.Space

/-!
# The lossless tree

A compilation unit as a tree that keeps every character of its source. A node holds the space
before it, the names a migration looks at with the types they resolve to, and everything else
as text. Code that no migration looks into is one raw statement.
-/

namespace JavaMigration.Source

open Java

/-- The identity of a statement among its siblings. An edit keeps it, and a statement that
joins a block gets one that the block has not used. -/
abbrev StatementId := Nat

/-- The identity of an import among the imports of its unit. -/
abbrev ImportId := Nat

/-- A name, with the type it resolves to: a declared name, a written type, the name of an
annotation or the variable a method is called on. -/
structure Identifier where
  lead : Space := .empty
  name : String
  type : Option JavaType := none
  deriving DecidableEq, Repr, Inhabited

/-- An annotation `@Name` or `@Name(args)`; the arguments include their parentheses. -/
structure Annotation where
  lead : Space
  name : Identifier
  arguments : Option String
  deriving DecidableEq, Repr, Inhabited

/-- A modifier keyword, or what else stands among the modifiers: type parameters and the
annotations after the first keyword. -/
structure Modifier where
  lead : Space
  word : String
  deriving DecidableEq, Repr, Inhabited

/-- The package declaration: the dotted name, and the text with its semicolon. -/
structure Package where
  lead : Space
  name : String
  text : String
  deriving DecidableEq, Repr, Inhabited

/-- An import; the target of one on demand ends in `.*`. -/
structure Import where
  id : ImportId
  lead : Space := .empty
  isStatic : Bool := false
  target : String
  deriving DecidableEq, Repr, Inhabited

namespace Import

def isOnDemand (i : Import) : Bool := Text.endsWith i.target ".*"

def package (i : Import) : String := packageOf i.target

def typeName (i : Import) : String := simpleName i.target

end Import

inductive TypeKind where
  | «class»
  | interface
  | enum
  deriving DecidableEq, Repr, Inhabited

def TypeKind.keyword : TypeKind → String
  | .class => "class"
  | .interface => "interface"
  | .enum => "enum"

/-- One variable of a declaration; the text after its name holds dimensions and initializer. -/
structure Declarator where
  lead : Space
  name : Identifier
  initializer : Option String
  deriving DecidableEq, Repr, Inhabited

/-- A field or local variable declaration; `close` is the space before its semicolon. -/
structure VariableDecl where
  id : StatementId
  lead : Space
  annotations : List Annotation
  modifiers : List Modifier
  type : Identifier
  declarators : List Declarator
  close : Space
  deriving DecidableEq, Repr, Inhabited

/-- What a method is called on: a single name, or any other expression as text. -/
inductive Receiver where
  | name (ident : Identifier)
  | raw (lead : Space) (text : String)
  deriving DecidableEq, Repr, Inhabited

def Receiver.type? : Receiver → Option JavaType
  | .name ident => ident.type
  | .raw .. => none

/-- A method call as a statement, `receiver.name(arguments);`. The space before the dot is
`dot`, the one before the semicolon `close`. -/
structure Call where
  id : StatementId
  lead : Space
  receiver : Option Receiver
  dot : Space
  name : Identifier
  arguments : String
  close : Space
  deriving DecidableEq, Repr, Inhabited

/-- Code kept as text. -/
structure RawCode where
  id : StatementId
  lead : Space
  text : String
  deriving DecidableEq, Repr, Inhabited

/-- A `throws` clause. -/
structure Throws where
  lead : Space
  types : List Identifier
  deriving DecidableEq, Repr, Inhabited

mutual

/-- A member of a type or a statement of a method body. -/
inductive Statement where
  | type (decl : TypeDecl)
  | method (decl : MethodDecl)
  | vars (decl : VariableDecl)
  | call (call : Call)
  | raw (code : RawCode)

/-- A class, interface or enum. The header is the text between its name and its body. -/
structure TypeDecl where
  id : StatementId
  lead : Space
  annotations : List Annotation
  modifiers : List Modifier
  kind : TypeKind
  kindLead : Space
  name : Identifier
  header : String
  body : Block
  type : Option JavaType

/-- A method. Without a body it ends in a semicolon, which `close` precedes. -/
structure MethodDecl where
  id : StatementId
  lead : Space
  annotations : List Annotation
  modifiers : List Modifier
  returnType : Identifier
  name : Identifier
  parameters : String
  throws : Option Throws
  body : Option Block
  close : Space

/-- The body of a type or of a method, in braces. -/
structure Block where
  lead : Space
  statements : List Statement
  close : Space

end

deriving instance Inhabited for Block, RawCode
instance : Inhabited Statement := ⟨.raw default⟩

structure CompilationUnit where
  lead : Space := .empty
  path : String
  package : Option Package
  imports : List Import
  types : List Statement
  close : Space
  deriving Inhabited

/-! ## Access -/

namespace Statement

def id : Statement → StatementId
  | type d => d.id
  | method d => d.id
  | vars d => d.id
  | call c => c.id
  | raw r => r.id

def lead : Statement → Space
  | type d => d.lead
  | method d => d.lead
  | vars d => d.lead
  | call c => c.lead
  | raw r => r.lead

def withLead (s : Statement) (lead : Space) : Statement :=
  match s with
  | type d => type { d with lead }
  | method d => method { d with lead }
  | vars d => vars { d with lead }
  | call c => call { c with lead }
  | raw r => raw { r with lead }

def withId (s : Statement) (id : StatementId) : Statement :=
  match s with
  | type d => type { d with id }
  | method d => method { d with id }
  | vars d => vars { d with id }
  | call c => call { c with id }
  | raw r => raw { r with id }

def isVariables : Statement → Bool
  | vars _ => true
  | _ => false

end Statement

namespace Block

def ids (b : Block) : List StatementId := b.statements.map Statement.id

/-- An identity that no statement of the block has; all larger ones are free as well. -/
def freshId (b : Block) : StatementId := b.ids.foldl (fun n i => max n (i + 1)) 0

/-- The block with statements added at its end, under identities the block has not used. -/
def append (b : Block) (new : List Statement) : Block :=
  { b with
    statements := b.statements ++ new.mapIdx fun i s => s.withId (b.freshId + i) }

end Block

/-- The types of the `throws` clause. -/
def MethodDecl.thrown (m : MethodDecl) : List Identifier :=
  match m.throws with
  | some t => t.types
  | none => []

/-- Clears the space before the first element of a declaration that has lost its first
annotation, so that the declaration goes on beginning where it did. -/
def VariableDecl.clearFirst (d : VariableDecl) : VariableDecl :=
  match d.annotations, d.modifiers with
  | a :: r, _ => { d with annotations := { a with lead := .empty } :: r }
  | [], m :: r => { d with modifiers := { m with lead := .empty } :: r }
  | [], [] => { d with type := { d.type with lead := .empty } }

/-- Keeps the leading annotations that pass the test. -/
def VariableDecl.retainAnnotations (keep : Annotation → Bool) (d : VariableDecl) :
    VariableDecl :=
  let kept := { d with annotations := d.annotations.filter keep }
  if d.annotations.head?.any (fun a => !keep a) then kept.clearFirst else kept

namespace CompilationUnit

def packageName (u : CompilationUnit) : String := (u.package.map (·.name)).getD ""

/-- An identity that no import of the unit has. -/
def freshImportId (u : CompilationUnit) : ImportId :=
  (u.imports.map (·.id)).foldl (fun n i => max n (i + 1)) 0

/-- The classes, interfaces and enums at top level. -/
def typeDecls (u : CompilationUnit) : List TypeDecl :=
  u.types.filterMap fun
    | .type d => some d
    | _ => none

end CompilationUnit

end JavaMigration.Source
