import JavaMigration.Java.Grammar
import JavaMigration.Source.Basic

/-!
# From source to tree

A source is read into syntax trees, the types it declares and imports make up its resolver, and
the syntax trees become the lossless tree with every type reference resolved. A declaration
whose parts a migration looks into becomes a node, all other code one raw statement.
-/

namespace JavaMigration.Java

open Source

/-! ## The resolver of a source -/

/-- The source name of a type nested in `outer`, which is empty at top level. -/
def nestedName (outer name : String) : String :=
  if outer.isEmpty then name else outer ++ "." ++ name

mutual

/-- The source names of the types declared in some declarations, in source order. -/
def declaredNames (outer : String) : List Syntax → List String
  | [] => []
  | s :: rest => namesOf outer s ++ declaredNames outer rest

def namesOf (outer : String) : Syntax → List String
  | .node .typeDecl [_, _, .leaf name, _, body] =>
    nestedName outer name.text :: bodyNames (nestedName outer name.text) body
  | .node .recordDecl [_, _, .leaf name, _, body] =>
    nestedName outer name.text :: bodyNames (nestedName outer name.text) body
  | .node .annotationDecl [_, _, .leaf name, body] =>
    nestedName outer name.text :: bodyNames (nestedName outer name.text) body
  | _ => []

def bodyNames (outer : String) : Syntax → List String
  | .node _ [_, .node _ items, _] => declaredNames outer items
  | .node _ [_, _, .node _ items, _] => declaredNames outer items
  | _ => []

end

/-- The dotted name of a package declaration. -/
def packageNameOf (parts : List Syntax) : String :=
  textOf (parts.filter fun
    | .node .qualified _ => true
    | _ => false)

/-- Whether an import is static, and its target as written but without the spaces around `.*`. -/
def importOf (parts : List Syntax) : Bool × String :=
  match parts with
  | _ :: .leaf _ :: name :: rest => (true, textOf [name] ++ onDemand rest)
  | _ :: name :: rest => (false, textOf [name] ++ onDemand rest)
  | _ => (false, "")
where
  onDemand (rest : List Syntax) : String := if rest.length = 3 then ".*" else ""

/-- The names a source has in scope: its first package declaration, its non-static imports and
all the types it declares. -/
def resolverOf (items : List Syntax) (classpath : Classpath) : Resolver :=
  let package := (items.findSome? fun
    | .node .packageDecl parts => some (packageNameOf parts)
    | _ => none).getD ""
  let imports := items.filterMap fun
    | .node .importDecl parts =>
      match importOf parts with
      | (false, target) => some target
      | _ => none
    | _ => none
  let resolver : Resolver := { package, classpath }
  (declaredNames "" items).foldl Resolver.declare (imports.foldl Resolver.addImport resolver)

/-! ## Scopes -/

/-- The variables of one class or method with their types, the latest first. -/
abbrev Scope := List (String × Option JavaType)

/-- What the code at one place refers to: the resolver, the scopes from the innermost outwards
and the source name of the enclosing type. -/
structure Environment where
  resolver : Resolver
  scopes : List Scope := []
  owner : String := ""

namespace Environment

def enter (env : Environment) (scope : Scope) : Environment :=
  { env with scopes := scope :: env.scopes }

/-- Binds variables in the innermost scope. -/
def bind (env : Environment) (vars : Scope) : Environment :=
  match env.scopes with
  | [] => env
  | s :: outer => { env with scopes := (vars.reverse ++ s) :: outer }

/-- The type of the nearest variable of that name. -/
def lookup (env : Environment) (name : String) : Option JavaType :=
  (env.scopes.findSome? (·.lookup name)).join

end Environment

/-- The variables a statement declares in the scope around it. -/
def bindingsOf : Statement → Scope
  | .vars d => d.declarators.map fun v => (v.name.name, v.name.type)
  | _ => []

/-- The type of a declarator, whose name may carry further dimensions. -/
def declaratorType (type : Option JavaType) (dims : List Syntax) : Option JavaType :=
  if dims.isEmpty then type else type.map (·.arrayOf (dimensions (textOf dims)))

/-- The variables of some field declarations. -/
def fieldScope (resolver : Resolver) (items : List Syntax) : Scope :=
  (items.flatMap fun
    | .node .vars [_, type, .node _ declarators, _] =>
      declarators.filterMap fun
        | .node _ (.leaf name :: .node _ dims :: _) =>
          some (name.text, declaratorType (resolver.resolve (textOf [type])) dims)
        | _ => none
    | _ => []).reverse

/-- The variables of the body of a type. -/
def bodyScope (resolver : Resolver) : Syntax → Scope
  | .node _ [_, .node _ items, _] => fieldScope resolver items
  | .node _ [_, _, .node _ items, _] => fieldScope resolver items
  | _ => []

/-- The variables of a parameter list. Only plain parameters are bound. -/
def parameterScope (resolver : Resolver) (parameters : List Syntax) : Scope :=
  (parameters.filterMap fun
    | .node .formal [_, type, .leaf name, _] =>
      some (name.text, resolver.resolve (textOf [type]))
    | _ => none).reverse

/-! ## Parts of declarations -/

mutual

/-- The syntax tree without the space before its first lexeme. -/
def Syntax.clearLead : Syntax → Syntax
  | .leaf l => .leaf { l with lead := .empty }
  | .node p cs => .node p (Java.clearLead cs)

/-- The syntax trees without the space before their first lexeme. -/
def clearLead : List Syntax → List Syntax
  | [] => []
  | s :: rest =>
    match s with
    | .node _ [] => s :: clearLead rest
    | _ => s.clearLead :: rest

end

/-- A written type with the type it resolves to. -/
def identifierOf (resolver : Resolver) (s : Syntax) : Identifier :=
  { lead := leadOf [s], name := textOf [s], type := resolver.resolve (textOf [s]) }

def annotation? (resolver : Resolver) : Syntax → Option Annotation
  | .node .annot (.leaf mark :: name :: arguments) =>
    some {
      lead := mark.lead
      name := identifierOf resolver name
      arguments := if arguments.isEmpty then none else some (printSyntax arguments) }
  | _ => none

def modifierOf (s : Syntax) : Modifier := { lead := leadOf [s], word := textOf [s] }

/-- Splits modifiers into the annotations they begin with and the rest. -/
def leadingOf (resolver : Resolver) : List Syntax → List Annotation × List Modifier
  | [] => ([], [])
  | s :: rest =>
    match annotation? resolver s with
    | some a =>
      let (annotations, modifiers) := leadingOf resolver rest
      (a :: annotations, modifiers)
    | none => ([], (s :: rest).map modifierOf)

def rawOf (id : StatementId) (cs : List Syntax) : Statement :=
  .raw { id, lead := leadOf cs, text := textOf cs }

def declaratorOf (resolver : Resolver) (type : Syntax) : Syntax → Option Declarator
  | .node .declarator (.leaf name :: .node d dims :: rest) =>
    let tail := printSyntax (.node d dims :: rest)
    some {
      lead := name.lead
      name := {
        name := name.text
        type := declaratorType (resolver.resolve (textOf [type])) dims }
      initializer := if tail.isEmpty then none else some tail }
  | _ => none

def variablesOf (resolver : Resolver) (id : StatementId) (modifiers : List Syntax)
    (type : Syntax) (declarators : List Syntax) (close : Lexeme) : VariableDecl :=
  let (annotations, words) := leadingOf resolver (clearLead modifiers)
  let written := identifierOf resolver type
  { id
    lead := leadOf (modifiers ++ [type])
    annotations
    modifiers := words
    type := if modifiers.isEmpty then { written with lead := .empty } else written
    declarators := declarators.filterMap (declaratorOf resolver type)
    close := close.lead }

def throwsOf (resolver : Resolver) : List Syntax → Option Throws
  | .leaf key :: types =>
    some {
      lead := key.lead
      types := types.filterMap fun
        | .node p cs => some (identifierOf resolver (.node p cs))
        | .leaf _ => none }
  | _ => none

/-- Whether an operand is, or ends in, `super`. -/
def endsInSuper (object : List Syntax) : Bool :=
  match object.getLast? with
  | some (.leaf l) => l.text == "super"
  | some (.node .outerSuper _) => true
  | _ => false

def receiverOf (env : Environment) (object : List Syntax) : Receiver :=
  match object with
  | [.leaf l] =>
    if l.kind == .word && !Grammar.operandWords.contains l.text then
      .name { name := l.text, type := env.lookup l.text }
    else .raw .empty l.text
  | _ => .raw .empty (textOf object)

/-- The call an operand makes up, if it is `name(args)` or `object.name(args)`. -/
def callOf (env : Environment) (id : StatementId) (operand : List Syntax) (close : Lexeme) :
    Option Call :=
  match operand.dropLast, operand.getLast? with
  | [], some (.node .call [.leaf name, arguments]) =>
    some {
      id
      lead := name.lead
      receiver := none
      dot := .empty
      name := { name := name.text }
      arguments := printSyntax [arguments]
      close := close.lead }
  | object, some (.node .callOn [.leaf dot, .leaf name, arguments]) =>
    if endsInSuper object then none
    else
      some {
        id
        lead := leadOf object
        receiver := some (receiverOf env object)
        dot := dot.lead
        name := { lead := name.lead, name := name.text }
        arguments := printSyntax [arguments]
        close := close.lead }
  | _, _ => none

/-! ## Enum bodies -/

def isSemicolon : Syntax → Bool
  | .leaf _ => true
  | .node .. => false

/-- The part of an enum's members up to its last semicolon. -/
def throughLastSemicolon (members : List Syntax) : List Syntax :=
  (members.reverse.dropWhile (!isSemicolon ·)).reverse

/-- The semicolons behind the last member. -/
def semicolonsBehind (members : List Syntax) : List Syntax :=
  (members.reverse.takeWhile isSemicolon).reverse

/-! ## Statements -/

mutual

def statementOf (env : Environment) (id : StatementId) : Syntax → Statement
  | .node .typeDecl [.node m modifiers, .leaf key, .leaf name, header, body] =>
    let source := nestedName env.owner name.text
    let type := some (JavaType.ofClass (env.resolver.qualify source))
    let (annotations, words) := leadingOf env.resolver (clearLead modifiers)
    .type {
      id
      lead := leadOf [.node m modifiers, .leaf key]
      annotations
      modifiers := words
      kind :=
        if key.text == "interface" then .interface
        else if key.text == "enum" then .enum
        else .class
      kindLead := if modifiers.isEmpty then .empty else key.lead
      name := { lead := name.lead, name := name.text, type }
      header := printSyntax [header]
      body :=
        blockOf ({ env with owner := source }.enter (bodyScope env.resolver body)) body
      type }
  | .node .vars [.node _ modifiers, type, .node _ declarators, .leaf close] =>
    .vars (variablesOf env.resolver id modifiers type declarators close)
  | .node .method [.node _ modifiers, .node _ generic, type, .leaf name, .node p parameters,
      dims, .node _ throwing, body] =>
    let (annotations, words) := leadingOf env.resolver (clearLead modifiers)
    let generic' := if modifiers.isEmpty then clearLead generic else generic
    let written := identifierOf env.resolver type
    let between := printSyntax (generic'.drop 1)
    .method {
      id
      lead := leadOf (modifiers ++ generic ++ [type])
      annotations
      modifiers := words ++ (generic'.take 1).map modifierOf
      returnType :=
        if modifiers.isEmpty && generic.isEmpty then { written with lead := .empty }
        else { written with lead := ⟨between ++ written.lead.text⟩ }
      name := { lead := name.lead, name := name.text }
      parameters := printSyntax [.node p parameters, dims]
      throws := throwsOf env.resolver throwing
      body :=
        match body with
        | .node b cs => some (blockOf (env.enter (parameterScope env.resolver parameters)) (.node b cs))
        | .leaf _ => none
      close :=
        match body with
        | .node .. => .empty
        | .leaf l => l.lead }
  | .node .expressionStatement [.node e [.node o operand], .leaf close] =>
    match callOf env id operand close with
    | some call => .call call
    | none => rawOf id [.node e [.node o operand], .leaf close]
  | s => rawOf id [s]

/-- The statements of a body, each under the variables that those before it declare. -/
def statementsOf (env : Environment) (id : StatementId) : List Syntax → List Statement
  | [] => []
  | s :: rest =>
    let statement := statementOf env id s
    statement :: statementsOf (env.bind (bindingsOf statement)) (id + 1) rest

/-- The members of an enum behind its constants. A semicolon behind a member is part of the
space before the next one, which is `before`; until the first member there is none. The first
member has no space if the text of the constants reaches over it. -/
def enumMembersOf (env : Environment) (id : StatementId) (before : Option String) :
    List Syntax → List Statement
  | [] => []
  | .leaf l :: rest => enumMembersOf env id (before.map (· ++ l.print)) rest
  | .node p cs :: rest =>
    let statement := statementOf env id (.node p cs)
    let lead : Space :=
      match before with
      | some text => ⟨text ++ statement.lead.text⟩
      | none => if rest.any isSemicolon then .empty else statement.lead
    statement.withLead lead ::
      enumMembersOf (env.bind (bindingsOf statement)) (id + 1) (some "") rest

/-- A body in braces. The constants of an enum are one raw statement, which reaches to the last
semicolon of the body. -/
def blockOf (env : Environment) : Syntax → Block
  | .node _ [.leaf first, .node _ items, .leaf last] =>
    { lead := first.lead, statements := statementsOf env 0 items, close := last.lead }
  | .node _ [.leaf first, .node _ constants, .node _ members, .leaf last] =>
    let head := constants ++ throughLastSemicolon members
    let behind := if members.all isSemicolon then [] else semicolonsBehind members
    { lead := first.lead
      statements :=
        (if head.isEmpty then [] else [rawOf 0 head]) ++ enumMembersOf env 1 none members
      close := ⟨printSyntax behind ++ last.lead.text⟩ }
  | s => { lead := leadOf [s], statements := [], close := .empty }

end

/-! ## The compilation unit -/

/-- The package declaration; of several the last one. -/
def packageOfItems (items : List Syntax) : Option Package :=
  (items.filterMap fun
    | .node .packageDecl parts =>
      some { lead := leadOf parts, name := packageNameOf parts, text := textOf parts }
    | _ => none).getLast?

def importsOf (items : List Syntax) : List Import :=
  (items.filterMap fun
    | .node .importDecl parts => some parts
    | _ => none).mapIdx fun id parts =>
      let (isStatic, target) := importOf parts
      { id, lead := leadOf parts, isStatic, target }

/-- At top level only the type declarations become nodes. -/
def topLevelOf (env : Environment) (items : List Syntax) : List Statement :=
  (items.filter fun
    | .node .packageDecl _ => false
    | .node .importDecl _ => false
    | _ => true).mapIdx fun id s =>
      match s with
      | .node .typeDecl _ => statementOf env id s
      | _ => rawOf id [s]

def unitOf (resolver : Resolver) (path : String) (items : List Syntax) (close : Space) :
    CompilationUnit :=
  { path
    package := packageOfItems items
    imports := importsOf items
    types := topLevelOf { resolver } items
    close }

/-- Reads a source as the file `path`; `none` if it is no Java. -/
def parse? (classpath : Classpath) (path source : String) : Option CompilationUnit :=
  (readUnit source).map fun (items, close) => unitOf (resolverOf items classpath) path items close

end JavaMigration.Java
