import JavaMigration.Edit.Layout
import JavaMigration.Java.Parse

/-!
# Code templates

A template is a piece of Java with placeholders. The placeholder `#{any(a.B)}` takes a node of
type `a.B`, the placeholder `#{}` any node. A template is read once, with nothing in scope but
its own imports, and then stands for a type reference, for members of a type or for statements.
Applying it to the node at a cursor gives a copy of that node with the template at its end.
-/

namespace JavaMigration.Edit

open Java Source

/-! ## Placeholders -/

/-- A place in the code, read under the name `token`, for a node of a type. -/
structure Placeholder where
  token : String
  type? : Option String
  deriving DecidableEq, Repr, Inhabited

def dropBlanks (s : List Char) : List Char := s.dropWhile Text.isBlank

/-- Reads `any(type)`; the type may be missing. -/
def readAny (s : List Char) : Option (String × List Char) := do
  let s := dropBlanks (← Text.dropStart? ['a', 'n', 'y', '('] s)
  let isTypeChar (c : Char) : Bool := Text.isWordChar c || c == '.' || c == '$'
  let rest ← Text.dropStart? [')'] (dropBlanks (s.dropWhile isTypeChar))
  return (String.ofList (s.takeWhile isTypeChar), dropBlanks rest)

/-- Reads a placeholder behind its opening brace. -/
def readPlaceholder (s : List Char) : Option (Option String × List Char) :=
  let s := dropBlanks s
  match readAny s with
  | some (type, '\x7d' :: rest) => some (if type.isEmpty then none else some type, rest)
  | _ =>
    match s with
    | '\x7d' :: rest => some (none, rest)
    | _ => none

/-- Puts the token of each placeholder in its place. The list bounds the number of steps and
`n` counts the placeholders so far. -/
def replacePlaceholders (n : Nat) : List Char → List Char → List Char × List Placeholder
  | [], s => (s, [])
  | _ :: _, [] => ([], [])
  | _ :: bound, c :: r =>
    let placeholder := if c == '#' then Text.dropStart? ['\x7b'] r >>= readPlaceholder else none
    match placeholder with
    | some (type?, rest) =>
      let token := "__p" ++ toString n ++ "__"
      let (code, more) := replacePlaceholders (n + 1) bound rest
      (token.toList ++ code, { token, type? } :: more)
    | none =>
      let (code, more) := replacePlaceholders n bound r
      (c :: code, more)

/-- The code with tokens for its placeholders, and the placeholders. -/
def placeholdersOf (code : String) : String × List Placeholder :=
  let (code, placeholders) := replacePlaceholders 0 code.toList code.toList
  (String.ofList code, placeholders)

/-! ## Templates -/

/-- What the code of a template stands for. -/
inductive Shape where
  | typeReference (ident : Identifier)
  | members (statements : List Statement)
  | statements (statements : List Statement)
  deriving Inhabited

def Shape.describe : Shape → String
  | .typeReference _ => "type reference"
  | .members _ => "member"
  | .statements _ => "statement"

structure Template where
  code : String
  imports : List String
  placeholders : List Placeholder
  shape : Shape
  layout : Layout
  deriving Inhabited

/-- Why a template cannot be read. -/
inductive TemplateFault where
  /-- The type of a placeholder is not imported. -/
  | unknownType (name : String)
  /-- The type the code consists of does not resolve. -/
  | unresolved (text : String)
  | notJava
  deriving DecidableEq, Repr, Inhabited

def wrapperName : String := "__Template"

def wrapperPath : String := wrapperName ++ ".java"

def TemplateFault.message : TemplateFault → String
  | .unknownType name => "placeholder type " ++ name ++ " is not among the template imports"
  | .unresolved text => "type " ++ text ++ " does not resolve against the template imports"
  | .notJava => "Tree-sitter parse error for " ++ wrapperPath ++ ": syntax error"

/-- Whether a text is a dotted name. -/
def isTypeName (s : String) : Bool :=
  (Text.pieces '.' s.toList).all fun
    | [] => false
    | c :: r => (Text.isLetter c || c == '_' || c == '$') && r.all Text.isNameChar

/-- A class with the imports of a template before it and some code in it. -/
def wrap (imports : List String) (code : String) : String :=
  String.join (imports.map fun name => "import " ++ name ++ ";\n") ++
    "class " ++ wrapperName ++ " \x7b\n" ++ code ++ "\n\x7d\n"

/-- The members of the class around the code of a template. -/
def wrapped (imports : List String) (code : String) : Option (List Statement) :=
  (parse? (.ofList imports) wrapperPath (wrap imports code)).map fun u =>
    ((u.typeDecls.find? (·.name.name == wrapperName)).map (·.body.statements)).getD []

def isModelled : Statement → Bool
  | .raw _ => false
  | .call _ => false
  | _ => true

/-- The statements of the first method with a body. -/
def firstBody (members : List Statement) : List Statement :=
  (members.findSome? fun
    | .method d => d.body.map (·.statements)
    | _ => none).getD []

/-- The type that a field in the class around a template has. -/
def fieldType (imports : List String) (name : String) : Option Identifier :=
  match wrapped imports (name ++ " __field;") with
  | some (.vars d :: _) => if d.type.type.isSome then some d.type else none
  | _ => none

def shapeOf (imports : List String) (code : String) : Except TemplateFault Shape :=
  let name := Text.trim code
  if isTypeName name then
    match fieldType imports name with
    | some type => .ok (.typeReference { type with lead := .empty })
    | none => .error (.unresolved name)
  else
    let asStatements : Except TemplateFault Shape :=
      match wrapped imports ("void __template() \x7b\n" ++ code ++ "\n\x7d") with
      | some members => .ok (.statements (firstBody members))
      | none => .error .notJava
    match wrapped imports code with
    | some members =>
      if !members.isEmpty && members.all isModelled then .ok (.members members) else asStatements
    | none => asStatements

/-- Reads a template. -/
def Template.build (code : String) (imports : List String) (layout : Layout := .indented) :
    Except TemplateFault Template :=
  let (text, placeholders) := placeholdersOf code
  match (placeholders.filterMap (·.type?)).find? (!imports.contains ·) with
  | some name => .error (.unknownType name)
  | none => (shapeOf imports text).map fun shape => { code, imports, placeholders, shape, layout }

/-! ## Filling -/

/-- The nodes for the tokens of a template. -/
abbrev Bindings := List (String × Node)

/-- The text of a node without the space before it. -/
def sourceOf : Node → String
  | .identifier i => i.name
  | n => Text.trimStart n.print

namespace Bindings

def fillText (b : Bindings) (text : String) : String :=
  b.foldl (fun text (token, node) => Text.replace text token (sourceOf node)) text

def fillIdentifier (b : Bindings) (i : Identifier) : Identifier :=
  match b.lookup i.name with
  | some node => { i with name := sourceOf node, type := node.type? }
  | none => { i with name := b.fillText i.name }

def fillReceiver (b : Bindings) : Receiver → Receiver
  | .raw lead text => .raw lead (b.fillText text)
  | .name i =>
    match b.lookup i.name with
    | some (.identifier _) => .name (b.fillIdentifier i)
    | none => .name (b.fillIdentifier i)
    | some node => .raw i.lead (sourceOf node)

def fillAnnotation (b : Bindings) (a : Annotation) : Annotation :=
  { a with name := b.fillIdentifier a.name, arguments := a.arguments.map b.fillText }

def fillThrows (b : Bindings) (t : Throws) : Throws :=
  { t with types := t.types.map b.fillIdentifier }

def fillDeclarator (b : Bindings) (d : Declarator) : Declarator :=
  { d with name := b.fillIdentifier d.name, initializer := d.initializer.map b.fillText }

def fillVariables (b : Bindings) (d : VariableDecl) : VariableDecl :=
  { d with
    annotations := d.annotations.map b.fillAnnotation
    type := b.fillIdentifier d.type
    declarators := d.declarators.map b.fillDeclarator }

def fillCall (b : Bindings) (c : Call) : Call :=
  { c with
    receiver := c.receiver.map b.fillReceiver
    name := b.fillIdentifier c.name
    arguments := b.fillText c.arguments }

mutual

def fillStatement (b : Bindings) : Statement → Statement
  | .type d => .type (b.fillType d)
  | .method d => .method (b.fillMethod d)
  | .vars d => .vars (b.fillVariables d)
  | .call c => .call (b.fillCall c)
  | .raw r => .raw { r with text := b.fillText r.text }

def fillType (b : Bindings) : TypeDecl → TypeDecl
  | ⟨id, lead, annotations, modifiers, kind, kindLead, name, header, body, type⟩ =>
    ⟨id, lead, annotations.map b.fillAnnotation, modifiers, kind, kindLead, b.fillIdentifier name,
      b.fillText header, b.fillBlock body, type⟩

def fillMethod (b : Bindings) : MethodDecl → MethodDecl
  | ⟨id, lead, annotations, modifiers, returnType, name, parameters, throws, body, close⟩ =>
    ⟨id, lead, annotations.map b.fillAnnotation, modifiers, b.fillIdentifier returnType,
      b.fillIdentifier name, b.fillText parameters, throws.map b.fillThrows,
      match body with
      | some body => some (b.fillBlock body)
      | none => none, close⟩

def fillBlock (b : Bindings) : Block → Block
  | ⟨lead, statements, close⟩ => ⟨lead, b.fillStatements statements, close⟩

def fillStatements (b : Bindings) : List Statement → List Statement
  | [] => []
  | s :: r => b.fillStatement s :: b.fillStatements r

end

end Bindings

/-! ## Applying -/

/-- Where a template goes. -/
inductive Slot where
  /-- Behind the last statement of a block, a type body or a method body. -/
  | last
  /-- At the end of the `throws` clause of a method. -/
  | throws
  deriving DecidableEq, Repr, Inhabited

def Slot.describe : Slot → String
  | .last => "last statement"
  | .throws => "throws clause entry"

/-- Why a template cannot be applied. -/
inductive ApplyFault where
  | argumentCount (expected actual : Nat)
  | argumentType (index : Nat) (expected : String) (actual : Option JavaType)
  /-- A template of this shape does not go into this slot of this kind of node. -/
  | misfit (shape : Shape) (slot : Slot) (target : NodeKind)
  | noTarget
  deriving Inhabited

def ApplyFault.message : ApplyFault → String
  | .argumentCount expected actual =>
    "template expects " ++ toString expected ++ " argument(s), got " ++ toString actual
  | .argumentType index expected actual =>
    "placeholder " ++ toString index ++ " expects " ++ expected ++
      ", bound fragment has type " ++ (actual.map (·.print)).getD "<unresolved>"
  | .misfit shape slot target =>
    "cannot insert " ++ shape.describe ++ " " ++ slot.describe ++ " into " ++ target.describe
  | .noTarget => "no target node under the cursor"

/-- The first argument, counted from `index`, that is not of its placeholder's type. -/
def mismatch (index : Nat) : List Placeholder → List Node → Option ApplyFault
  | p :: ps, n :: ns =>
    match p.type? with
    | some expected =>
      if hasClassType n.type? expected then mismatch (index + 1) ps ns
      else some (.argumentType index expected n.type?)
    | none => mismatch (index + 1) ps ns
  | _, _ => none

namespace Template

variable {μ : Type}

def checkArguments (t : Template) (arguments : List Node) : Except ApplyFault Unit :=
  if arguments.length ≠ t.placeholders.length then
    .error (.argumentCount t.placeholders.length arguments.length)
  else
    match mismatch 0 t.placeholders arguments with
    | some fault => .error fault
    | none => .ok ()

def fill (t : Template) (arguments : List Node) (statements : List Statement) : List Statement :=
  Bindings.fillStatements ((t.placeholders.map (·.token)).zip arguments) statements

/-- What the template adds to the body of a type. -/
def asMembers? (t : Template) (arguments : List Node) : Option (List Statement) :=
  match t.shape with
  | .members statements => some (t.fill arguments statements)
  | _ => none

/-- What the template adds to a block of statements; members that are variables are statements
as well. -/
def asStatements? (t : Template) (arguments : List Node) : Option (List Statement) :=
  match t.shape with
  | .statements statements => some (t.fill arguments statements)
  | .members statements =>
    if statements.all (·.isVariables) then some (t.fill arguments statements) else none
  | .typeReference _ => none

/-- The clause with one more type. -/
def addThrown (throws : Option Throws) (type : Identifier) : Throws :=
  let entry := { type with lead := .single }
  match throws with
  | some t => { t with types := t.types ++ [entry] }
  | none => { lead := .single, types := [entry] }

/-- The node with the template in its slot, not yet laid out. -/
def insert? (t : Template) (cursor : Cursor μ) (slot : Slot) (target : Node)
    (arguments : List Node) : Option Node :=
  match slot, target with
  | .last, .type d => do
    return .type { d with body := d.body.append (← t.asMembers? arguments) }
  | .last, .block b =>
    if cursor.parent?.any (·.kind == .type) then
      (t.asMembers? arguments).map fun new => .block (b.append new)
    else (t.asStatements? arguments).map fun new => .block (b.append new)
  | .last, .method d => do
    return .method { d with body := some ((← d.body).append (← t.asStatements? arguments)) }
  | .throws, .method d =>
    match t.shape with
    | .typeReference type => some (.method { d with throws := some (addThrown d.throws type) })
    | _ => none
  | _, _ => none

/-- The node at the cursor with the template in one of its slots. -/
def apply (t : Template) (cursor : Cursor μ) (slot : Slot) (arguments : List Node) :
    Except ApplyFault Node := do
  let some target := cursor.node? | throw .noTarget
  t.checkArguments arguments
  match t.insert? cursor slot target arguments with
  | some after => return t.layout.apply target after cursor
  | none => throw (.misfit t.shape slot target.kind)

end Template

end JavaMigration.Edit
