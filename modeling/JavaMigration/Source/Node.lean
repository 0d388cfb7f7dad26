import JavaMigration.Source.Printer

/-!
# Any node

A node of any kind, as a traversal meets it, with what all kinds share: the kind itself, the
space before the node, its type, its identity and its text.
-/

namespace JavaMigration.Source

open Java

inductive NodeKind where
  | unit
  | type
  | block
  | method
  | vars
  | call
  | annot
  | identifier
  | raw
  deriving DecidableEq, Repr, Inhabited

/-- The kind in words, for messages. -/
def NodeKind.describe : NodeKind → String
  | .unit => "compilation unit"
  | .type => "class declaration"
  | .block => "block"
  | .method => "method declaration"
  | .vars => "variable declarations"
  | .call => "method invocation"
  | .annot => "annotation"
  | .identifier => "identifier"
  | .raw => "raw statement"

/-- The kind as one word, for the trace of a cursor. -/
def NodeKind.tag : NodeKind → String
  | .unit => "CompilationUnit"
  | .type => "ClassDeclaration"
  | .block => "Block"
  | .method => "MethodDeclaration"
  | .vars => "VariableDeclarations"
  | .call => "MethodInvocation"
  | .annot => "Annotation"
  | .identifier => "Identifier"
  | .raw => "Raw"

inductive Node where
  | unit (u : CompilationUnit)
  | type (d : TypeDecl)
  | block (b : Block)
  | method (d : MethodDecl)
  | vars (d : VariableDecl)
  | call (c : Call)
  | annot (a : Annotation)
  | identifier (i : Identifier)
  | raw (r : RawCode)
  deriving Inhabited

namespace Node

def ofStatement : Statement → Node
  | .type d => type d
  | .method d => method d
  | .vars d => vars d
  | .call c => call c
  | .raw r => raw r

def kind : Node → NodeKind
  | unit _ => .unit
  | type _ => .type
  | block _ => .block
  | method _ => .method
  | vars _ => .vars
  | call _ => .call
  | annot _ => .annot
  | identifier _ => .identifier
  | raw _ => .raw

/-- The identity of the node among its siblings; only statements have one. -/
def id? : Node → Option StatementId
  | type d => some d.id
  | method d => some d.id
  | vars d => some d.id
  | call c => some c.id
  | raw r => some r.id
  | _ => none

def lead : Node → Space
  | unit u => u.lead
  | type d => d.lead
  | block b => b.lead
  | method d => d.lead
  | vars d => d.lead
  | call c => c.lead
  | annot a => a.lead
  | identifier i => i.lead
  | raw r => r.lead

def withLead (n : Node) (lead : Space) : Node :=
  match n with
  | unit u => unit { u with lead }
  | type d => type { d with lead }
  | block b => block { b with lead }
  | method d => method { d with lead }
  | vars d => vars { d with lead }
  | call c => call { c with lead }
  | annot a => annot { a with lead }
  | identifier i => identifier { i with lead }
  | raw r => raw { r with lead }

/-- The type a node refers to or declares. An annotation has the annotation type, a variable
declaration the type written in front. -/
def type? : Node → Option JavaType
  | identifier i => i.type
  | annot a => a.name.type
  | vars d => d.type.type
  | type d => d.type
  | _ => none

def print : Node → String
  | unit u => u.print
  | type d => d.print
  | block b => b.print
  | method d => d.print
  | vars d => d.print
  | call c => c.print
  | annot a => a.print
  | identifier i => i.print
  | raw r => r.print

end Node

end JavaMigration.Source
