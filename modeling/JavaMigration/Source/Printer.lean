import JavaMigration.Source.Basic

/-!
# Printing

Every node prints the space before it and then its own text, so that a tree prints as the
source it was read from. Imports are the exception: they print in their usual form.
-/

namespace JavaMigration.Source

def Identifier.print (i : Identifier) : String := i.lead.text ++ i.name

def Annotation.print (a : Annotation) : String :=
  a.lead.text ++ "@" ++ a.name.print ++ a.arguments.getD ""

def Modifier.print (m : Modifier) : String := m.lead.text ++ m.word

def Package.print (p : Package) : String := p.lead.text ++ p.text

def Import.print (i : Import) : String :=
  i.lead.text ++ (if i.isStatic then "import static " else "import ") ++ i.target ++ ";"

/-- The annotations and modifiers a declaration begins with. -/
def printLeading (annotations : List Annotation) (modifiers : List Modifier) : String :=
  String.join (annotations.map (·.print)) ++ String.join (modifiers.map (·.print))

def Declarator.print (d : Declarator) : String :=
  d.lead.text ++ d.name.print ++ d.initializer.getD ""

def VariableDecl.print (d : VariableDecl) : String :=
  d.lead.text ++ printLeading d.annotations d.modifiers ++ d.type.print ++
    String.intercalate "," (d.declarators.map (·.print)) ++ d.close.text ++ ";"

def Receiver.print : Receiver → String
  | .name ident => ident.print
  | .raw lead text => lead.text ++ text

def Call.print (c : Call) : String :=
  c.lead.text ++
    (match c.receiver with
      | some r => r.print ++ c.dot.text ++ "."
      | none => "") ++
    c.name.print ++ c.arguments ++ c.close.text ++ ";"

def RawCode.print (r : RawCode) : String := r.lead.text ++ r.text

def Throws.print (t : Throws) : String :=
  t.lead.text ++ "throws" ++ String.intercalate "," (t.types.map (·.print))

/-- A type declaration up to its body. -/
def TypeDecl.printHead (d : TypeDecl) : String :=
  d.lead.text ++ printLeading d.annotations d.modifiers ++ d.kindLead.text ++ d.kind.keyword ++
    d.name.print ++ d.header

/-- A method up to its body or semicolon. -/
def MethodDecl.printHead (d : MethodDecl) : String :=
  d.lead.text ++ printLeading d.annotations d.modifiers ++ d.returnType.print ++
    d.name.print ++ d.parameters ++ (d.throws.map (·.print)).getD ""

mutual

def Statement.print : Statement → String
  | .type d => d.print
  | .method d => d.print
  | .vars d => d.print
  | .call c => c.print
  | .raw r => r.print

def TypeDecl.print : TypeDecl → String
  | ⟨id, lead, annotations, modifiers, kind, kindLead, name, header, body, type⟩ =>
    TypeDecl.printHead ⟨id, lead, annotations, modifiers, kind, kindLead, name, header, body,
      type⟩ ++ body.print

def MethodDecl.print : MethodDecl → String
  | ⟨id, lead, annotations, modifiers, returnType, name, parameters, throws, body, close⟩ =>
    MethodDecl.printHead ⟨id, lead, annotations, modifiers, returnType, name, parameters, throws,
      body, close⟩ ++
      match body with
      | some body => body.print
      | none => close.text ++ ";"

def Block.print : Block → String
  | ⟨lead, statements, close⟩ => lead.text ++ "\x7b" ++ printStatements statements ++ close.text ++ "\x7d"

def printStatements : List Statement → String
  | [] => ""
  | s :: r => s.print ++ printStatements r

end

def CompilationUnit.print (u : CompilationUnit) : String :=
  u.lead.text ++ (u.package.map (·.print)).getD "" ++ String.join (u.imports.map (·.print)) ++
    printStatements u.types ++ u.close.text

end JavaMigration.Source
