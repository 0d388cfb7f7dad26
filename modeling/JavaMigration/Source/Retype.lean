import JavaMigration.Source.Basic

/-!
# Variables of another type

A unit in which the names of declared variables have other types than they were read with, as
if they had been declared elsewhere. Written types stay.
-/

namespace JavaMigration.Source

open Java

/-- How a declared name is typed; the name carries the type it has so far. -/
abbrev Typing : Type := Identifier → Option JavaType

def Identifier.retype (f : Typing) (i : Identifier) : Identifier := { i with type := f i }

def VariableDecl.retype (f : Typing) (d : VariableDecl) : VariableDecl :=
  { d with declarators := d.declarators.map fun v => { v with name := v.name.retype f } }

mutual

def Statement.retype (f : Typing) : Statement → Statement
  | .type d => .type (d.retype f)
  | .method d => .method (d.retype f)
  | .vars d => .vars (d.retype f)
  | .call c => .call c
  | .raw r => .raw r

def TypeDecl.retype (f : Typing) : TypeDecl → TypeDecl
  | ⟨id, lead, annotations, modifiers, kind, kindLead, name, header, body, type⟩ =>
    ⟨id, lead, annotations, modifiers, kind, kindLead, name, header, body.retype f, type⟩

def MethodDecl.retype (f : Typing) : MethodDecl → MethodDecl
  | ⟨id, lead, annotations, modifiers, returnType, name, parameters, throws, body, close⟩ =>
    ⟨id, lead, annotations, modifiers, returnType, name, parameters, throws,
      match body with
      | some body => some (body.retype f)
      | none => none, close⟩

def Block.retype (f : Typing) : Block → Block
  | ⟨lead, statements, close⟩ => ⟨lead, retypeAll f statements, close⟩

def retypeAll (f : Typing) : List Statement → List Statement
  | [] => []
  | s :: r => s.retype f :: retypeAll f r

end

def CompilationUnit.retype (f : Typing) (u : CompilationUnit) : CompilationUnit :=
  { u with types := retypeAll f u.types }

end JavaMigration.Source
