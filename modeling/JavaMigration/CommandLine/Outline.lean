import JavaMigration.Source.Basic

/-!
# Outlines

The declarations of a unit with the types that their names resolve to, one on a line. A question
mark stands for a name that does not resolve.
-/

namespace JavaMigration.CommandLine

open Java Source

def shownType (t : Option JavaType) : String := t.elim "?" JavaType.print

def shownAnnotations (annotations : List Annotation) : String :=
  String.intercalate " " (annotations.map fun a => "@" ++ shownType a.name.type)

/-- A line that is `depth` levels deep. -/
def indented (depth : Nat) (line : String) : String :=
  String.ofList (List.replicate (2 * depth) ' ') ++ line

def fieldLines (depth : Nat) (d : VariableDecl) : List String :=
  d.declarators.map fun v =>
    indented depth ("field " ++ v.name.name ++ " : " ++ shownType d.type.type ++ " " ++
      shownAnnotations d.annotations)

def methodLine (depth : Nat) (d : MethodDecl) : String :=
  indented depth ("method " ++ d.name.name ++ d.parameters ++ " : " ++
    shownType d.returnType.type ++ " throws [" ++
    String.intercalate ", " (d.thrown.map fun t => shownType t.type) ++ "] " ++
    shownAnnotations d.annotations)

mutual

/-- A type with its fields, methods and nested types. -/
def typeLines (depth : Nat) : TypeDecl → List String
  | ⟨_, _, _, _, kind, _, name, _, body, type⟩ =>
    indented depth (kind.keyword ++ " " ++ name.name ++ " : " ++ shownType type) ::
      blockLines (depth + 1) body

def blockLines (depth : Nat) : Block → List String
  | ⟨_, statements, _⟩ => memberLines depth statements

def memberLines (depth : Nat) : List Statement → List String
  | [] => []
  | .vars d :: r => fieldLines depth d ++ memberLines depth r
  | .method d :: r => methodLine depth d :: memberLines depth r
  | .type d :: r => typeLines depth d ++ memberLines depth r
  | _ :: r => memberLines depth r

end

/-- The outline of a unit: its package, its imports and its types. -/
def outline (u : CompilationUnit) : List String :=
  (if u.packageName.isEmpty then [] else ["package " ++ u.packageName]) ++
    u.imports.map (fun i => "import " ++ i.target) ++ u.typeDecls.flatMap (typeLines 0)

end JavaMigration.CommandLine
