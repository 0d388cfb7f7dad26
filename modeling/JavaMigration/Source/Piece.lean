import JavaMigration.Source.Basic

/-!
# The pieces of a unit

What a read-only search over a unit looks at: the imports, every name the tree holds, and every
text it keeps as written, in source order.
-/

namespace JavaMigration.Source

inductive Piece where
  | imported (i : Import)
  | identifier (i : Identifier)
  | text (s : String)
  deriving DecidableEq, Repr, Inhabited

def Annotation.pieces (a : Annotation) : List Piece :=
  .identifier a.name :: a.arguments.toList.map .text

/-- The pieces of the annotations and modifiers a declaration begins with. -/
def leadingPieces (annotations : List Annotation) (modifiers : List Modifier) : List Piece :=
  annotations.flatMap (·.pieces) ++ modifiers.map fun m => .text m.word

def Declarator.pieces (d : Declarator) : List Piece :=
  .identifier d.name :: d.initializer.toList.map .text

def VariableDecl.pieces (d : VariableDecl) : List Piece :=
  leadingPieces d.annotations d.modifiers ++ .identifier d.type ::
    d.declarators.flatMap (·.pieces)

def Receiver.piece : Receiver → Piece
  | .name ident => .identifier ident
  | .raw _ text => .text text

def Call.pieces (c : Call) : List Piece :=
  c.receiver.toList.map (·.piece) ++ [.identifier c.name, .text c.arguments]

mutual

def Statement.pieces : Statement → List Piece
  | .type d => d.pieces
  | .method d => d.pieces
  | .vars d => d.pieces
  | .call c => c.pieces
  | .raw r => [.text r.text]

def TypeDecl.pieces : TypeDecl → List Piece
  | ⟨_, _, annotations, modifiers, _, _, name, header, body, _⟩ =>
    leadingPieces annotations modifiers ++ .identifier name :: .text header :: body.pieces

def MethodDecl.pieces : MethodDecl → List Piece
  | ⟨_, _, annotations, modifiers, returnType, name, parameters, throws, body, _⟩ =>
    leadingPieces annotations modifiers ++
      [.identifier returnType, .identifier name, .text parameters] ++
      (throws.map (·.types)).toList.flatten.map .identifier ++
      match body with
      | some body => body.pieces
      | none => []

def Block.pieces : Block → List Piece
  | ⟨_, statements, _⟩ => piecesOf statements

def piecesOf : List Statement → List Piece
  | [] => []
  | s :: r => s.pieces ++ piecesOf r

end

/-- Feeds pieces to a step until it asks to stop; says whether it did. -/
def scanPieces (step : σ → Piece → σ × Bool) : σ → List Piece → σ × Bool
  | s, [] => (s, false)
  | s, p :: ps =>
    match step s p with
    | (s, true) => (s, true)
    | (s, false) => scanPieces step s ps

namespace CompilationUnit

def pieces (u : CompilationUnit) : List Piece :=
  u.imports.map .imported ++ piecesOf u.types

/-- Feeds the pieces of the unit to a step until it asks to stop. -/
def scan (u : CompilationUnit) (step : σ → Piece → σ × Bool) (init : σ) : σ × Bool :=
  scanPieces step init u.pieces

/-- Whether some piece passes the test. -/
def anyPiece (u : CompilationUnit) (p : Piece → Bool) : Bool := u.pieces.any p

end CompilationUnit

end JavaMigration.Source
