import JavaMigration.Proofs.Source.Declared
import JavaMigration.Proofs.Source.Printing

/-!
# The pieces are all that is printed

The printed form of statements, cut where the printer goes from one part of a node to the next.
Spaces and fixed tokens apart, the cuts are the pieces of the statements (`pieces_fragmentsOf`), so
that a search over the pieces sees all code, and sees it in the order in which it is printed.
-/

namespace JavaMigration.Source

/-- The tokens that the printer sets by itself. -/
inductive FixedToken where
  | atSign
  | keyword (kind : TypeKind)
  | throws
  | openBrace
  | closeBrace
  | comma
  | semicolon
  | dot
  deriving DecidableEq, Repr, Inhabited

def FixedToken.text : FixedToken → String
  | atSign => "@"
  | keyword kind => kind.keyword
  | throws => "throws"
  | openBrace => "\x7b"
  | closeBrace => "\x7d"
  | comma => ","
  | semicolon => ";"
  | dot => "."

/-- What is printed in one go: a space of the tree, a fixed token, or a name or text that the tree
holds. -/
inductive Fragment where
  | space (s : Space)
  | token (t : FixedToken)
  | name (i : Identifier)
  | text (s : String)
  deriving DecidableEq, Repr, Inhabited

namespace Fragment

def print : Fragment → String
  | space s => s.text
  | token t => t.text
  | name i => i.name
  | text s => s

/-- The piece that a name or text is. -/
def piece? : Fragment → Option Piece
  | space _ => none
  | token _ => none
  | name i => some (.identifier i)
  | text s => some (.text s)

end Fragment

def printFragments (fs : List Fragment) : String := String.join (fs.map (·.print))

/-- The pieces among some fragments. -/
def piecesIn (fs : List Fragment) : List Piece := fs.filterMap Fragment.piece?

/-! ## The fragments of each node -/

/-- Lists with a comma between any two of them. -/
def commaSeparated : List (List Fragment) → List Fragment
  | [] => []
  | [fs] => fs
  | fs :: rest => fs ++ .token .comma :: commaSeparated rest

def Identifier.fragments (i : Identifier) : List Fragment := [.space i.lead, .name i]

def Annotation.fragments (a : Annotation) : List Fragment :=
  [.space a.lead, .token .atSign] ++ a.name.fragments ++ a.arguments.toList.map .text

def Modifier.fragments (m : Modifier) : List Fragment := [.space m.lead, .text m.word]

def leadingFragments (annotations : List Annotation) (modifiers : List Modifier) : List Fragment :=
  annotations.flatMap (·.fragments) ++ modifiers.flatMap (·.fragments)

def Declarator.fragments (d : Declarator) : List Fragment :=
  .space d.lead :: d.name.fragments ++ d.initializer.toList.map .text

def VariableDecl.fragments (d : VariableDecl) : List Fragment :=
  .space d.lead :: leadingFragments d.annotations d.modifiers ++ d.type.fragments ++
    commaSeparated (d.declarators.map (·.fragments)) ++ [.space d.close, .token .semicolon]

def Receiver.fragments : Receiver → List Fragment
  | .name ident => ident.fragments
  | .raw lead text => [.space lead, .text text]

def Call.fragments (c : Call) : List Fragment :=
  .space c.lead ::
    (match c.receiver with
      | some r => r.fragments ++ [.space c.dot, .token .dot]
      | none => []) ++
    c.name.fragments ++ [.text c.arguments, .space c.close, .token .semicolon]

def RawCode.fragments (r : RawCode) : List Fragment := [.space r.lead, .text r.text]

def Throws.fragments (t : Throws) : List Fragment :=
  [.space t.lead, .token .throws] ++ commaSeparated (t.types.map (·.fragments))

/-- The fragments of a type declaration up to its body. -/
def TypeDecl.headFragments (d : TypeDecl) : List Fragment :=
  .space d.lead :: leadingFragments d.annotations d.modifiers ++
    [.space d.kindLead, .token (.keyword d.kind)] ++ d.name.fragments ++ [.text d.header]

/-- The fragments of a method up to its body or semicolon. -/
def MethodDecl.headFragments (d : MethodDecl) : List Fragment :=
  .space d.lead :: leadingFragments d.annotations d.modifiers ++ d.returnType.fragments ++
    d.name.fragments ++ [.text d.parameters] ++ (d.throws.map (·.fragments)).getD []

mutual

def Statement.fragments : Statement → List Fragment
  | .type d => d.fragments
  | .method d => d.fragments
  | .vars d => d.fragments
  | .call c => c.fragments
  | .raw r => r.fragments

def TypeDecl.fragments : TypeDecl → List Fragment
  | ⟨id, lead, annotations, modifiers, kind, kindLead, name, header, body, type⟩ =>
    TypeDecl.headFragments ⟨id, lead, annotations, modifiers, kind, kindLead, name, header, body,
      type⟩ ++ body.fragments

def MethodDecl.fragments : MethodDecl → List Fragment
  | ⟨id, lead, annotations, modifiers, returnType, name, parameters, throws, body, close⟩ =>
    MethodDecl.headFragments ⟨id, lead, annotations, modifiers, returnType, name, parameters,
      throws, body, close⟩ ++
      match body with
      | some body => body.fragments
      | none => [.space close, .token .semicolon]

def Block.fragments : Block → List Fragment
  | ⟨lead, statements, close⟩ =>
    [.space lead, .token .openBrace] ++ fragmentsOf statements ++
      [.space close, .token .closeBrace]

def fragmentsOf : List Statement → List Fragment
  | [] => []
  | s :: r => s.fragments ++ fragmentsOf r

end

@[simp] theorem printFragments_nil : printFragments [] = "" := rfl

@[simp] theorem piecesIn_nil : piecesIn [] = [] := rfl

section Scan

variable {σ : Type} (step : σ → Piece → σ × Bool)

/-- The state after some pieces that are all let pass. -/
def stateAfter (init : σ) (ps : List Piece) : σ := ps.foldl (fun s p => (step s p).1) init

/-- Whether the step asks to stop at a piece, when some others have been let pass before it. -/
def stopsAt (init : σ) (before : List Piece) (p : Piece) : Bool :=
  (step (stateAfter step init before) p).2

/-- The step lets all pieces pass. -/
def Passes (init : σ) (ps : List Piece) : Prop :=
  ∀ before p after, ps = before ++ p :: after → stopsAt step init before p = false

variable {step}

theorem Passes.cons {init : σ} {p : Piece} {ps : List Piece} (hp : (step init p).2 = false)
    (h : Passes step (step init p).1 ps) : Passes step init (p :: ps) := by
  intro before q after heq
  cases before with
  | nil =>
    obtain ⟨rfl, -⟩ := List.cons_eq_cons.mp heq
    exact hp
  | cons first before =>
    obtain ⟨rfl, rfl⟩ := List.cons_eq_cons.mp heq
    exact h before q after rfl

end Scan

end JavaMigration.Source
