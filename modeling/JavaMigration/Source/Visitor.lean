import JavaMigration.Source.Cursor

/-!
# Traversal

A visitor sees every node on the way down and may replace it on the way up. A node is rebuilt
only if a child was replaced, so that a tree in which nothing was replaced comes back as it is:
the answer `kept` says so without comparing trees. While a node is visited it is on the cursor,
and once it has been rebuilt the cursor shows it rebuilt.
-/

namespace JavaMigration.Source

/-- What became of a node: it is still the same one, or there is a new one in its place. A new
node may equal the old one. -/
inductive Revision (α : Type) where
  | kept
  | replaced (new : α)
  deriving Repr, Inhabited

namespace Revision

variable {α β : Type}

def get (r : Revision α) (old : α) : α :=
  match r with
  | kept => old
  | replaced new => new

def isKept : Revision α → Bool
  | kept => true
  | replaced _ => false

def map (f : α → β) : Revision α → Revision β
  | kept => kept
  | replaced new => replaced (f new)

end Revision

/-- The state of a traversal: the cursor, and what the visitor keeps for itself. -/
structure Session (μ σ : Type) where
  cursor : Cursor μ := {}
  own : σ
  deriving Inhabited

abbrev Walk (μ σ α : Type) : Type := StateM (Session μ σ) α

namespace Walk

variable {μ σ α : Type}

def modifyCursor (f : Cursor μ → Cursor μ) : Walk μ σ Unit :=
  modify fun s => { s with cursor := f s.cursor }

def cursor : Walk μ σ (Cursor μ) := do return (← get).cursor

def own : Walk μ σ σ := do return (← get).own

def setOwn (own : σ) : Walk μ σ Unit := modify fun s => { s with own }

/-- Runs an action with a node on top of the cursor. -/
def attach (node : Node) (act : Walk μ σ α) : Walk μ σ α := do
  modifyCursor (·.push node)
  let a ← act
  modifyCursor Cursor.pop
  return a

def post (kind : NodeKind) (key : String) (message : μ) : Walk μ σ Bool := do
  let s ← get
  let (found, cursor) := s.cursor.post kind key message
  set { s with cursor }
  return found

def poll (read : μ → Option α) (key : String) : Walk μ σ (Option α) := do
  let s ← get
  let (message, cursor) := s.cursor.poll read key
  set { s with cursor }
  return message

/-- Shows a rebuilt node on the cursor. -/
def reveal (node : α → Node) (r : Revision α) : Walk μ σ (Revision α) := do
  match r with
  | .kept => return .kept
  | .replaced new =>
    modifyCursor (·.setNode (node new))
    return .replaced new

end Walk

/-- One hook per kind of node. The hook of a node with children is given the walk over them
and decides when to run it. -/
structure Visitor (μ σ : Type) where
  unit : CompilationUnit → Walk μ σ (Revision CompilationUnit) →
      Walk μ σ (Revision CompilationUnit) := fun _ walk => walk
  type : TypeDecl → Walk μ σ (Revision TypeDecl) → Walk μ σ (Revision TypeDecl) :=
    fun _ walk => walk
  block : Block → Walk μ σ (Revision Block) → Walk μ σ (Revision Block) := fun _ walk => walk
  method : MethodDecl → Walk μ σ (Revision MethodDecl) → Walk μ σ (Revision MethodDecl) :=
    fun _ walk => walk
  vars : VariableDecl → Walk μ σ (Revision VariableDecl) := fun _ => return .kept
  call : Call → Walk μ σ (Revision Call) := fun _ => return .kept

namespace Visitor

variable {μ σ : Type}

mutual

def visitStatement (v : Visitor μ σ) : Statement → Walk μ σ (Revision Statement)
  | .type d => do return (← v.visitType d).map .type
  | .method d => do return (← v.visitMethod d).map .method
  | .vars d => do return (← Walk.attach (.vars d) (v.vars d)).map .vars
  | .call c => do return (← Walk.attach (.call c) (v.call c)).map .call
  | .raw _ => return .kept

def visitType (v : Visitor μ σ) : TypeDecl → Walk μ σ (Revision TypeDecl)
  | ⟨id, lead, annotations, modifiers, kind, kindLead, name, header, body, type⟩ =>
    let d : TypeDecl :=
      ⟨id, lead, annotations, modifiers, kind, kindLead, name, header, body, type⟩
    Walk.attach (.type d) <| v.type d do
      Walk.reveal .type ((← v.visitBlock body).map fun body => { d with body })

def visitMethod (v : Visitor μ σ) : MethodDecl → Walk μ σ (Revision MethodDecl)
  | ⟨id, lead, annotations, modifiers, returnType, name, parameters, throws, body, close⟩ =>
    let d : MethodDecl :=
      ⟨id, lead, annotations, modifiers, returnType, name, parameters, throws, body, close⟩
    Walk.attach (.method d) <| v.method d do
      match body with
      | none => return .kept
      | some body =>
        Walk.reveal .method ((← v.visitBlock body).map fun body => { d with body := some body })

def visitBlock (v : Visitor μ σ) : Block → Walk μ σ (Revision Block)
  | ⟨lead, statements, close⟩ =>
    let b : Block := ⟨lead, statements, close⟩
    Walk.attach (.block b) <| v.block b do
      Walk.reveal .block ((← v.visitStatements statements).map fun statements => { b with statements })

/-- Replaces a list of statements if one of them is replaced. -/
def visitStatements (v : Visitor μ σ) : List Statement → Walk μ σ (Revision (List Statement))
  | [] => return .kept
  | s :: rest => do
    let first ← v.visitStatement s
    let more ← v.visitStatements rest
    match first, more with
    | .kept, .kept => return .kept
    | _, _ => return .replaced (first.get s :: more.get rest)

end

def visitUnit (v : Visitor μ σ) (u : CompilationUnit) : Walk μ σ (Revision CompilationUnit) :=
  Walk.attach (.unit u) <| v.unit u do
    Walk.reveal .unit ((← v.visitStatements u.types).map fun types => { u with types })

/-- Visits a whole unit with an empty cursor. -/
def run (v : Visitor μ σ) (own : σ) (u : CompilationUnit) : Revision CompilationUnit × σ :=
  let (revision, session) := (v.visitUnit u).run { own }
  (revision, session.own)

end Visitor

end JavaMigration.Source
