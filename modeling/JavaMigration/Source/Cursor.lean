import JavaMigration.Source.Node

/-!
# The cursor of a traversal

The chain of nodes from the root of a traversal to the node it is at. Every node on the chain
has a mailbox, in which code deeper down leaves messages that are read when the traversal comes
back up. A mailbox holds one message per key, the latest.
-/

namespace JavaMigration.Source

/-- A node on the chain with its messages, the latest first. -/
structure Frame (μ : Type) where
  node : Node
  mail : List (String × μ) := []
  deriving Inhabited

/-- Leaves a message, in place of the one with the same key. -/
def Frame.put (f : Frame μ) (key : String) (message : μ) : Frame μ :=
  { f with mail := (key, message) :: f.mail.filter (·.1 != key) }

/-- The frames from the current one up to the root. -/
structure Cursor (μ : Type) where
  frames : List (Frame μ) := []
  deriving Inhabited

namespace Cursor

variable {μ α : Type}

/-- Enters a node. -/
def push (c : Cursor μ) (node : Node) : Cursor μ := ⟨{ node } :: c.frames⟩

/-- Leaves the current node; its messages are lost. -/
def pop (c : Cursor μ) : Cursor μ := ⟨c.frames.tail⟩

/-- The current node. -/
def node? (c : Cursor μ) : Option Node := c.frames.head?.map (·.node)

/-- The node above the current one. -/
def parent? (c : Cursor μ) : Option Node := c.frames.tail.head?.map (·.node)

/-- The nodes from the current one up to the root. -/
def path (c : Cursor μ) : List Node := c.frames.map (·.node)

/-- Replaces the current node and keeps its mailbox. -/
def setNode (c : Cursor μ) (node : Node) : Cursor μ :=
  match c.frames with
  | [] => c
  | f :: r => ⟨{ f with node } :: r⟩

/-- Puts a message into the first frame of a kind; `none` if there is no such frame. -/
def postTo (kind : NodeKind) (key : String) (message : μ) :
    List (Frame μ) → Option (List (Frame μ))
  | [] => none
  | f :: r =>
    if f.node.kind = kind then some (f.put key message :: r)
    else (postTo kind key message r).map (f :: ·)

/-- Leaves a message at the nearest node of a kind, the current one included. The answer says
whether there is one. -/
def post (c : Cursor μ) (kind : NodeKind) (key : String) (message : μ) : Bool × Cursor μ :=
  match postTo kind key message c.frames with
  | some frames => (true, ⟨frames⟩)
  | none => (false, c)

/-- Takes a message out of the current mailbox. It is gone also if it is not of the kind that
`read` accepts. -/
def poll (c : Cursor μ) (read : μ → Option α) (key : String) : Option α × Cursor μ :=
  match c.frames with
  | [] => (none, c)
  | f :: r =>
    ((f.mail.lookup key).bind read, ⟨{ f with mail := f.mail.filter (·.1 != key) } :: r⟩)

/-- The kinds of the nodes from the root down to the current one. -/
def trace (c : Cursor μ) : String :=
  "[" ++ String.intercalate ", " (c.path.reverse.map (·.kind.tag)) ++ "]"

end Cursor

end JavaMigration.Source
