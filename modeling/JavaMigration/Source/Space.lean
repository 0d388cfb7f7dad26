import JavaMigration.Text.Split

/-!
# The space before a node

A node of the tree carries the text between the token before it and its own first token: blanks
and comments, as written.
-/

namespace JavaMigration.Source

/-- Blanks and comments between two tokens. -/
structure Space where
  text : String
  deriving DecidableEq, Repr, Inhabited

namespace Space

def empty : Space := ⟨""⟩

/-- One blank. -/
def single : Space := ⟨" "⟩

def isEmpty (s : Space) : Bool := s.text.isEmpty

/-- Whether the space begins a new line. -/
def hasNewline (s : Space) : Bool := s.text.toList.contains '\n'

/-- The last line of the space, if the space begins one. -/
def indent? (s : Space) : Option String := (Text.splitLast '\n' s.text).map (·.2)

/-- The number of line breaks. -/
def newlines (s : Space) : Nat := s.text.toList.count '\n'

/-- Whether the space holds no comment. -/
def isBlank (s : Space) : Bool := s.text.toList.all Text.isBlank

/-- The space without the line breaks it begins with. -/
def dropNewlines (s : Space) : Space :=
  ⟨Text.dropWhileStart (fun c => c == '\n' || c == '\r') s.text⟩

end Space

end JavaMigration.Source
