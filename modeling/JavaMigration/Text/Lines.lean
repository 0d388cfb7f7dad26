import JavaMigration.Text.Split

/-!
# Lines

How a text breaks its lines, and the lines themselves.
-/

namespace JavaMigration.Text

/-- A carriage return and a line feed if the first line of the text ends so, a line feed
otherwise. -/
def lineEnding (s : String) : String :=
  match cutFirst '\n' s.toList with
  | some (line, _) => if line.getLast? == some '\r' then "\r\n" else "\n"
  | none => "\n"

/-- Puts a character in front of the first line, or of none. -/
def consLine (c : Char) : List (List Char) → List (List Char)
  | [] => [[c]]
  | l :: ls => (c :: l) :: ls

/-- The lines of a text, each with its ending: a line feed, a carriage return or both. The last
line may have none. -/
def splitLines : List Char → List (List Char)
  | [] => []
  | '\r' :: '\n' :: r => ['\r', '\n'] :: splitLines r
  | c :: r => if c == '\n' || c == '\r' then [c] :: splitLines r else consLine c (splitLines r)

def lines (s : String) : List String := (splitLines s.toList).map String.ofList

end JavaMigration.Text
