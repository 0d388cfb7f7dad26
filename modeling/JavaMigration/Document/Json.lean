import JavaMigration.Text.Hex

/-!
# JSON

JSON values and how they are printed: every item and every field on a line of its own, indented
by two spaces a level.
-/

namespace JavaMigration.Document

inductive Json where
  | null
  | bool (b : Bool)
  | number (n : Nat)
  | text (s : String)
  | list (items : List Json)
  | record (fields : List (String × Json))
  deriving Inhabited

namespace Json

/-- How a character is written within quotes. -/
def escape (c : Char) : List Char :=
  match c with
  | '"' => ['\\', '"']
  | '\\' => ['\\', '\\']
  | '\n' => ['\\', 'n']
  | '\r' => ['\\', 'r']
  | '\t' => ['\\', 't']
  | '\x08' => ['\\', 'b']
  | '\x0c' => ['\\', 'f']
  | c =>
    if c.toNat < 32 then
      ['\\', 'u', '0', '0', Text.hexDigit (c.toNat / 16), Text.hexDigit (c.toNat % 16)]
    else [c]

def quote (s : String) : String := String.ofList ('"' :: s.toList.flatMap escape ++ ['"'])

def indent (depth : Nat) : String := String.ofList (List.replicate (2 * depth) ' ')

/-- Brackets around parts, each part on a line one level deeper than the brackets; nothing in
between if there are no parts. -/
def bracket (opening closing : String) (depth : Nat) (parts : List String) : String :=
  if parts.isEmpty then opening ++ closing
  else
    let lines := parts.map fun p => indent (depth + 1) ++ p
    opening ++ "\n" ++ String.intercalate ",\n" lines ++ "\n" ++ indent depth ++ closing

mutual

/-- The text of a value whose first line is `depth` levels deep. -/
def printAt (depth : Nat) : Json → String
  | null => "null"
  | bool b => if b then "true" else "false"
  | number n => toString n
  | text s => quote s
  | list items => bracket "[" "]" depth (printItems (depth + 1) items)
  | record fields => bracket "\x7b" "\x7d" depth (printFields (depth + 1) fields)

def printItems (depth : Nat) : List Json → List String
  | [] => []
  | v :: r => printAt depth v :: printItems depth r

def printFields (depth : Nat) : List (String × Json) → List String
  | [] => []
  | (key, v) :: r => (quote key ++ ": " ++ printAt depth v) :: printFields depth r

end

def print (v : Json) : String := printAt 0 v

end Json

end JavaMigration.Document
