import JavaMigration.Document.Value
import JavaMigration.Text.Hex

/-!
# Values from JSON text

The strict form: no comments, no trailing commas, nothing but blanks around the value. A text or
key with half a surrogate pair is well-formed but says nothing that could be asked for.
-/

namespace JavaMigration.Document.JsonText

def isBlank (c : Char) : Bool := c == ' ' || c == '\n' || c == '\t' || c == '\r'

def skipBlanks (s : List Char) : List Char := s.dropWhile isBlank

/-! ## Texts -/

/-- What a backslash and a letter stand for. -/
def escaped? : Char → Option Char
  | '"' => some '"'
  | '\\' => some '\\'
  | '/' => some '/'
  | 'b' => some '\x08'
  | 'f' => some '\x0c'
  | 'n' => some '\n'
  | 'r' => some '\r'
  | 't' => some '\t'
  | _ => none

/-- The code units up to the closing quote, and what follows it. A unit is a code point or half
a surrogate pair. -/
def units : List Char → Option (List Nat × List Char)
  | [] => none
  | '"' :: r => some ([], r)
  | '\\' :: 'u' :: a :: b :: c :: d :: r => do
    let n ← Text.hexNumber? [a, b, c, d]
    let (ns, rest) ← units r
    return (n :: ns, rest)
  | '\\' :: e :: r => do
    let c ← escaped? e
    let (ns, rest) ← units r
    return (c.toNat :: ns, rest)
  | c :: r => do
    if c.toNat < 32 || c == '\\' then none
    let (ns, rest) ← units r
    return (c.toNat :: ns, rest)

def isHigh (n : Nat) : Bool := 0xD800 ≤ n && n ≤ 0xDBFF

def isLow (n : Nat) : Bool := 0xDC00 ≤ n && n ≤ 0xDFFF

/-- The characters that code units stand for, unless half of a surrogate pair is missing. -/
def join : List Nat → Option (List Char)
  | [] => some []
  | [n] => if isHigh n || isLow n then none else some [Char.ofNat n]
  | n :: m :: r =>
    if isHigh n then
      if isLow m then
        (join r).map (Char.ofNat (0x10000 + 1024 * (n - 0xD800) + (m - 0xDC00)) :: ·)
      else none
    else if isLow n then none
    else (join (m :: r)).map (Char.ofNat n :: ·)

/-- The text that follows an opening quote; `none` inside if it says nothing. -/
def quoted (s : List Char) : Option (Option String × List Char) :=
  (units s).map fun (ns, rest) => ((join ns).map String.ofList, rest)

/-! ## Numbers -/

/-- What follows one or more digits. -/
def pastDigits? (s : List Char) : Option (List Char) :=
  match s with
  | c :: r => if c.isDigit then some (r.dropWhile Char.isDigit) else none
  | [] => none

/-- What follows a number: no sign but a minus, and no digit behind a leading zero. -/
def pastNumber? (s : List Char) : Option (List Char) := do
  let s := match s with
    | '-' :: r => r
    | s => s
  let s ← match s with
    | '0' :: c :: r => if c.isDigit then none else some (c :: r)
    | s => pastDigits? s
  let s ← match s with
    | '.' :: r => pastDigits? r
    | s => some s
  match s with
  | c :: r =>
    if c == 'e' || c == 'E' then
      match r with
      | '+' :: r => pastDigits? r
      | '-' :: r => pastDigits? r
      | r => pastDigits? r
    else some (c :: r)
  | [] => some []

/-! ## Values -/

/-- A record, unless one of its keys says nothing. -/
def recordOf (fields : List (Option String × Value)) : Value :=
  match fields.mapM fun (key, v) => key.map (·, v) with
  | some fields => .record fields
  | none => .other

mutual

/-- The value that a text begins with, and what follows it. A bracket and the item behind it
cost one unit of fuel each. -/
def value : Nat → List Char → Option (Value × List Char)
  | 0, _ => none
  | fuel + 1, s =>
    match skipBlanks s with
    | 'n' :: 'u' :: 'l' :: 'l' :: r => some (.null none, r)
    | 't' :: 'r' :: 'u' :: 'e' :: r => some (.other, r)
    | 'f' :: 'a' :: 'l' :: 's' :: 'e' :: r => some (.other, r)
    | '"' :: r => (quoted r).map fun (t, rest) => (t.elim .other .text, rest)
    | '[' :: r =>
      match skipBlanks r with
      | ']' :: r => some (.list true [], r)
      | r => (items fuel r).map fun (vs, rest) => (.list true vs, rest)
    | '\x7b' :: r =>
      match skipBlanks r with
      | '\x7d' :: r => some (.record [], r)
      | r => (members fuel r).map fun (fs, rest) => (recordOf fs, rest)
    | r => (pastNumber? r).map (.other, ·)

/-- Values up to the closing bracket, at least one. -/
def items : Nat → List Char → Option (List Value × List Char)
  | 0, _ => none
  | fuel + 1, s => do
    let (v, r) ← value fuel s
    match skipBlanks r with
    | ',' :: r =>
      let (vs, rest) ← items fuel r
      return (v :: vs, rest)
    | ']' :: r => return ([v], r)
    | _ => none

/-- Fields up to the closing brace, at least one. -/
def members : Nat → List Char → Option (List (Option String × Value) × List Char)
  | 0, _ => none
  | fuel + 1, s => do
    let '"' :: r := skipBlanks s | none
    let (key, r) ← quoted r
    let ':' :: r := skipBlanks r | none
    let (v, r) ← value fuel r
    match skipBlanks r with
    | ',' :: r =>
      let (fs, rest) ← members fuel r
      return ((key, v) :: fs, rest)
    | '\x7d' :: r => return ([(key, v)], r)
    | _ => none

end

/-- The value that a JSON text says. -/
def read (text : String) : Option Value := do
  let (v, rest) ← value (2 * (text.length + 1)) text.toList
  if (skipBlanks rest).isEmpty then some v else none

end JavaMigration.Document.JsonText
