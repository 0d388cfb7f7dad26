import JavaMigration.Document.Yaml.Place
import JavaMigration.Text.Hex

/-!
# Tags and directives of YAML

Tags as they are written, with a handle that directives give a meaning to, and the directives of
a document.
-/

namespace JavaMigration.Document.Yaml

/-- A tag: the suffix alone if the handle is empty. -/
structure Tag where
  handle : List Char
  suffix : List Char
  deriving DecidableEq, Repr, Inhabited

/-! ## Escaped bytes -/

/-- The byte of a percent sign and two digits. -/
def escapedByte? (p : Place) : Option Nat := do
  if p.next != some '%' then none
  let digits := (p.rest.drop 1).take 2
  if digits.length < 2 then none
  Text.hexNumber? digits

/-- How many bytes the encoding of a character has that begins with a given one. -/
def encodedLength? (byte : Nat) : Option Nat :=
  if byte < 0x80 then some 1
  else if 0xC0 ≤ byte && byte < 0xE0 then some 2
  else if 0xE0 ≤ byte && byte < 0xF0 then some 3
  else if 0xF0 ≤ byte && byte < 0xF8 then some 4
  else none

/-- The bytes that continue the encoding of a character. -/
def continuation : Nat → Place → Option (List Char × Place)
  | 0, p => some ([], p)
  | n + 1, p => do
    let byte ← escapedByte? p
    if byte < 0x80 || 0xC0 ≤ byte then none
    let (more, p) ← continuation n (p.skip 3)
    return (Char.ofNat byte :: more, p)

/-- An escaped character, byte by byte. -/
def escapedChar (p : Place) : Option (List Char × Place) := do
  let byte ← escapedByte? p
  let n ← encodedLength? byte
  let (more, p) ← continuation (n - 1) (p.skip 3)
  return (Char.ofNat byte :: more, p)

/-! ## Tags -/

/-- The characters of a tag. Within angle brackets there are some more. -/
def isTagChar (enclosed : Bool) (c : Char) : Bool :=
  isWordChar c || ";/?:@&=+$.!~*'()%".toList.contains c || (enclosed && ",[]".toList.contains c)

/-- The characters of a tag at a place, with escapes decoded. -/
def tagChars (enclosed : Bool) : Nat → Place → Option (List Char × Place)
  | 0, p => some ([], p)
  | fuel + 1, p =>
    match p.next with
    | none => some ([], p)
    | some c =>
      if c == '%' then do
        let (cs, p) ← escapedChar p
        let (more, p) ← tagChars enclosed fuel p
        return (cs ++ more, p)
      else if isTagChar enclosed c then
        (tagChars enclosed fuel (p.skip 1)).map fun (more, p) => (c :: more, p)
      else some ([], p)

def tagText (enclosed : Bool) (p : Place) : Option (List Char × Place) :=
  tagChars enclosed p.rest.length p

/-- What follows the exclamation mark of a handle: word characters and perhaps another mark. -/
def handleText (p : Place) : List Char × Place :=
  let (word, p) := p.takeWhile isWordChar
  if p.next == some '!' then ('!' :: word ++ ['!'], p.skip 1) else ('!' :: word, p)

/-- Whether the text of a handle is one between two exclamation marks. -/
def isFullHandle (handle : List Char) : Bool :=
  handle.length > 1 && handle.getLast? == some '!'

/-- A tag behind its exclamation mark. -/
def tag (inFlow : Bool) (p : Place) : Option (Tag × Place) := do
  let (t, p) ← (do
    if p.next == some '<' then
      let (suffix, p) ← tagText true (p.skip 1)
      if suffix.isEmpty || p.next != some '>' then none
      return (⟨[], suffix⟩, p.skip 1)
    else
      let (handle, p) := handleText p
      let (suffix, p) ← tagText false p
      if isFullHandle handle then
        if suffix.isEmpty then none else return (⟨handle, suffix⟩, p)
      else
        let suffix := handle.drop 1 ++ suffix
        return (if suffix.isEmpty then ⟨[], ['!']⟩ else ⟨['!'], suffix⟩, p) : Option (Tag × Place))
  if p.spaceAt 0 || (inFlow && p.next == some ',') then return (t, p) else none

/-! ## Directives -/

inductive Directive where
  | version (major minor : Nat)
  | tag (handle start : List Char)
  deriving DecidableEq, Repr, Inhabited

/-- A part of a version, of at most nine digits. -/
def versionNumber (p : Place) : Option (Nat × Place) := do
  let (digits, p) := p.takeWhile Char.isDigit
  if digits.isEmpty || digits.length > 9 then none
  return (digits.foldl (fun n c => 10 * n + (c.toNat - 48)) 0, p)

def versionDirective (p : Place) : Option (Directive × Place) := do
  let (major, p) ← versionNumber (p.skipWhile isBlank)
  if p.next != some '.' then none
  let (minor, p) ← versionNumber (p.skip 1)
  return (.version major minor, p)

def tagDirective (p : Place) : Option (Directive × Place) := do
  let p := p.skipWhile isBlank
  if p.next != some '!' then none
  let (handle, p) := handleText (p.skip 1)
  if handle.length > 1 && !isFullHandle handle then none
  if !p.nextIs isBlank then none
  let (start, p) ← tagText true (p.skipWhile isBlank)
  if start.isEmpty || !p.spaceAt 0 then none
  return (.tag handle start, p)

/-- A directive behind its percent sign, with the rest of its line. -/
def directive (p : Place) : Option (Directive × Place) := do
  let (name, p) := p.takeWhile isWordChar
  if !p.spaceAt 0 then none
  let (d, p) ← match String.ofList name with
    | "YAML" => versionDirective p
    | "TAG" => tagDirective p
    | _ => none
  return (d, ← p.skipRestOfLine)

/-- The starts that handles stand for in a document with some directives; `none` if there are
two versions, two directives for a handle or a version that is not understood. -/
def handles : List Directive → Option (List (List Char × List Char))
  | [] => some []
  | .version major minor :: r => do
    if major != 1 || (minor != 1 && minor != 2) then none
    if r.any fun
      | .version .. => true
      | .tag .. => false
    then none
    handles r
  | .tag handle start :: r => do
    let rest ← handles r
    if (rest.lookup handle).isSome then none
    return (handle, start) :: rest

/-- The handles that have a meaning without a directive. -/
def defaultHandles : List (List Char × List Char) :=
  [(['!'], ['!']), (['!', '!'], "tag:yaml.org,2002:".toList)]

/-- A tag in full; `none` if its handle has no meaning. -/
def Tag.resolve (known : List (List Char × List Char)) (t : Tag) : Option (List Char) :=
  if t.handle.isEmpty then some t.suffix
  else ((known ++ defaultHandles).lookup t.handle).map (· ++ t.suffix)

def nullTag : List Char := "tag:yaml.org,2002:null".toList

end JavaMigration.Document.Yaml
