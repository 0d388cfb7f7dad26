import JavaMigration.Document.Yaml.Scalar
import JavaMigration.Document.Yaml.Tag

/-!
# Tokens of YAML

A document as tokens, in which the beginning and end of every collection is explicit, whether
indentation or brackets show it. A key is known only by the colon behind it; the token for it, and
the one that begins its mapping, are then put in front of the tokens of the key.
-/

namespace JavaMigration.Document.Yaml

inductive Token where
  | directive (d : Directive)
  | documentStart
  | documentEnd
  /-- Collections shown by indentation. -/
  | sequenceStart
  | mappingStart
  | blockEnd
  /-- Collections shown by brackets. -/
  | bracketOpen
  | bracketClose
  | braceOpen
  | braceClose
  | comma
  | entry
  | key
  | value
  | alias (name : List Char)
  | anchor (name : List Char)
  | tag (t : Tag)
  | scalar (plain : Bool) (text : List Char)
  deriving DecidableEq, Repr, Inhabited

/-- Where a key may have begun: the number of the token, and whether a colon has to follow. -/
structure KeyStart where
  number : Nat
  required : Bool
  place : Place
  deriving Repr, Inhabited

structure Reading where
  place : Place
  /-- The tokens so far, backwards. -/
  tokens : List Token := []
  /-- The columns of the open collections that indentation shows, innermost first. -/
  columns : List Nat := []
  /-- Where the key in front of the place may have begun: outside of brackets, and in each of the
  open ones, innermost first. -/
  key : Option KeyStart := none
  outer : List (Option KeyStart) := []
  /-- Whether a key may begin here. -/
  keyAllowed : Bool := true
  deriving Inhabited

namespace Reading

def inFlow (st : Reading) : Bool := !st.outer.isEmpty

def push (st : Reading) (t : Token) : Reading := { st with tokens := t :: st.tokens }

/-- Puts a token in front of the one with a number. -/
def insert (st : Reading) (number : Nat) (t : Token) : Reading :=
  let later := st.tokens.length - number
  { st with tokens := st.tokens.take later ++ t :: st.tokens.drop later }

/-- Ends the collections that are further right than a column. -/
def endDeeper (column : Nat) (st : Reading) : Reading :=
  if st.inFlow then st
  else
    let open_ := st.columns.dropWhile (column < ·)
    let ended := List.replicate (st.columns.length - open_.length) Token.blockEnd
    { st with columns := open_, tokens := ended ++ st.tokens }

def endAll (st : Reading) : Reading :=
  if st.inFlow then st
  else
    let ended := List.replicate st.columns.length Token.blockEnd
    { st with columns := [], tokens := ended ++ st.tokens }

/-- Begins a collection at a column, in front of the token with a number, if the column is
further right than the open ones. -/
def beginAt (st : Reading) (column number : Nat) (t : Token) : Reading :=
  if !st.inFlow && st.columns.head?.all (· < column) then
    { st.insert number t with columns := column :: st.columns }
  else st

/-- Gives up the key that may have begun; `none` if it has to be one. -/
def dropKey (st : Reading) : Option Reading :=
  if st.key.any (·.required) then none else some { st with key := none }

/-- Notes that a key may begin here. -/
def startKey (st : Reading) : Option Reading :=
  if st.keyAllowed then
    st.dropKey.map fun st =>
      let required := !st.inFlow && st.columns.head? == some st.place.column
      { st with key := some ⟨st.tokens.length, required, st.place⟩ }
  else some st

/-- Whether a key that began at a place may still end at another: on the same line, within 1024
characters. -/
def KeyStart.isOpen (k : KeyStart) (p : Place) : Bool :=
  p.line ≤ k.place.line && p.index ≤ k.place.index + 1024

/-- Gives up the keys that may no longer end here. -/
def dropStale (st : Reading) : Option Reading :=
  let stale (k : Option KeyStart) := k.any fun k => !KeyStart.isOpen k st.place
  let drop (k : Option KeyStart) := k.filter fun k => KeyStart.isOpen k st.place
  if (st.key :: st.outer).any fun k => stale k && k.any (·.required) then none
  else some { st with key := drop st.key, outer := st.outer.map drop }

/-- Passes over blanks, comments and line breaks. Where a key may begin, tabs do not count as
blanks outside of brackets. -/
def skipSpace : Nat → Reading → Reading
  | 0, st => st
  | fuel + 1, st =>
    let blank (c : Char) := c == ' ' || ((st.inFlow || !st.keyAllowed) && c == '\t')
    let p := if st.place.index == 0 && st.place.next == some '\ufeff' then st.place.skip 1
      else st.place
    let p := p.skipWhile blank
    let p := if p.next == some '#' then p.skipWhile (!isBreak ·) else p
    if p.nextIs isBreak then
      skipSpace fuel { st with place := p.skipLine, keyAllowed := !st.inFlow || st.keyAllowed }
    else { st with place := p }

/-! ## Single tokens -/

/-- A directive or a document marker ends everything that is open. -/
def atTop (st : Reading) : Option Reading :=
  st.endAll.dropKey.map fun st => { st with keyAllowed := false }

def marker (st : Reading) (t : Token) : Option Reading :=
  st.atTop.map fun st => { st.push t with place := st.place.skip 3 }

def directive (st : Reading) : Option Reading := do
  let st ← st.atTop
  let (d, place) ← Yaml.directive (st.place.skip 1)
  return { st.push (.directive d) with place }

def openFlow (st : Reading) (t : Token) : Option Reading :=
  st.startKey.map fun st =>
    { st.push t with
      place := st.place.skip 1, outer := st.key :: st.outer, key := none, keyAllowed := true }

def closeFlow (st : Reading) (t : Token) : Option Reading :=
  st.dropKey.map fun st =>
    { st.push t with
      place := st.place.skip 1, key := st.outer.headD none, outer := st.outer.drop 1,
      keyAllowed := false }

def comma (st : Reading) : Option Reading :=
  st.dropKey.map fun st =>
    { st.push .comma with place := st.place.skip 1, keyAllowed := true }

/-- An indicator of an entry or a key, which may begin a collection. -/
def indicator (st : Reading) (start t : Token) (keyAllowed : Bool) : Option Reading :=
  if !st.inFlow && !st.keyAllowed then none
  else
    (st.beginAt st.place.column st.tokens.length start).dropKey.map fun st =>
      { st.push t with place := st.place.skip 1, keyAllowed }

/-- The colon between a key and its value. -/
def colon (st : Reading) : Option Reading :=
  match st.key with
  | some k =>
    let st := (st.insert k.number .key).beginAt k.place.column k.number .mappingStart
    some { st.push .value with place := st.place.skip 1, key := none, keyAllowed := false }
  | none =>
    if !st.inFlow && !st.keyAllowed then none
    else
      let st := st.beginAt st.place.column st.tokens.length .mappingStart
      some { st.push .value with place := st.place.skip 1, keyAllowed := !st.inFlow }

/-- A token that a key may begin with and behind which none may begin. -/
def keyed (st : Reading) (scan : Place → Option (Token × Place)) : Option Reading := do
  let st ← st.startKey
  let (t, place) ← scan st.place
  return { st.push t with place, keyAllowed := false }

/-- A name behind the indicator of an anchor or alias. -/
def name (p : Place) : Option (List Char × Place) :=
  let (name, p) := (p.skip 1).takeWhile isWordChar
  if !name.isEmpty && (p.spaceAt 0 || p.nextIs ("?:,]\x7d%@`".toList.contains ·)) then
    some (name, p)
  else none

def quoted (quote : Char) (p : Place) : Option (Token × Place) :=
  (quotedScalar quote (p.skip 1)).map fun (text, p) => (.scalar false text, p)

/-- A block scalar. A key may begin behind it. -/
def block (st : Reading) (literal : Bool) : Option Reading := do
  let st ← st.dropKey
  let (text, place) ← blockScalar literal st.columns.head? (st.place.skip 1)
  return { st.push (.scalar false text) with place, keyAllowed := true }

/-- A plain scalar. If a line break follows it a key may begin there. -/
def plain (st : Reading) : Option Reading := do
  let st ← st.startKey
  let least := st.columns.head?.elim 0 (· + 1)
  let (text, broken, place) ← plainScalar st.inFlow least st.place
  return { st.push (.scalar true text) with place, keyAllowed := broken }

/-- The characters that cannot begin a plain scalar, but some of them if no blank follows. -/
def indicators : List Char := "-?:,[]\x7b\x7d#&*!|>'\"%@`".toList

def beginsPlain (st : Reading) (c : Char) : Bool :=
  (!isSpace c && !indicators.contains c) ||
    (c == '-' && !(st.place.peek 1).any isBlank) ||
    (!st.inFlow && (c == '?' || c == ':') && !st.place.spaceAt 1)

/-- The token that a character begins. -/
def token (st : Reading) (c : Char) : Option Reading :=
  if st.place.column == 0 && c == '%' then st.directive
  else if st.place.isMarker '-' then st.marker .documentStart
  else if st.place.isMarker '.' then st.marker .documentEnd
  else if c == '[' then st.openFlow .bracketOpen
  else if c == '\x7b' then st.openFlow .braceOpen
  else if c == ']' then st.closeFlow .bracketClose
  else if c == '\x7d' then st.closeFlow .braceClose
  else if c == ',' then st.comma
  else if c == '-' && st.place.spaceAt 1 then st.indicator .sequenceStart .entry true
  else if c == '?' && (st.inFlow || st.place.spaceAt 1) then
    st.indicator .mappingStart .key (!st.inFlow)
  else if c == ':' && (st.inFlow || st.place.spaceAt 1) then st.colon
  else if c == '*' then st.keyed fun p => (name p).map fun (n, p) => (.alias n, p)
  else if c == '&' then st.keyed fun p => (name p).map fun (n, p) => (.anchor n, p)
  else if c == '!' then
    st.keyed fun p => (Yaml.tag st.inFlow (p.skip 1)).map fun (t, p) => (.tag t, p)
  else if c == '|' && !st.inFlow then st.block true
  else if c == '>' && !st.inFlow then st.block false
  else if c == '\'' || c == '"' then st.keyed (quoted c)
  else if st.beginsPlain c then st.plain
  else none

/-! ## All tokens -/

/-- The tokens from a place on. -/
def tokensFrom : Nat → Reading → Option (List Token)
  | 0, _ => none
  | fuel + 1, st => do
    let st := skipSpace st.place.rest.length st
    let st := (← st.dropStale).endDeeper st.place.column
    match st.place.next with
    | none => st.endAll.dropKey.map (·.tokens.reverse)
    | some c => tokensFrom fuel (← st.token c)

end Reading

/-- The tokens of a text; `none` if it has none. -/
def Token.ofText? (text : String) : Option (List Token) :=
  if text.toList.all isPrintable then
    Reading.tokensFrom (text.length + 1) { place := { rest := text.toList } }
  else none

end JavaMigration.Document.Yaml
