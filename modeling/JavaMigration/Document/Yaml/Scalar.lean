import JavaMigration.Document.Yaml.Place
import JavaMigration.Text.Hex

/-!
# Scalars of YAML

The texts of plain, quoted and block scalars. Line breaks within plain and quoted scalars are
folded: a single one is a space, and of several in a row the first one does not count.
-/

namespace JavaMigration.Document.Yaml

/-! ## Gaps -/

/-- Blanks and line breaks between two parts of a scalar. -/
structure Gap where
  blanks : List Char := []
  /-- The first line break, and those behind it. -/
  first : List Char := []
  more : List Char := []
  /-- Whether there is a line break, an escaped one included. -/
  broken : Bool := false
  deriving Repr, Inhabited

/-- The text that a gap stands for. -/
def Gap.text (g : Gap) : List Char :=
  if !g.broken then g.blanks
  else if g.first != ['\n'] then g.first ++ g.more
  else if g.more.isEmpty then [' ']
  else g.more

/-- The gap at a place. Behind a line break no tab may stand left of the column `least`. -/
def gapFrom (least : Nat) : Nat → Gap → Place → Option (Gap × Place)
  | 0, g, p => some (g, p)
  | fuel + 1, g, p =>
    match p.next with
    | none => some (g, p)
    | some c =>
      if isBlank c then
        if !g.broken then gapFrom least fuel { g with blanks := g.blanks ++ [c] } (p.skip 1)
        else if c == '\t' && p.column < least then none
        else gapFrom least fuel g (p.skip 1)
      else if isBreak c then
        let (b, p) := p.lineBreak
        if !g.broken then gapFrom least fuel { first := b, broken := true } p
        else gapFrom least fuel { g with more := g.more ++ b } p
      else some (g, p)

/-! ## Plain scalars -/

/-- How many characters of a plain scalar follow each other without a gap; `none` if a colon
stands where it cannot. -/
def plainLength (inFlow : Bool) : List Char → Option Nat
  | [] => some 0
  | c :: r =>
    let special (s : String) (c : Char) := inFlow && s.toList.contains c
    if isSpace c then some 0
    else if c == ':' && r.head?.any (special ",?[]\x7b\x7d") then none
    else if (c == ':' && r.head?.all isSpace) || special ",[]\x7b\x7d" c then some 0
    else (plainLength inFlow r).map (· + 1)

/-- The rest of a plain scalar behind the gap `g`, and whether a line break follows it. The lines
of one outside of brackets begin at the column `least` or further right. -/
def plainFrom (inFlow : Bool) (least : Nat) :
    Nat → Gap → Place → Option (List Char × Bool × Place)
  | 0, _, _ => none
  | fuel + 1, g, p =>
    if p.isDocumentMarker || p.next == some '#' then some ([], g.broken, p)
    else do
      let n ← plainLength inFlow p.rest
      if n == 0 then return ([], g.broken, p)
      let text := g.text ++ p.rest.take n
      let p := p.skip n
      if !p.nextIs isSpace then return (text, false, p)
      let (g, p) ← gapFrom least p.rest.length {} p
      if !inFlow && p.column < least then return (text, g.broken, p)
      let (more, broken, p) ← plainFrom inFlow least fuel g p
      return (text ++ more, broken, p)

/-- A plain scalar, and whether a line break follows it. -/
def plainScalar (inFlow : Bool) (least : Nat) (p : Place) : Option (List Char × Bool × Place) :=
  plainFrom inFlow least (p.rest.length + 1) {} p

/-! ## Quoted scalars -/

/-- What a backslash and a letter stand for. -/
def escaped? : Char → Option Char
  | '0' => some '\x00'
  | 'a' => some '\x07'
  | 'b' => some '\x08'
  | 't' => some '\t'
  | '\t' => some '\t'
  | 'n' => some '\n'
  | 'v' => some '\x0b'
  | 'f' => some '\x0c'
  | 'r' => some '\r'
  | 'e' => some '\x1b'
  | ' ' => some ' '
  | '"' => some '"'
  | '/' => some '/'
  | '\\' => some '\\'
  | 'N' => some '\u0085'
  | '_' => some '\u00a0'
  | 'L' => some '\u2028'
  | 'P' => some '\u2029'
  | _ => none

/-- How many digits follow the letter of an escape by number. -/
def escapeDigits? : Char → Option Nat
  | 'x' => some 2
  | 'u' => some 4
  | 'U' => some 8
  | _ => none

/-- The character that follows a backslash, and the place behind it. -/
def escape (p : Place) : Option (Char × Place) := do
  let letter ← p.next
  match escapeDigits? letter with
  | some n =>
    let digits := (p.rest.drop 1).take n
    if digits.length < n then none
    let c ← Text.hexChar? digits
    return (c, p.skip (n + 1))
  | none => return (← escaped? letter, p.skip 1)

/-- The rest of a quoted scalar and the place behind its closing quote. In single quotes a quote
is written twice, in double quotes there are escapes. -/
def quotedFrom (quote : Char) : Nat → Place → Option (List Char × Place)
  | 0, _ => none
  | fuel + 1, p => do
    if p.isDocumentMarker then none
    let c ← p.next
    let gap (g : Gap) (p : Place) : Option (List Char × Place) := do
      let (g, p) ← gapFrom 0 p.rest.length g p
      let (text, p) ← quotedFrom quote fuel p
      return (g.text ++ text, p)
    let char (c : Char) (p : Place) : Option (List Char × Place) := do
      let (text, p) ← quotedFrom quote fuel p
      return (c :: text, p)
    if isSpace c then gap {} p
    else if c == quote then
      if quote == '\'' && p.peek 1 == some '\'' then char '\'' (p.skip 2)
      else return ([], p.skip 1)
    else if c == '\\' && quote == '"' then
      if (p.peek 1).any isBreak then gap { broken := true } (p.skip 1).skipLine
      else
        let (c, p) ← escape (p.skip 1)
        char c p
    else char c (p.skip 1)

/-- A quoted scalar behind its opening quote. -/
def quotedScalar (quote : Char) (p : Place) : Option (List Char × Place) :=
  quotedFrom quote (p.rest.length + 1) p

/-! ## Block scalars -/

/-- What becomes of the line breaks at the end. -/
inductive Chomping where
  | strip
  | clip
  | keep
  deriving DecidableEq, Repr, Inhabited

def chomping? : Char → Option Chomping
  | '-' => some .strip
  | '+' => some .keep
  | _ => none

/-- The indicators of a block scalar, in either order: the indentation, unless it is to be
found out, and the chomping. -/
def blockHeader (p : Place) : Option (Option Nat × Chomping × Place) := do
  let chomping (p : Place) : Option Chomping × Place :=
    match p.next.bind chomping? with
    | some c => (some c, p.skip 1)
    | none => (none, p)
  let (before, p) := chomping p
  let (indent, p) ← match p.next with
    | some c =>
      if !c.isDigit then some (none, p)
      else if c == '0' then none
      else some (some (c.toNat - 48), p.skip 1)
    | none => some (none, p)
  let (behind, p) := if before.isNone && indent.isSome then chomping p else (none, p)
  return (indent, (before <|> behind).getD .clip, ← p.skipRestOfLine)

/-- The empty lines at a place and the indentation of the next one. Where the indentation is
not known it is the most that any of these lines has; otherwise no more is passed over. -/
def blockBreaks (indent : Option Nat) :
    Nat → Nat → List Char → Place → Option (List Char × Nat × Place)
  | 0, most, breaks, p => some (breaks, most, p)
  | fuel + 1, most, breaks, p =>
    let spaces := (p.rest.takeWhile (· == ' ')).length
    let p := p.skip (indent.elim spaces fun n => min spaces (n - p.column))
    let most := max most p.column
    if p.next == some '\t' && indent.all (p.column < ·) then none
    else if p.nextIs isBreak then
      let (b, p) := p.lineBreak
      blockBreaks indent fuel most (breaks ++ b) p
    else some (breaks, most, p)

/-- The lines of a block scalar behind a line break and some empty lines. A line break between
two lines that do not begin with a blank is folded, unless the scalar is literal. -/
def blockLines (literal : Bool) (indent : Nat) (chomping : Chomping) :
    Nat → List Char → List Char → Bool → Place → Option (List Char × Place)
  | 0, _, _, _, _ => none
  | fuel + 1, lead, breaks, afterBlank, p =>
    if p.column == indent && p.next.isSome then do
      let blank := p.nextIs isBlank
      let folds := !literal && lead == ['\n'] && !afterBlank && !blank
      let joint := if !folds then lead ++ breaks else if breaks.isEmpty then [' '] else breaks
      let (line, p) := p.takeWhile (!isBreak ·)
      let (lead, p) := p.lineBreak
      let (breaks, _, p) ← blockBreaks (some indent) p.rest.length 0 [] p
      let (text, p) ← blockLines literal indent chomping fuel lead breaks blank p
      return (joint ++ line ++ text, p)
    else
      match chomping with
      | .strip => some ([], p)
      | .clip => some (lead, p)
      | .keep => some (lead ++ breaks, p)

/-- A block scalar behind its first indicator. Its lines are further right than the column of
`parent`, if there is one. -/
def blockScalar (literal : Bool) (parent : Option Nat) (p : Place) :
    Option (List Char × Place) := do
  let (increment, chomping, p) ← blockHeader p
  let given := increment.map (parent.getD 0 + ·)
  let (breaks, most, p) ← blockBreaks given p.rest.length 0 [] p
  let indent := given.getD (max most (max 1 (parent.elim 0 (· + 1))))
  blockLines literal indent chomping (p.rest.length + 1) [] breaks false p

end JavaMigration.Document.Yaml
