/-!
# Places in a YAML text

The characters that are left at a place, with the line and column it is in, and the characters
that YAML treats alike.
-/

namespace JavaMigration.Document.Yaml

/-- The characters that may occur in a document at all. -/
def isPrintable (c : Char) : Bool :=
  let n := c.toNat
  c == '\t' || c == '\n' || c == '\r' || (0x20 ≤ n && n ≤ 0x7E) || n == 0x85 ||
    (0xA0 ≤ n && n ≤ 0xFFFD) || 0x10000 ≤ n

def isBlank (c : Char) : Bool := c == ' ' || c == '\t'

def isBreak (c : Char) : Bool :=
  c == '\n' || c == '\r' || c == '\u0085' || c == '\u2028' || c == '\u2029'

def isSpace (c : Char) : Bool := isBlank c || isBreak c

/-- The characters of the names of anchors, handles and directives. -/
def isWordChar (c : Char) : Bool := c.isAlphanum || c == '_' || c == '-'

structure Place where
  rest : List Char
  index : Nat := 0
  line : Nat := 0
  column : Nat := 0
  deriving Repr, Inhabited

namespace Place

/-- The character `n` places further on. -/
def peek (p : Place) (n : Nat) : Option Char := p.rest[n]?

def next (p : Place) : Option Char := p.rest.head?

def nextIs (p : Place) (test : Char → Bool) : Bool := p.next.any test

/-- Whether the text ends `n` places further on, or a blank or a line break stands there. -/
def spaceAt (p : Place) (n : Nat) : Bool := (p.peek n).all isSpace

/-- Passes over characters of one line. -/
def skip (p : Place) (n : Nat) : Place :=
  { p with rest := p.rest.drop n, index := p.index + n, column := p.column + n }

def skipWhile (p : Place) (test : Char → Bool) : Place := p.skip (p.rest.takeWhile test).length

/-- The characters in front of which a test holds, and the place behind them. -/
def takeWhile (p : Place) (test : Char → Bool) : List Char × Place :=
  let taken := p.rest.takeWhile test
  (taken, p.skip taken.length)

/-- What a line break stands for, and the place behind it. All breaks but the separators of
lines and paragraphs stand for a line feed. -/
def lineBreak (p : Place) : List Char × Place :=
  let behind (n : Nat) : Place :=
    { rest := p.rest.drop n, index := p.index + n, line := p.line + 1, column := 0 }
  match p.rest with
  | '\r' :: '\n' :: _ => (['\n'], behind 2)
  | c :: _ =>
    if c == '\u2028' || c == '\u2029' then ([c], behind 1)
    else if isBreak c then (['\n'], behind 1)
    else ([], p)
  | [] => ([], p)

def skipLine (p : Place) : Place := p.lineBreak.2

/-- Whether a line of three such characters and nothing else, or a blank behind them, is here. -/
def isMarker (p : Place) (c : Char) : Bool :=
  p.column == 0 && p.rest.take 3 == [c, c, c] && p.spaceAt 3

def isDocumentMarker (p : Place) : Bool := p.isMarker '-' || p.isMarker '.'

/-- Passes over blanks and a comment up to the end of the line; `none` if there is anything
else. -/
def skipRestOfLine (p : Place) : Option Place :=
  let p := p.skipWhile isBlank
  let p := if p.next == some '#' then p.skipWhile (!isBreak ·) else p
  if p.next.all isBreak then some p.skipLine else none

end Place

end JavaMigration.Document.Yaml
