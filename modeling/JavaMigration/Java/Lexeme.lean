import JavaMigration.Source.Space
import JavaMigration.Text.Search

/-!
# Lexemes

Java source as a list of lexemes, each with the space before it. Nothing is dropped: the
lexemes with their spaces and the space after the last one are the source. A run of `>` is cut
into single characters, since only the grammar knows whether it closes type arguments or is an
operator.
-/

namespace JavaMigration.Java

open Text Source

inductive LexemeKind where
  | word
  | number
  | character
  | string
  | mark
  deriving DecidableEq, Repr, Inhabited

structure Lexeme where
  lead : Space
  kind : LexemeKind
  text : String
  deriving DecidableEq, Repr, Inhabited

def Lexeme.print (l : Lexeme) : String := l.lead.text ++ l.text

def printLexemes (ls : List Lexeme) : String := String.join (ls.map (·.print))

/-! ## Space -/

/-- A block comment behind its opening, up to the first closing. -/
def closeComment : List Char → Option (List Char × List Char)
  | [] => none
  | '*' :: '/' :: r => some (['*', '/'], r)
  | c :: r => (closeComment r).map fun p => (c :: p.1, p.2)

/-- Splits off the blanks and comments a text begins with, at most as many as the first list
is long. -/
def takeSpace : List Char → List Char → List Char × List Char
  | [], s => ([], s)
  | _ :: bound, s =>
    match s with
    | '/' :: '/' :: r =>
      let (line, r) := r.span (· != '\n')
      let (more, r) := takeSpace bound r
      ('/' :: '/' :: line ++ more, r)
    | '/' :: '*' :: r =>
      match closeComment r with
      | some (comment, r) =>
        let (more, r) := takeSpace bound r
        ('/' :: '*' :: comment ++ more, r)
      | none => ([], s)
    | c :: r =>
      if isJavaBlank c then
        let (more, r) := takeSpace bound r
        (c :: more, r)
      else ([], s)
    | [] => ([], [])

/-! ## Numbers -/

/-- The length of a run of digits and underscores up to its last digit. -/
def upToDigit (run : List Char) : Nat := (run.reverse.dropWhile (· == '_')).length

/-- The rest behind digits, between which there may be single underscores. -/
def digits (p : Char → Bool) (s : List Char) : Option (List Char) :=
  if s.head?.any p then
    let run := s.takeWhile fun c => p c || c == '_'
    some (s.drop (upToDigit ((Text.upTo ['_', '_'] run).getD run)))
  else none

def oneOf (cs : List Char) : List Char → Option (List Char)
  | [] => none
  | c :: r => if cs.contains c then some r else none

/-- Reads what it can: the rest behind `f`, or the text itself. -/
def maybe (f : List Char → Option (List Char)) (s : List Char) : Option (List Char) :=
  some ((f s).getD s)

def isHexDigit (c : Char) : Bool := c.isDigit || "abcdefABCDEF".toList.contains c

def isOctalDigit (c : Char) : Bool := '0' ≤ c && c ≤ '7'

/-- A decimal integer without leading zeros. Any number of underscores may stand between its
digits, but only one behind the first of them. -/
def plainInteger : List Char → Option (List Char)
  | [] => none
  | '0' :: r => some r
  | c :: r =>
    if c.isDigit then
      let rest := match r with
        | '_' :: r => r
        | r => r
      if rest.head?.any Char.isDigit then
        some (rest.drop (upToDigit (rest.takeWhile fun c => c.isDigit || c == '_')))
      else some r
    else none

def exponent (letters : List Char) (s : List Char) : Option (List Char) := do
  maybe (oneOf ['+', '-']) (← oneOf letters s) >>= digits Char.isDigit

def longMark := maybe (oneOf ['l', 'L'])

def floatMark := maybe (oneOf ['f', 'F', 'd', 'D'])

def hexStart (s : List Char) : Option (List Char) := oneOf ['0'] s >>= oneOf ['x', 'X']

/-- The forms of a number; each gives the rest behind it. -/
def numberForms : List (List Char → Option (List Char)) :=
  [fun s => plainInteger s >>= longMark,
    fun s => hexStart s >>= digits isHexDigit >>= longMark,
    fun s => oneOf ['0'] s >>= maybe (oneOf ['o', 'O']) >>= digits isOctalDigit >>= longMark,
    fun s => oneOf ['0'] s >>= oneOf ['b', 'B'] >>= digits (fun c => c == '0' || c == '1') >>=
      longMark,
    fun s => digits Char.isDigit s >>= oneOf ['.'] >>= maybe (digits Char.isDigit) >>=
      maybe (exponent ['e', 'E']) >>= floatMark,
    fun s => oneOf ['.'] s >>= digits Char.isDigit >>= maybe (exponent ['e', 'E']) >>= floatMark,
    fun s => plainInteger s >>= exponent ['e', 'E', 'p', 'P'] >>= floatMark,
    fun s => plainInteger s >>= maybe (exponent ['e', 'E']) >>= oneOf ['f', 'F', 'd', 'D'],
    fun s => hexStart s >>= digits isHexDigit >>= maybe (oneOf ['.']) >>=
      maybe (exponent ['p', 'P']) >>= floatMark,
    fun s => hexStart s >>= maybe (digits isHexDigit) >>= oneOf ['.'] >>= digits isHexDigit >>=
      maybe (exponent ['p', 'P']) >>= floatMark]

/-- The shortest rest that a form of number leaves. -/
def number (s : List Char) : Option (List Char) :=
  (numberForms.filterMap (· s)).foldl
    (fun best r =>
      match best with
      | some b => if r.length < b.length then some r else some b
      | none => some r)
    none

/-! ## Strings and characters -/

/-- The rest behind what follows a backslash. -/
def escaped : List Char → Option (List Char)
  | [] => none
  | 'x' :: r => if (r.take 2).length = 2 && (r.take 2).all isHexDigit then some (r.drop 2) else none
  | 'u' :: '{' :: r =>
    match r.span isHexDigit with
    | (_ :: _, '}' :: r) => some r
    | _ => none
  | 'u' :: r => if (r.take 4).length = 4 && (r.take 4).all isHexDigit then some (r.drop 4) else none
  | _ :: r => some r

/-- The rest behind a string, whose opening quote is already read. -/
def closeString : Nat → List Char → Option (List Char)
  | 0, _ => none
  | _ + 1, [] => none
  | n + 1, c :: r =>
    if c = '"' then some r
    else if c = '\\' then escaped r >>= closeString n
    else closeString n r

/-- The rest behind a text block, whose opening quotes are already read. -/
def closeTextBlock : Nat → List Char → Option (List Char)
  | 0, _ => none
  | _ + 1, [] => none
  | _ + 1, '"' :: '"' :: '"' :: r => some r
  | n + 1, c :: r => if c = '\\' then escaped r >>= closeTextBlock n else closeTextBlock n r

/-- The rest behind a character literal, whose opening quote is already read. -/
def closeCharacter : List Char → Option (List Char)
  | [] => none
  | '\\' :: _ :: r => closeCharacterTail r
  | c :: r => if c = '\'' || c = '\\' || c = '\n' then none else closeCharacterTail r
where
  closeCharacterTail : List Char → Option (List Char)
    | [] => none
    | '\\' :: _ :: r => closeCharacterTail r
    | c :: r =>
      if c = '\'' then some r
      else if c = '\\' || c = '\n' then none
      else closeCharacterTail r

/-! ## Lexemes -/

/-- The marks, each before those it begins with. -/
def marks : List String :=
  ["@interface", "...", "<<=", "->", "::", "++", "--", "&&", "||", "==", "!=", "<=", "<<", "+=",
    "-=", "*=", "/=", "&=", "|=", "^=", "%=", "(", ")", "\x7b", "\x7d", "[", "]", ";", ",", ".",
    "@", "=", "<", ">", "!", "~", "?", ":", "+", "-", "*", "/", "&", "|", "^", "%"]

def mark (s : List Char) : Option (List Char) := marks.findSome? fun m => dropStart? m.toList s

/-- The kind of the lexeme a text begins with, and the rest behind it. -/
def lexeme (s : List Char) : Option (LexemeKind × List Char) :=
  match s with
  | [] => none
  | '"' :: '"' :: '"' :: r => (closeTextBlock (r.length + 1) r).map (.string, ·)
  | '"' :: r => (closeString (r.length + 1) r).map (.string, ·)
  | '\'' :: r => (closeCharacter r).map (.character, ·)
  | c :: r =>
    if isIdentifierStart c then some (.word, r.dropWhile isIdentifierPart)
    else
      ((number s).map (LexemeKind.number, ·)).orElse fun _ => (mark s).map (LexemeKind.mark, ·)

/-- The lexemes of a text and the space behind the last one; at most `n` of them. -/
def lexFrom : Nat → List Char → List Char → Option (List Lexeme × Space)
  | 0, _, _ => none
  | n + 1, before, s =>
    let (space, s) := takeSpace s s
    let lead : Space := ⟨String.ofList (before ++ space)⟩
    match s with
    | [] => some ([], lead)
    | _ :: _ => do
      let (kind, rest) ← lexeme s
      let text := String.ofList (s.take (s.length - rest.length))
      let (more, close) ← lexFrom n [] rest
      pure (⟨lead, kind, text⟩ :: more, close)

/-- The lexemes of a source and the space behind the last one, if every character belongs to
one or the other. A byte order mark in front counts as space. -/
def lex (source : String) : Option (List Lexeme × Space) :=
  match source.toList with
  | '\uFEFF' :: s => lexFrom (s.length + 1) ['\uFEFF'] s
  | s => lexFrom (s.length + 1) [] s

end JavaMigration.Java
