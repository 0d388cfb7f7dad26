import JavaMigration.Regex.Basic
import JavaMigration.Text.Split

/-!
# Glob patterns

Patterns for paths: `?` and sets in brackets for one byte, `*` for any bytes, slashes included,
`**` between slashes for any directories, and alternatives in braces. A pattern is read into
tokens, and these are a search pattern over the bytes of a path.
-/

namespace JavaMigration.File

inductive GlobToken where
  | literal (c : Char)
  | anyByte
  | anyBytes
  /-- Directories at the beginning, or none. -/
  | leadingDirs
  /-- Everything below a directory. -/
  | contents
  /-- A slash, or directories between two slashes. -/
  | innerDirs
  | set (negated : Bool) (ranges : List (Char × Char))
  | alternatives (branches : List (List GlobToken))
  deriving Inhabited

namespace GlobToken

/-! ## Reading -/

/-- The members of a set up to its closing bracket, backwards. A closing bracket and a hyphen
that come first are members; `open_` tells whether a hyphen waits for the end of a range. -/
def setMembers (first open_ : Bool) (ranges : List (Char × Char)) :
    List Char → Option (List (Char × Char) × List Char)
  | [] => none
  | c :: r =>
    if c == ']' && !first then some (if open_ then ('-', '-') :: ranges else ranges, r)
    else if c == '-' && !first && !open_ then setMembers false true ranges r
    else
      match open_, ranges with
      | true, (start, _) :: rs =>
        if start ≤ c then setMembers false false ((start, c) :: rs) r else none
      | _, rs => setMembers false false ((c, c) :: rs) r

/-- A set behind its opening bracket. -/
def readSet (s : List Char) : Option (GlobToken × List Char) :=
  let (negated, s) := match s with
    | '!' :: r => (true, r)
    | '^' :: r => (true, r)
    | s => (false, s)
  (setMembers true false [] s).map fun (ranges, rest) => (.set negated ranges.reverse, rest)

/-- A branch being read: its tokens backwards. -/
abbrev Branch := List GlobToken

/-- The branches being read, the innermost first; those of the braces around a brace are kept
with the branches in front of them. -/
structure ReadState where
  current : Branch := []
  /-- The finished branches of the current braces, backwards. -/
  siblings : List Branch := []
  /-- The branch and its siblings around each open brace. -/
  around : List (Branch × List Branch) := []
  deriving Inhabited

namespace ReadState

def push (st : ReadState) (t : GlobToken) : ReadState := { st with current := t :: st.current }

def inBraces (st : ReadState) : Bool := !st.around.isEmpty

def openBrace (st : ReadState) : ReadState :=
  { current := [], siblings := [], around := (st.current, st.siblings) :: st.around }

def closeBrace? (st : ReadState) : Option ReadState :=
  match st.around with
  | [] => none
  | (current, siblings) :: around =>
    let branches := (st.current :: st.siblings).reverse.map List.reverse
    some { current := .alternatives branches :: current, siblings, around }

def comma (st : ReadState) : ReadState :=
  if st.inBraces then { st with current := [], siblings := st.current :: st.siblings }
  else st.push (.literal ',')

/-- A wildcard for directories in place of the token before it, usually a slash. -/
def replaceLast (st : ReadState) (t : GlobToken) : ReadState :=
  match st.current with
  | .leadingDirs :: _ => st
  | .contents :: _ => st
  | _ :: r => { st with current := t :: r }
  | [] => st.push t

/-- Two stars in front of `rest`, where `prev` is the character before them. They stand for
directories only if slashes or the ends of the branch surround them. -/
def doubleStar (st : ReadState) (prev : Option Char) (rest : List Char) :
    ReadState × Option Char × List Char :=
  let plain := ((st.push .anyBytes).push .anyBytes, some '*', rest)
  if st.current.isEmpty then
    match rest with
    | [] => (st.push .leadingDirs, none, [])
    | '/' :: r => (st.push .leadingDirs, some '/', r)
    | _ => plain
  else if prev == some '/' || (st.inBraces && (prev == some ',' || prev == some '\x7b')) then
    match rest with
    | [] => (st.replaceLast .contents, none, [])
    | '/' :: r => (st.replaceLast .innerDirs, some '/', r)
    | c :: _ =>
      if st.inBraces && (c == ',' || c == '\x7d') then (st.replaceLast .contents, some '*', rest)
      else plain
  else plain

end ReadState

/-- Reads a pattern; `prev` is the character in front of it. -/
def readFrom : Nat → ReadState → Option Char → List Char → Option (List GlobToken)
  | 0, _, _, _ => none
  | _ + 1, st, _, [] => if st.inBraces then none else some st.current.reverse
  | fuel + 1, st, prev, c :: r =>
    match c with
    | '?' => readFrom fuel (st.push .anyByte) (some c) r
    | '*' =>
      match r with
      | '*' :: r =>
        let (st, prev, r) := st.doubleStar prev r
        readFrom fuel st prev r
      | r => readFrom fuel (st.push .anyBytes) (some c) r
    | '[' => (readSet r).bind fun (t, r) => readFrom fuel (st.push t) (some ']') r
    | '\x7b' => readFrom fuel st.openBrace (some c) r
    | '\x7d' => st.closeBrace?.bind fun st => readFrom fuel st (some c) r
    | ',' => readFrom fuel st.comma (some c) r
    | '\\' =>
      match r with
      | c :: r => readFrom fuel (st.push (.literal c)) (some c) r
      | [] => none
    | c => readFrom fuel (st.push (.literal c)) (some c) r

/-! ## Meaning -/

def bytes (s : String) : List Nat := s.toUTF8.toList.map UInt8.toNat

def slash : Nat := 47

def any : Regex := .symbol (.range 0 255)

/-- The bytes of a range of characters: those of its ends, with a range from the last byte of
the one to the first byte of the other. -/
def rangeSet (first last : Char) : Regex.CharSet :=
  let a := bytes first.toString
  let b := bytes last.toString
  if first = last then .unionAll (a.map .single)
  else
    .unionAll ((a.dropLast.map .single) ++ [.range (a.getLastD 0) (b.headD 0)] ++
      (b.drop 1).map .single)

mutual

/-- The search pattern of a token; `none` for braces with nothing in them. -/
def pattern : GlobToken → Option Regex
  | literal c => some (.literal (bytes c.toString))
  | anyByte => some any
  | anyBytes => some (.star any)
  | leadingDirs =>
    some (.alt (.times (.literal [slash]) 0 (some 1)) (.cat (.star any) (.literal [slash])))
  | contents => some (.cat (.literal [slash]) (.star any))
  | innerDirs =>
    some (.alt (.literal [slash])
      (.cat (.literal [slash]) (.cat (.star any) (.literal [slash]))))
  | set negated ranges =>
    let s := Regex.CharSet.unionAll (ranges.map fun (first, last) => rangeSet first last)
    some (.symbol (if negated then .compl s else s))
  | alternatives branches =>
    match branchPatterns branches with
    | [] => none
    | rs => some (.altAll rs)

/-- The search patterns of tokens in a row; those that stand for nothing are left out. -/
def patterns : List GlobToken → List Regex
  | [] => []
  | t :: r => t.pattern.toList ++ patterns r

/-- The search patterns of alternatives, without the empty ones. -/
def branchPatterns : List (List GlobToken) → List Regex
  | [] => []
  | b :: r =>
    match patterns b with
    | [] => branchPatterns r
    | rs => .catAll rs :: branchPatterns r

end

end GlobToken

/-- A pattern for paths. -/
structure Glob where
  regex : Regex
  deriving DecidableEq, Repr, Inhabited

namespace Glob

/-- The glob that a text says. Two stars alone match everything. -/
def read (pattern : String) : Option Glob :=
  (GlobToken.readFrom (pattern.length + 1) {} none pattern.toList).map fun tokens =>
    match tokens with
    | [.leadingDirs] => ⟨.star GlobToken.any⟩
    | tokens => ⟨.catAll (GlobToken.patterns tokens)⟩

/-- Whether a path matches. -/
def accepts (g : Glob) (path : String) : Bool := g.regex.accepts (GlobToken.bytes path)

end Glob

end JavaMigration.File
