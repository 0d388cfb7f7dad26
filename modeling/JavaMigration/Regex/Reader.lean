import JavaMigration.Regex.Basic
import JavaMigration.Text.Hex
import JavaMigration.Text.Split

/-!
# Reading search patterns

The written form of search patterns: literals and escapes, bracketed sets with set operations,
groups with flags or names, repetitions, alternatives and assertions. Every text is either a
pattern or refused.
-/

namespace JavaMigration.Regex

/-- How the rest of a group is read. -/
structure Flags where
  ignoreCase : Bool := false
  multiLine : Bool := false
  dotAll : Bool := false
  /-- Carriage returns end lines too. -/
  anyLineEnd : Bool := false
  /-- Sets are sets of characters; otherwise they hold ASCII only. -/
  unicode : Bool := true
  /-- Blanks and comments do not count. -/
  spaced : Bool := false
  deriving DecidableEq, Repr, Inhabited

/-! ## Blanks -/

/-- What follows blanks and comments; the flag tells whether the text begins in a comment. -/
def pastSpace : Bool → List Char → List Char
  | _, [] => []
  | true, c :: r => pastSpace (c != '\n') r
  | false, c :: r =>
    if c == '#' then pastSpace true r
    else if Text.isBlank c then pastSpace false r
    else c :: r

def Flags.skip (f : Flags) (s : List Char) : List Char := if f.spaced then pastSpace false s else s

/-! ## Sets -/

def asciiOnly : CharSet := .range 0 127

def asciiDigit : CharSet := .range 48 57

def asciiBlank : CharSet := .union (.range 9 13) (.single 32)

def asciiWord : CharSet := .ofRanges [(48, 57), (65, 90), (95, 95), (97, 122)]

def Flags.wordSet (f : Flags) : CharSet := if f.unicode then .property .word else asciiWord

/-- The set of the letter of an escape: digits, blanks and word characters. -/
def Flags.classSet? (f : Flags) : Char → Option CharSet
  | 'd' => some (if f.unicode then .property .digit else asciiDigit)
  | 's' => some (if f.unicode then .property .blank else asciiBlank)
  | 'w' => some f.wordSet
  | _ => none

/-- The sets with a name in double brackets. -/
def namedSet? : String → Option CharSet
  | "alnum" => some (.ofRanges [(48, 57), (65, 90), (97, 122)])
  | "alpha" => some (.ofRanges [(65, 90), (97, 122)])
  | "ascii" => some asciiOnly
  | "blank" => some (.ofRanges [(9, 9), (32, 32)])
  | "cntrl" => some (.ofRanges [(0, 31), (127, 127)])
  | "digit" => some asciiDigit
  | "graph" => some (.range 33 126)
  | "lower" => some (.range 97 122)
  | "print" => some (.range 32 126)
  | "punct" => some (.ofRanges [(33, 47), (58, 64), (91, 96), (123, 126)])
  | "space" => some asciiBlank
  | "upper" => some (.range 65 90)
  | "word" => some asciiWord
  | "xdigit" => some (.ofRanges [(48, 57), (65, 70), (97, 102)])
  | _ => none

/-- A set as it is meant under the flags. -/
def Flags.cased (f : Flags) (s : CharSet) : CharSet :=
  if !f.ignoreCase then s else if f.unicode then .anyCase s else .inter (.anyCase s) asciiOnly

/-- A set, or its complement. Without Unicode it has to hold ASCII only. -/
def Flags.checked (f : Flags) (negated : Bool) (s : CharSet) : Option CharSet :=
  let s := if negated then .compl s else s
  if f.unicode || (List.range 128).all (fun n => !s.contains (128 + n)) then some s else none

/-! ## Escapes -/

/-- One symbol, several or none. -/
inductive Primitive where
  /-- A character; `byte` if it is written as the two digits of a byte. -/
  | char (c : Char) (byte : Bool)
  | set (s : CharSet)
  | assertion (a : Assertion)
  deriving Inhabited

/-- A character by a fixed number of digits, two of which are a byte. -/
def hexDigits (f : Flags) (byte : Bool) :
    Nat → List Char → List Char → Option (Primitive × List Char)
  | 0, digits, s => (Text.hexChar? digits).map fun c => (.char c byte, s)
  | _ + 1, _, [] => none
  | n + 1, digits, c :: r => hexDigits f byte n (digits ++ [c]) (f.skip r)

/-- A character by its digits; the letter in front tells how many there are without braces. -/
def hexEscape (f : Flags) (count : Nat) (s : List Char) : Option (Primitive × List Char) :=
  match f.skip s with
  | '\x7b' :: r => do
    let (digits, rest) ← Text.cutFirst '\x7d' r
    let digits := if f.spaced then digits.filter (!Text.isBlank ·) else digits
    (Text.hexChar? digits).map fun c => (.char c false, f.skip rest)
  | s => hexDigits f (count == 2) count [] s

/-- The characters that may be escaped to stand for themselves. -/
def isEscapable (c : Char) : Bool := c.toNat < 128 && !c.isAlphanum && c != '<' && c != '>'

/-- The kinds of word boundaries with a name in braces. -/
def namedBoundary? (word : CharSet) : String → Option Assertion
  | "start" => some (.wordStart word)
  | "end" => some (.wordEnd word)
  | "start-half" => some (.noWordBefore word)
  | "end-half" => some (.noWordAfter word)
  | _ => none

/-- What follows `\b`: a name in braces, unless the braces are a count. -/
def wordBoundary (f : Flags) (s : List Char) : Option (Primitive × List Char) :=
  let isNamePart (c : Char) := c.isAlpha || c == '-'
  match s with
  | '\x7b' :: r =>
    let r := f.skip r
    if r.isEmpty then none
    else if r.head?.any isNamePart then
      match r.dropWhile isNamePart with
      | '\x7d' :: rest =>
        (namedBoundary? f.wordSet (String.ofList (r.takeWhile isNamePart))).map (.assertion ·, rest)
      | _ => none
    else some (.assertion (.wordEdge f.wordSet), s)
  | _ => some (.assertion (.wordEdge f.wordSet), s)

/-- What follows a backslash. -/
def escape (f : Flags) : List Char → Option (Primitive × List Char)
  | [] => none
  | 'x' :: r => hexEscape f 2 r
  | 'u' :: r => hexEscape f 4 r
  | 'U' :: r => hexEscape f 8 r
  | 'a' :: r => some (.char '\x07' false, r)
  | 'f' :: r => some (.char '\x0c' false, r)
  | 't' :: r => some (.char '\t' false, r)
  | 'n' :: r => some (.char '\n' false, r)
  | 'r' :: r => some (.char '\r' false, r)
  | 'v' :: r => some (.char '\x0b' false, r)
  | 'A' :: r => some (.assertion .textStart, r)
  | 'z' :: r => some (.assertion .textEnd, r)
  | 'b' :: r => wordBoundary f r
  | 'B' :: r => some (.assertion (.noWordEdge f.wordSet), r)
  | '<' :: r => some (.assertion (.wordStart f.wordSet), r)
  | '>' :: r => some (.assertion (.wordEnd f.wordSet), r)
  | c :: r =>
    match f.classSet? c.toLower with
    | some s => (f.checked c.isUpper s).map (.set ·, r)
    | none => if isEscapable c then some (.char c false, r) else none

/-! ## Bracketed sets -/

/-- A named set behind an opening bracket, with its closing brackets. -/
def namedClass (f : Flags) : List Char → Option (CharSet × List Char)
  | ':' :: r => do
    let (negated, r) := match r with
      | '^' :: r => (true, r)
      | r => (false, r)
    let (name, rest) ← Text.cutFirst ':' r
    let ']' :: rest := rest | none
    let s ← namedSet? (String.ofList name)
    return (if negated then .compl (f.cased s) else f.cased s, rest)
  | _ => none

def setPrimitive (f : Flags) : List Char → Option (Primitive × List Char)
  | '\\' :: r => escape f r
  | c :: r => some (.char c false, r)
  | [] => none

/-- The number of a character in a set. -/
def Flags.member? (f : Flags) : Primitive → Option Nat
  | .char c _ => if f.unicode || c.toNat < 128 then some c.toNat else none
  | _ => none

/-- One character, a range of them or the set of an escape. -/
def setRange (f : Flags) (s : List Char) : Option (CharSet × List Char) := do
  let (p, r) ← setPrimitive f s
  let alone : Option CharSet := match p with
    | .set s => some s
    | p => (f.member? p).map .single
  match f.skip r with
  | [] => none
  | '-' :: r' =>
    match (f.skip r').head? with
    | some ']' => alone.map (·, '-' :: r')
    | some '-' => alone.map (·, '-' :: r')
    | _ =>
      let (q, rest) ← setPrimitive f (f.skip r')
      let first ← f.member? p
      let last ← f.member? q
      if first ≤ last then some (.range first last, rest) else none
  | r => alone.map (·, r)

/-- The leading hyphens of a set, and what follows them. -/
def leadingHyphens (f : Flags) : Nat → List Char → CharSet × List Char
  | 0, s => (.empty, s)
  | n + 1, s =>
    match s with
    | '-' :: r => (.char '-', (leadingHyphens f n (f.skip r)).2)
    | s => (.empty, s)

mutual

/-- A set behind its opening bracket. A closing bracket that comes first is a member. -/
def bracketed : Nat → Flags → List Char → Option (CharSet × List Char)
  | 0, _, _ => none
  | fuel + 1, f, s => do
    let s := f.skip s
    let (negated, s) := match s with
      | '^' :: r => (true, f.skip r)
      | s => (false, s)
    let (hyphens, s) := leadingHyphens f s.length s
    let (first, s) := match s with
      | ']' :: r => if hyphens = .empty then (CharSet.char ']', f.skip r) else (hyphens, s)
      | s => (hyphens, s)
    let (set, rest) ← setItems fuel f id first s
    let set ← f.checked negated (f.cased set)
    return (set, rest)

/-- The rest of a set: `so` holds the members of the current operand, which `combine` joins to
the operands before it. -/
def setItems : Nat → Flags → (CharSet → CharSet) → CharSet → List Char →
    Option (CharSet × List Char)
  | 0, _, _, _, _ => none
  | fuel + 1, f, combine, so, s =>
    let next (op : CharSet → CharSet → CharSet) (r : List Char) :=
      setItems fuel f (fun t => op (f.cased (combine so)) (f.cased t)) .empty r
    match f.skip s with
    | [] => none
    | ']' :: r => some (combine so, r)
    | '&' :: '&' :: r => next .inter r
    | '-' :: '-' :: r => next .diff r
    | '~' :: '~' :: r => next .symmDiff r
    | '[' :: r =>
      match namedClass f r with
      | some (set, rest) =>
        (f.checked false set).bind fun set => setItems fuel f combine (.union so set) rest
      | none =>
        (bracketed fuel f r).bind fun (set, rest) => setItems fuel f combine (.union so set) rest
    | s => (setRange f s).bind fun (set, rest) => setItems fuel f combine (.union so set) rest

end

/-! ## Repetition counts -/

/-- A number with blanks around it. -/
def count (f : Flags) (s : List Char) : Option Nat × List Char :=
  let s := s.dropWhile Text.isBlank
  let digits := s.takeWhile Char.isDigit
  let rest := f.skip ((s.drop digits.length).dropWhile Text.isBlank)
  let n := digits.foldl (fun n c => 10 * n + (c.toNat - 48)) 0
  (if digits.isEmpty || n ≥ 0x100000000 then none else some n, rest)

/-- Least and most repetitions, behind the opening brace. -/
def counts (f : Flags) (s : List Char) : Option ((Nat × Option Nat) × List Char) := do
  let (least, r) := count f (f.skip s)
  let least ← least
  match r with
  | '\x7d' :: r => return ((least, some least), r)
  | ',' :: r =>
    match f.skip r with
    | '\x7d' :: r => return ((least, none), r)
    | r =>
      let (most, r) := count f r
      let most ← most
      let '\x7d' :: r := r | none
      if least ≤ most then return ((least, some most), r) else none
  | _ => none

/-- A pattern that may be repeated: the least and the most number of times, and what follows the
operator. A question mark behind it does not change what is accepted. -/
def repetition? (f : Flags) : List Char → Option (Option ((Nat × Option Nat) × List Char))
  | '?' :: r => some (some ((0, some 1), r))
  | '*' :: r => some (some ((0, none), r))
  | '+' :: r => some (some ((1, none), r))
  | '\x7b' :: r => some (counts f r)
  | _ => none

/-! ## Groups -/

/-- Sets a flag by its letter. One of them only says which match is preferred. -/
def Flags.set? (f : Flags) (on : Bool) : Char → Option Flags
  | 'i' => some { f with ignoreCase := on }
  | 'm' => some { f with multiLine := on }
  | 's' => some { f with dotAll := on }
  | 'R' => some { f with anyLineEnd := on }
  | 'u' => some { f with unicode := on }
  | 'x' => some { f with spaced := on }
  | 'U' => some f
  | _ => none

/-- Flags up to a colon or a closing parenthesis, each of them once. -/
def flagList (seen : List Char) (on : Bool) (f : Flags) :
    List Char → Option (Flags × List Char × List Char)
  | [] => none
  | c :: r =>
    if c == ':' || c == ')' then
      if seen.head? == some '-' then none else some (f, seen, c :: r)
    else if seen.contains c then none
    else if c == '-' then flagList (c :: seen) false f r
    else (f.set? on c).bind fun f => flagList (c :: seen) on f r

/-- How a group begins. -/
inductive Opening where
  | group (name : Option String)
  | flagged (flags : Flags)
  /-- No group: the flags hold for the rest of the group around. -/
  | flags (flags : Flags)
  deriving Inhabited

def isGroupName : List Char → Bool
  | [] => false
  | c :: r =>
    (c == '_' || Text.isLetter c) &&
      r.all fun c => c == '_' || c == '.' || c == '[' || c == ']' || Text.isAlphanumeric c

/-- A group name up to the closing angle. -/
def groupName (s : List Char) : Option (Opening × List Char) := do
  let (name, rest) ← Text.cutFirst '>' s
  if isGroupName name then some (.group (String.ofList name), rest) else none

/-- What follows an opening parenthesis. Nothing looks around the position but assertions. -/
def opening (f : Flags) (s : List Char) : Option (Opening × List Char) :=
  match f.skip s with
  | '?' :: '=' :: _ => none
  | '?' :: '!' :: _ => none
  | '?' :: '<' :: '=' :: _ => none
  | '?' :: '<' :: '!' :: _ => none
  | '?' :: 'P' :: '<' :: r => groupName r
  | '?' :: '<' :: r => groupName r
  | '?' :: r => do
    let (flags, seen, r) ← flagList [] true f r
    match r with
    | ')' :: r => if seen.isEmpty then none else some (.flags flags, r)
    | _ :: r => some (.flagged flags, r)
    | [] => none
  | r => some (.group none, r)

/-! ## Patterns -/

/-- The flags, and the names given to groups so far. -/
structure ReadState where
  flags : Flags := {}
  names : List String := []
  deriving Inhabited

/-- A character as it is meant under the flags. -/
def Flags.literal? (f : Flags) (c : Char) (byte : Bool) : Option Regex :=
  if f.unicode || c.toNat < 128 then some (.symbol (f.cased (.char c)))
  else if byte then none
  else some (.symbol (.char c))

def Flags.primitive? (f : Flags) : Primitive → Option Regex
  | .char c byte => f.literal? c byte
  | .set s => some (.symbol s)
  | .assertion a => some (.assertion a)

/-- Any character but the ends of lines. -/
def Flags.dot? (f : Flags) : Option Regex :=
  if !f.unicode then none
  else if f.dotAll then some (.symbol .any)
  else if f.anyLineEnd then
    some (.symbol (.compl (.union (.single lineFeed) (.single carriageReturn))))
  else some (.symbol (.compl (.single lineFeed)))

def Flags.lineStart (f : Flags) : Assertion :=
  if !f.multiLine then .textStart else if f.anyLineEnd then .anyLineStart else .lineStart

def Flags.lineEnd (f : Flags) : Assertion :=
  if !f.multiLine then .textEnd else if f.anyLineEnd then .anyLineEnd else .lineEnd

/-- An item that is neither a group nor a bracketed set. -/
def simpleItem (f : Flags) : List Char → Option (Regex × List Char)
  | '.' :: r => f.dot?.map (·, r)
  | '^' :: r => some (.assertion f.lineStart, r)
  | '$' :: r => some (.assertion f.lineEnd, r)
  | '\\' :: r => (escape f r).bind fun (p, rest) => (f.primitive? p).map (·, rest)
  | c :: r => (f.literal? c false).map (·, r)
  | [] => none

/-- Puts an item, if there is one, in front of a pattern. -/
def prepend (item : Option Regex) (r : Regex) : Regex :=
  match item with
  | some a => .cat a r
  | none => r

mutual

/-- Alternatives up to a closing parenthesis or the end. -/
def alternatives : Nat → ReadState → List Char → Option (Regex × ReadState × List Char)
  | 0, _, _ => none
  | fuel + 1, st, s => do
    let (a, st, r) ← sequence fuel st none s
    match r with
    | '|' :: r =>
      let (b, st, r) ← alternatives fuel st r
      return (.alt a b, st, r)
    | r => return (a, st, r)

/-- Items up to the end of an alternative. The last item before them may still be repeated. -/
def sequence : Nat → ReadState → Option Regex → List Char →
    Option (Regex × ReadState × List Char)
  | 0, _, _, _ => none
  | fuel + 1, st, last, s =>
    let s := st.flags.skip s
    let more (st : ReadState) (item : Option Regex) (r : List Char) :=
      (sequence fuel st item r).map fun (b, st, r) => (prepend last b, st, r)
    match s with
    | [] => some (last.getD .empty, st, [])
    | '|' :: r => some (last.getD .empty, st, '|' :: r)
    | ')' :: r => some (last.getD .empty, st, ')' :: r)
    | '(' :: r => do
      let (o, r) ← opening st.flags r
      match o with
      | .flags flags => more { st with flags } none r
      | .flagged flags =>
        let (a, inner, r) ← alternatives fuel { st with flags } r
        let ')' :: r := r | none
        more { inner with flags := st.flags } (some a) r
      | .group name =>
        if name.any st.names.contains then none
        else
          let (a, inner, r) ← alternatives fuel { st with names := name.toList ++ st.names } r
          let ')' :: r := r | none
          more { inner with flags := st.flags } (some a) r
    | '[' :: r => (bracketed fuel st.flags r).bind fun (set, r) => more st (some (.symbol set)) r
    | s =>
      match repetition? st.flags s with
      | some bounds => do
        let a ← last
        let ((least, most), r) ← bounds
        let r := match r with
          | '?' :: r => r
          | r => r
        sequence fuel st (some (.times a least most)) r
      | none => (simpleItem st.flags s).bind fun (a, r) => more st (some a) r

end

/-- The pattern that a text says. -/
def read (pattern : String) : Option Regex := do
  let fuel := 2 * pattern.length + 2
  let (r, _, rest) ← alternatives fuel {} pattern.toList
  if rest.isEmpty then some r else none

/-- Whether a pattern accepts some part of a text. -/
def occursInText (r : Regex) (text : String) : Bool := r.occursIn (text.toList.map Char.toNat)

end JavaMigration.Regex
