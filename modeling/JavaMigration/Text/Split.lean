import JavaMigration.Text.CharClass

/-!
# Cutting texts apart

Splitting at a character, trimming, replacing and searching. The work is done on lists of
characters; the functions on strings are named alike and only convert.
-/

namespace JavaMigration.Text

/-! ## Splitting at a character -/

/-- The parts before and after the first occurrence of `sep`. -/
def cutFirst (sep : Char) : List Char → Option (List Char × List Char)
  | [] => none
  | c :: r => if c = sep then some ([], r) else (cutFirst sep r).map fun p => (c :: p.1, p.2)

/-- The parts before and after the last occurrence of `sep`. -/
def cutLast (sep : Char) : List Char → Option (List Char × List Char)
  | [] => none
  | c :: r =>
    match cutLast sep r with
    | some p => some (c :: p.1, p.2)
    | none => if c = sep then some ([], r) else none

/-- The pieces between the occurrences of `sep`; there is always at least one. -/
def pieces (sep : Char) : List Char → List (List Char)
  | [] => [[]]
  | c :: r =>
    if c = sep then [] :: pieces sep r
    else
      match pieces sep r with
      | [] => [[c]]
      | p :: ps => (c :: p) :: ps

def splitFirst (sep : Char) (s : String) : Option (String × String) :=
  (cutFirst sep s.toList).map fun p => (String.ofList p.1, String.ofList p.2)

def splitLast (sep : Char) (s : String) : Option (String × String) :=
  (cutLast sep s.toList).map fun p => (String.ofList p.1, String.ofList p.2)

def split (sep : Char) (s : String) : List String :=
  (pieces sep s.toList).map String.ofList

/-- The part before the first occurrence of `sep`, all of the text if there is none. -/
def before (sep : Char) (s : String) : String :=
  String.ofList (s.toList.takeWhile (· != sep))

/-! ## Beginnings and ends -/

/-- What follows a given beginning. -/
def dropStart? : List Char → List Char → Option (List Char)
  | [], s => some s
  | _ :: _, [] => none
  | p :: ps, c :: cs => if p = c then dropStart? ps cs else none

/-- What precedes a given end. -/
def dropEnd? (e s : List Char) : Option (List Char) :=
  (dropStart? e.reverse s.reverse).map List.reverse

def startsWith (s start : String) : Bool := start.toList.isPrefixOf s.toList

def endsWith (s ending : String) : Bool := ending.toList.isSuffixOf s.toList

def stripStart? (s start : String) : Option String :=
  (dropStart? start.toList s.toList).map String.ofList

def stripEnd? (s ending : String) : Option String :=
  (dropEnd? ending.toList s.toList).map String.ofList

def dropWhileStart (p : Char → Bool) (s : String) : String :=
  String.ofList (s.toList.dropWhile p)

def dropWhileEnd (p : Char → Bool) (s : String) : String :=
  String.ofList (s.toList.reverse.dropWhile p).reverse

/-- Without the blanks at both ends. -/
def trim (s : String) : String := dropWhileEnd isBlank (dropWhileStart isBlank s)

def trimStart (s : String) : String := dropWhileStart isBlank s

def trimEnd (s : String) : String := dropWhileEnd isBlank s

/-! ## Searching and replacing -/

/-- Whether `needle` occurs in a text. -/
def occurs (needle : List Char) : List Char → Bool
  | [] => needle.isEmpty
  | c :: r => needle.isPrefixOf (c :: r) || occurs needle r

def contains (s needle : String) : Bool := occurs needle.toList s.toList

/-- Replaces the occurrences of `needle`, found from the left and disjoint. The number counts
the characters of the current occurrence that are still to be dropped. -/
def replaceFrom (needle new : List Char) : Nat → List Char → List Char
  | _, [] => []
  | k + 1, _ :: r => replaceFrom needle new k r
  | 0, c :: r =>
    if needle.isPrefixOf (c :: r) then new ++ replaceFrom needle new (needle.length - 1) r
    else c :: replaceFrom needle new 0 r

def replace (s needle new : String) : String :=
  if needle.isEmpty then s
  else String.ofList (replaceFrom needle.toList new.toList 0 s.toList)

/-! ## Words -/

/-- Whether an occurrence of `word` from here on, found from the left and disjoint, stands
between characters that are no name characters. `prev` is the character before the text. -/
def wordFrom (word : List Char) (prev : Option Char) : Nat → List Char → Bool
  | _, [] => false
  | k + 1, c :: r => wordFrom word (some c) k r
  | 0, c :: r =>
    if word.isPrefixOf (c :: r) then
      (!prev.any isNameChar && !((c :: r).drop word.length).head?.any isNameChar) ||
        wordFrom word (some c) (word.length - 1) r
    else wordFrom word (some c) 0 r

/-- Whether `word` appears in `s` as a whole identifier. -/
def containsWord (s word : String) : Bool :=
  !word.isEmpty && wordFrom word.toList none 0 s.toList

end JavaMigration.Text
