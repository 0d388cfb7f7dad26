import JavaMigration.Text.Split

/-!
# Searching from the left

Finding what a recogniser accepts. A recogniser looks at the front of a text; the searches try
it at every position from the left.
-/

namespace JavaMigration.Text

variable {α : Type}

/-- What a recogniser gives at the first position at which it succeeds, with the position;
positions are counted from `n`. -/
def findFirst (f : List Char → Option α) (n : Nat) : List Char → Option (Nat × α)
  | [] => (f []).map (n, ·)
  | c :: r =>
    match f (c :: r) with
    | some a => some (n, a)
    | none => findFirst f (n + 1) r

/-- Whether a recogniser succeeds at some position. -/
def findAny (f : List Char → Option α) (s : List Char) : Bool := (findFirst f 0 s).isSome

/-- All disjoint occurrences with their positions, counted from `n`. A recogniser gives the
length of an occurrence along with what it stands for. The first number counts the characters
of the current occurrence that are still to be passed over. -/
def findAll (f : List Char → Option (Nat × α)) : Nat → Nat → List Char → List (Nat × α)
  | _, _, [] => []
  | skip + 1, n, _ :: r => findAll f skip (n + 1) r
  | 0, n, c :: r =>
    match f (c :: r) with
    | some (length, a) => (n, a) :: findAll f (length - 1) (n + 1) r
    | none => findAll f 0 (n + 1) r

/-- What precedes the first occurrence of `needle`. -/
def upTo (needle : List Char) : List Char → Option (List Char)
  | [] => if needle.isEmpty then some [] else none
  | c :: r =>
    if needle.isPrefixOf (c :: r) then some [] else (upTo needle r).map (c :: ·)

/-- A text, and what remains of it after one, two, … of the blanks in front. -/
def blankTails : List Char → List (List Char)
  | [] => [[]]
  | c :: r => (c :: r) :: if isBlank c then blankTails r else []

end JavaMigration.Text
