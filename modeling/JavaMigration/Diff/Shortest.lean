import JavaMigration.Diff.Script

/-!
# Short edit scripts

Divide and conquer on the edit graph of two lists. A common beginning and a common end are
kept. In what lies between, paths with ever more edits are searched from both corners at once
until they meet, and the graph is cut where they do. A frontier holds how far the paths with a
given number of edits get along the old list, one entry for each diagonal, the highest first.
-/

namespace JavaMigration.Diff

variable {α : Type} [DecidableEq α]

/-- The entries that two lists have in common at the beginning. -/
def commonPrefix : List α → List α → List α
  | a :: as, b :: bs => if a = b then a :: commonPrefix as bs else []
  | _, _ => []

/-! ## Frontiers -/

/-- How far the paths with one more edit get, before they follow a diagonal. The argument
`above` is the entry of the diagonal above the first one, if there is one. -/
def advance (above : Option Nat) : List Nat → List Nat
  | [] => above.toList
  | below :: rest =>
    let best :=
      match above with
      | some a => if below < a then a else below + 1
      | none => below + 1
    best :: advance (some below) rest

/-- A point of the search: where a path enters a diagonal, and where it leaves it. -/
structure Reach where
  diagonal : Int
  first : Nat
  last : Nat
  deriving DecidableEq, Repr, Inhabited

/-- Follows each diagonal as far as the lists agree. Diagonals are two apart. -/
def follow (old new : List α) (diagonal : Int) : List Nat → List Reach
  | [] => []
  | x :: rest =>
    let y := (x - diagonal).toNat
    let length := (commonPrefix (old.drop x) (new.drop y)).length
    ⟨diagonal, x, x + length⟩ :: follow old new (diagonal - 2) rest

/-- The reaches with `edits` edits, given the frontier with one fewer. -/
def reaches (old new : List α) (edits : Nat) (frontier : List Nat) : List Reach :=
  follow old new edits (if edits = 0 then [0] else advance none frontier)

/-- The reach on a diagonal. -/
def onDiagonal? (rs : List Reach) (diagonal : Int) : Option Reach :=
  rs.find? (·.diagonal == diagonal)

/-- The first reach that a reach from the other corner meets or passes. The difference of the
lengths of the lists says which diagonals face each other. -/
def meeting? (length : Nat) (difference : Int) (rs others : List Reach) : Option Reach :=
  rs.find? fun r =>
    (onDiagonal? others (difference - r.diagonal)).any fun o => length ≤ r.last + o.last

/-! ## The middle -/

/-- Where an edit graph is cut: a point on a path with as few edits as possible. The lists are
also given backwards. The first number bounds the search. -/
def middleFrom (old new oldBack newBack : List α) :
    Nat → Nat → List Reach → List Reach → Option (Nat × Nat)
  | 0, _, _, _ => none
  | bound + 1, edits, forward, backward =>
    let difference : Int := old.length - new.length
    let isOdd := difference % 2 == 1
    let ahead := reaches old new edits (forward.map (·.last))
    match if isOdd then meeting? old.length difference ahead backward else none with
    | some r => some (r.first, (r.first - r.diagonal).toNat)
    | none =>
      let back := reaches oldBack newBack edits (backward.map (·.last))
      match if isOdd then none else meeting? old.length difference back ahead with
      | some r =>
        some (old.length - r.last, new.length - (r.last - r.diagonal).toNat)
      | none => middleFrom old new oldBack newBack bound (edits + 1) ahead back

def middle? (old new : List α) : Option (Nat × Nat) :=
  middleFrom old new old.reverse new.reverse ((old.length + new.length + 1) / 2 + 1) 0 [] []

/-! ## Divide and conquer -/

/-- A script between lists with nothing in common at the beginning and at the end; `rec`
makes the scripts of the two parts. -/
def between (rec : List α → List α → Script α) (old new : List α) : Script α :=
  if old.isEmpty || new.isEmpty then run .delete old ++ run .insert new
  else
    match middle? old new with
    | some (x, y) => rec (old.take x) (new.take y) ++ rec (old.drop x) (new.drop y)
    | none => run .delete old ++ run .insert new

/-- A short script from one list to another; cuts nest at most as deep as the first number. -/
def scriptFrom : Nat → List α → List α → Script α
  | 0, old, new => run .delete old ++ run .insert new
  | depth + 1, old, new =>
    let front := commonPrefix old new
    let old := old.drop front.length
    let new := new.drop front.length
    let back := (commonPrefix old.reverse new.reverse).reverse
    let old := old.take (old.length - back.length)
    let new := new.take (new.length - back.length)
    run .keep front ++ between (scriptFrom depth) old new ++ run .keep back

def script (old new : List α) : Script α := scriptFrom (old.length + new.length + 1) old new

end JavaMigration.Diff
