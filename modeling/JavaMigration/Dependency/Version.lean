import JavaMigration.Text.Split

/-!
# Versions

Dotted versions, their order, and the selectors that pick one of several known versions. A
version counts by its leading numeric components, where missing ones are zero; a version with
anything else in it is no release and comes before the release of the same number.
-/

namespace JavaMigration.Dependency

/-! ## Components -/

/-- A numeric component: decimal digits, which a plus sign may precede, below `2 ^ 64`. -/
def component? (s : List Char) : Option Nat :=
  let digits := (Text.dropStart? ['+'] s).getD s
  if digits.isEmpty || !digits.all Char.isDigit then none
  else
    let n := digits.foldl (fun n c => 10 * n + (c.toNat - '0'.toNat)) 0
    if n < 0x10000000000000000 then some n else none

/-- The components before the first one that is not numeric. -/
def numericFront : List (List Char) → List Nat
  | [] => []
  | p :: ps =>
    match component? p with
    | some n => n :: numericFront ps
    | none => []

/-- The numbers a version begins with; dots and hyphens separate them. -/
def numbers (version : String) : List Nat :=
  numericFront ((Text.pieces '.' version.toList).flatMap (Text.pieces '-'))

/-- Whether a version is nothing but dotted numbers. -/
def isRelease (version : String) : Bool :=
  (Text.pieces '.' version.toList).all fun p => (component? p).isSome

/-! ## Order -/

/-- Compares numbers place by place, where missing ones are zero. -/
def compareNumbers : List Nat → List Nat → Ordering
  | [], bs => if bs.all (· == 0) then .eq else .lt
  | as, [] => if as.all (· == 0) then .eq else .gt
  | a :: as, b :: bs => (compare a b).then (compareNumbers as bs)

/-- The order of versions. -/
def compareVersions (a b : String) : Ordering :=
  (compareNumbers (numbers a) (numbers b)).then
    (compare (isRelease a).toNat (isRelease b).toNat)

/-! ## Selectors -/

/-- Which version is wanted. -/
inductive Selector where
  /-- The newest release. -/
  | latest
  /-- The newest release that begins with these numbers. -/
  | wildcard (numbers : List Nat)
  /-- A version that compares equal to this one. -/
  | exact (version : String)
  deriving DecidableEq, Repr, Inhabited

namespace Selector

/-- Reads `latest.release` or `*`, `4.9.X`, or else a version. -/
def ofText (text : String) : Selector :=
  let text := Text.trim text
  if text.toLower == "latest.release" || text == "*" then .latest
  else
    let front := (Text.stripEnd? text ".X").orElse fun _ => Text.stripEnd? text ".x"
    match front.bind fun f => (Text.pieces '.' f.toList).mapM component? with
    | some numbers => .wildcard numbers
    | none => .exact text

def print : Selector → String
  | latest => "latest.release"
  | wildcard numbers => String.join (numbers.map fun n => toString n ++ ".") ++ "X"
  | exact version => version

def accepts (s : Selector) (version : String) : Bool :=
  match s with
  | latest => isRelease version
  | wildcard front => isRelease version && front.isPrefixOf (numbers version)
  | exact wanted => compareVersions version wanted == .eq

/-- The newest of some versions; of equal ones the last. -/
def newest? : List String → Option String
  | [] => none
  | v :: vs =>
    match newest? vs with
    | some w => if compareVersions v w == .gt then some v else some w
    | none => some v

/-- The newest of the known versions that is accepted. -/
def select (s : Selector) (known : List String) : Option String :=
  newest? (known.filter s.accepts)

end Selector

end JavaMigration.Dependency
