import JavaMigration.Dependency.Version
import JavaMigration.Text.Search

/-!
# Versions in build files

Where a build file writes down the version of a dependency, and how the versions found are
raised. A Maven file gives it in a `dependency` element, as a literal or as the name of a
property; a Gradle file gives it in a quoted `group:artifact:version`.
-/

namespace JavaMigration.Dependency

open Text

/-- A version in a text: where it begins and what it is now. -/
structure VersionSpot where
  start : Nat
  version : List Char
  deriving DecidableEq, Repr, Inhabited

/-! ## Maven -/

def openTag (name : List Char) : List Char := '<' :: name ++ ['>']

def closeTag (name : List Char) : List Char := '<' :: '/' :: name ++ ['>']

/-- The value of an element that a text begins with: one word, which blanks may surround. -/
def elementWord? (name : List Char) (s : List Char) : Option VersionSpot := do
  let r := (← dropStart? (openTag name) s).dropWhile isBlank
  let word := r.takeWhile fun c => c != '<' && !isBlank c
  let _ ← dropStart? (closeTag name) ((r.drop word.length).dropWhile isBlank)
  if word.isEmpty then none else some ⟨s.length - r.length, word⟩

/-- The value of the first element of a name that holds one word. -/
def firstWord? (name : List Char) (s : List Char) : Option VersionSpot :=
  (findFirst (elementWord? name) 0 s).map fun (n, v) => { v with start := n + v.start }

/-- Whether a text begins with an element of a given value, which blanks may surround. -/
def elementIs (name value : List Char) (s : List Char) : Option Unit := do
  let r ← dropStart? (openTag name) s
  let closes (t : List Char) : Option Unit := do
    let _ ← dropStart? (closeTag name) ((← dropStart? value t).dropWhile isBlank)
  (blankTails r).findSome? closes

/-- A `dependency` element that a text begins with, up to the first end tag. -/
def dependencyElement? (s : List Char) : Option (Nat × List Char) := do
  let start := openTag "dependency".toList
  let close := closeTag "dependency".toList
  let element := start ++ (← upTo close (← dropStart? start s)) ++ close
  return (element.length, element)

/-- The name of the property that a version refers to. -/
def propertyName? (version : List Char) : Option (List Char) :=
  dropStart? ['$', '\x7b'] version >>= dropEnd? ['\x7d']

/-- The version that decides for a `dependency` element at a position of a text: its own, or
the value of the property it names, as far as the text defines one. -/
def mavenSpot? (group artifact content : List Char) (at_ : Nat) (element : List Char) :
    Option VersionSpot :=
  if findAny (elementIs "groupId".toList group) element &&
      findAny (elementIs "artifactId".toList artifact) element then do
    let own ← firstWord? "version".toList element
    match propertyName? own.version with
    | some property => firstWord? property content
    | none => some { own with start := at_ + own.start }
  else none

/-- Puts a spot into its place; of spots with the same beginning the first one stays. -/
def insertSpot (v : VersionSpot) : List VersionSpot → List VersionSpot
  | [] => [v]
  | w :: r =>
    if v.start < w.start then v :: w :: r
    else if v.start = w.start then w :: r
    else w :: insertSpot v r

def mavenSpots (group artifact content : List Char) : List VersionSpot :=
  let elements := findAll dependencyElement? 0 0 content
  let spots := elements.filterMap fun (n, element) => mavenSpot? group artifact content n element
  spots.foldl (fun found v => insertSpot v found) []

/-! ## Gradle -/

/-- A quoted notation that a text begins with: its length and the version in it. -/
def notation? (group artifact : List Char) (s : List Char) : Option (Nat × VersionSpot) := do
  let (quote, r) ← match s with
    | c :: r => some (c, r)
    | [] => none
  if quote != '"' && quote != '\'' then none
  let r ← dropStart? (group ++ ':' :: artifact ++ [':']) r
  let version := r.takeWhile fun c => !(['"', '\'', '$', ':', '@'].contains c || isBlank c)
  if version.isEmpty then none
  let start := s.length - r.length
  return (start + version.length, ⟨start, version⟩)

def gradleSpots (group artifact content : List Char) : List VersionSpot :=
  (findAll (notation? group artifact) 0 0 content).map fun (n, v) =>
    { v with start := n + v.start }

/-! ## Raising versions -/

/-- Writes `target` over a version that is older. -/
def raiseSpot (target : String) (v : VersionSpot) (content : List Char) : List Char :=
  if compareVersions (String.ofList v.version) target == .lt then
    content.take v.start ++ target.toList ++ content.drop (v.start + v.version.length)
  else content

/-- Writes `target` over the older ones of the versions, the last one first, so that the
positions of the others stay right. -/
def raiseSpots (target : String) (spots : List VersionSpot) (content : List Char) : List Char :=
  spots.foldr (raiseSpot target) content

end JavaMigration.Dependency
