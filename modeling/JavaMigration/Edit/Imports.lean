import JavaMigration.Text.Lines
import JavaMigration.Source.Piece
import JavaMigration.Source.Printer
import JavaMigration.Source.Visitor

/-!
# Imports

Adding an import where it is needed and removing one that nothing refers to. Both may be asked
for at any time: where there is nothing to do the unit is kept. New imports go to a layout of
three groups, third-party types first, then `java` and `javax`, static imports last; inside a
group an import goes behind the last one that sorts before it.
-/

namespace JavaMigration.Edit

open Java Source

/-! ## Order -/

/-- The group an import belongs to. -/
def group (i : Import) : Nat :=
  if i.isStatic then 3
  else if Text.startsWith i.target "java." || Text.startsWith i.target "javax." then 2
  else 1

/-- Whether an import sorts before another one. -/
def sortsBefore (i j : Import) : Bool :=
  group i < group j || (group i == group j && i.target < j.target)

/-- Splits a list behind the last element that passes the test. -/
def splitBehindLast {α : Type} (p : α → Bool) : List α → List α × List α
  | [] => ([], [])
  | a :: r =>
    match splitBehindLast p r with
    | ([], after) => if p a then ([a], after) else ([], a :: after)
    | (before, after) => (a :: before, after)

/-- The space between two imports of the same group or of different ones. -/
def separator (sameGroup : Bool) (nl : String) : Space := ⟨if sameGroup then nl else nl ++ nl⟩

/-! ## Adding -/

/-- Whether the type `name` can be used in the unit without a further import. -/
def isCovered (u : CompilationUnit) (name : String) : Bool :=
  let package := packageOf name
  package.isEmpty || package == "java.lang" || package == u.packageName ||
    u.imports.any fun i =>
      !i.isStatic && (i.target == name || (i.isOnDemand && i.package == package))

/-- Puts an import among others. It takes over the space of the first one when it comes before
all; the space before its successor is laid out anew unless it holds a comment. -/
def insertImport (new : Import) (nl : String) (imports : List Import) : List Import :=
  let sameGroup (i : Import) : Bool := group i == group new
  match splitBehindLast (sortsBefore · new) imports with
  | ([], []) => [new]
  | ([], first :: rest) =>
    { new with lead := first.lead } :: { first with lead := separator (sameGroup first) nl } :: rest
  | (before, after) =>
    let lead := separator (before.getLast?.any sameGroup) nl
    let after :=
      match after with
      | [] => []
      | next :: rest =>
        if next.lead.isBlank then { next with lead := separator (sameGroup next) nl } :: rest
        else next :: rest
    before ++ { new with lead } :: after

/-- The types with the first one an empty line below what comes before. -/
def setApart (nl : String) : List Statement → List Statement
  | [] => []
  | first :: rest =>
    let blank := nl ++ nl
    if Text.startsWith first.lead.text blank then first :: rest
    else first.withLead ⟨blank ++ first.lead.dropNewlines.text⟩ :: rest

/-- Adds a single-type import unless the type is covered. -/
def addImport (u : CompilationUnit) (name : String) : Revision CompilationUnit :=
  if isCovered u name then .kept
  else
    let nl := Text.lineEnding u.print
    let id := u.freshImportId
    match u.imports with
    | [] =>
      let lead : Space := ⟨if u.package.isSome then nl ++ nl else ""⟩
      .replaced { u with imports := [{ id, lead, target := name }], types := setApart nl u.types }
    | imports => .replaced { u with imports := insertImport { id, target := name } nl imports }

/-! ## Removing -/

/-- Whether a piece other than an import refers to the type `name`: by its resolved type, or by
its simple name as a word. -/
def refersTo (name : String) : Piece → Bool
  | .imported _ => false
  | .identifier i => hasClassType i.type name || Text.containsWord i.name (simpleName name)
  | .text s => Text.containsWord s (simpleName name)

/-- Takes the first import that passes the test out of the list. Its successor gets its space
if the import was the first of all, or if that keeps an empty line that would be lost. -/
def dropImport (p : Import → Bool) (isFirst : Bool) : List Import → Option (List Import)
  | [] => none
  | i :: rest =>
    if p i then
      match rest with
      | [] => some []
      | next :: more =>
        if isFirst || (next.lead.isBlank && i.lead.newlines > next.lead.newlines) then
          some ({ next with lead := i.lead } :: more)
        else some (next :: more)
    else (dropImport p false rest).map (i :: ·)

/-- The types with the first one without the line breaks before it. -/
def moveUp : List Statement → List Statement
  | [] => []
  | first :: rest => first.withLead first.lead.dropNewlines :: rest

/-- Removes the import of the type `name` unless something refers to the type. -/
def removeImport (u : CompilationUnit) (name : String) : Revision CompilationUnit :=
  match dropImport (fun i => !i.isStatic && i.target == name) true u.imports with
  | none => .kept
  | some imports =>
    if u.anyPiece (refersTo name) then .kept
    else
      let types := if imports.isEmpty && u.package.isNone then moveUp u.types else u.types
      .replaced { u with imports, types }

/-! ## Collected edits -/

/-- The imports to add and to remove once a traversal is over, in the order of the requests. -/
structure ImportEdits where
  additions : List String := []
  removals : List String := []
  deriving DecidableEq, Repr, Inhabited

namespace ImportEdits

def add (e : ImportEdits) (name : String) : ImportEdits :=
  if e.additions.contains name then e else { e with additions := e.additions ++ [name] }

def remove (e : ImportEdits) (name : String) : ImportEdits :=
  if e.removals.contains name then e else { e with removals := e.removals ++ [name] }

def isEmpty (e : ImportEdits) : Bool := e.additions.isEmpty && e.removals.isEmpty

/-- One edit after another; kept if every edit keeps the unit. -/
def applyAll (edit : CompilationUnit → String → Revision CompilationUnit)
    (u : CompilationUnit) : List String → Revision CompilationUnit
  | [] => .kept
  | name :: rest =>
    match edit u name with
    | .kept => applyAll edit u rest
    | .replaced new => .replaced ((applyAll edit new rest).get new)

/-- Makes the additions, then the removals. -/
def apply (e : ImportEdits) (u : CompilationUnit) : Revision CompilationUnit :=
  match applyAll addImport u e.additions with
  | .kept => applyAll removeImport u e.removals
  | .replaced new => .replaced ((applyAll removeImport new e.removals).get new)

end ImportEdits

end JavaMigration.Edit
