import JavaMigration.Diff.Compact
import JavaMigration.Diff.Shortest
import JavaMigration.Text.Lines

/-!
# Unified diffs

What changes between two texts, line by line: changed lines with a few kept lines around them,
in hunks with an empty line between two of them, and how many lines come and go.
-/

namespace JavaMigration.Diff

/-! ## Segments -/

/-- Kept lines, or lines that give way to others. -/
inductive Segment where
  | kept (lines : List String)
  | changed (deleted inserted : List String)
  deriving DecidableEq, Repr, Inhabited

/-- Joins a run to the segments behind it; deletions and insertions that touch are one
change. -/
def Segment.cons (r : Run String) (rest : List Segment) : List Segment :=
  match r.tag, rest with
  | .keep, kept lines :: rest => kept (r.entries ++ lines) :: rest
  | .keep, rest => kept r.entries :: rest
  | .delete, changed deleted inserted :: rest => changed (r.entries ++ deleted) inserted :: rest
  | .delete, rest => changed r.entries [] :: rest
  | .insert, changed deleted inserted :: rest => changed deleted (r.entries ++ inserted) :: rest
  | .insert, rest => changed [] r.entries :: rest

/-- The segments between two texts. -/
def segments (old new : String) : List Segment :=
  (compact (script (Text.lines old) (Text.lines new))).foldr Segment.cons []

/-! ## Hunks -/

/-- How many kept lines stand around a change. -/
def context : Nat := 3

/-- Only the last kept lines in front of the first change. -/
def trimFirst : List Segment → List Segment
  | .kept lines :: rest => .kept (lines.drop (lines.length - context)) :: rest
  | segments => segments

/-- Only the first kept lines behind the last change. -/
def trimLast : List Segment → List Segment
  | [] => []
  | [.kept lines] => [.kept (lines.take context)]
  | s :: rest => s :: trimLast rest

/-- Cuts between changes that are far from each other. The first argument is the current hunk
backwards. -/
def cutHunks (current : List Segment) : List Segment → List (List Segment)
  | [] => [current.reverse]
  | .kept lines :: rest =>
    if lines.length > 2 * context then
      (Segment.kept (lines.take context) :: current).reverse ::
        cutHunks [.kept (lines.drop (lines.length - context))] rest
    else cutHunks (.kept lines :: current) rest
  | s :: rest => cutHunks (s :: current) rest

def hasChange (hunk : List Segment) : Bool :=
  hunk.any fun
    | .changed .. => true
    | .kept _ => false

/-- The changes with the lines around them. -/
def hunks (segments : List Segment) : List (List Segment) :=
  (cutHunks [] (trimLast (trimFirst segments))).filter hasChange

/-! ## Rendering -/

/-- The colours of a diff: one for the names of the files, one for lines that go and one for
lines that come. -/
structure Palette where
  header : String := ""
  deleted : String := ""
  inserted : String := ""
  reset : String := ""
  deriving DecidableEq, Repr, Inhabited

def plain : Palette := {}

/-- Colours as a terminal shows them. -/
def ansi : Palette where
  header := "\x1b[36m"
  deleted := "\x1b[31m"
  inserted := "\x1b[32m"
  reset := "\x1b[0m"

def renderSegment (p : Palette) : Segment → String
  | .kept lines => String.join (lines.map (" " ++ ·))
  | .changed deleted inserted =>
    String.join (deleted.map fun l => p.deleted ++ "-" ++ l ++ p.reset) ++
      String.join (inserted.map fun l => p.inserted ++ "+" ++ l ++ p.reset)

def renderHeader (p : Palette) (path : String) : String :=
  p.header ++ "--- a/" ++ path ++ p.reset ++ "\n" ++
    p.header ++ "+++ b/" ++ path ++ p.reset ++ "\n"

/-- The unified diff of two texts. -/
def unified (p : Palette) (path old new : String) : String :=
  renderHeader p path ++ String.intercalate "\n"
    ((hunks (segments old new)).map fun hunk => String.join (hunk.map (renderSegment p)))

/-! ## Summaries -/

/-- The lines that come in a segment. -/
def Segment.inserted : Segment → List String
  | changed _ inserted => inserted
  | kept _ => []

/-- The lines that go in a segment. -/
def Segment.deleted : Segment → List String
  | changed deleted _ => deleted
  | kept _ => []

/-- How many files change, and how many lines come and go. -/
structure Summary where
  files : Nat := 0
  insertions : Nat := 0
  deletions : Nat := 0
  deriving DecidableEq, Repr, Inhabited

namespace Summary

def ofTexts (old new : String) : Summary :=
  let changes := segments old new
  let insertions := (changes.flatMap Segment.inserted).length
  let deletions := (changes.flatMap Segment.deleted).length
  { files := if insertions > 0 || deletions > 0 then 1 else 0, insertions, deletions }

def add (s t : Summary) : Summary :=
  ⟨s.files + t.files, s.insertions + t.insertions, s.deletions + t.deletions⟩

def print (s : Summary) : String :=
  toString s.files ++ " file(s) changed, " ++ toString s.insertions ++ " insertions(+), " ++
    toString s.deletions ++ " deletions(-)"

end Summary

end JavaMigration.Diff
