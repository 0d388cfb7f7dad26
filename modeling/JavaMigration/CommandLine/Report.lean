import JavaMigration.Document.Json
import JavaMigration.Project.Run

/-!
# Reports of a run

What came of a run, as JSON or as lines of text.
-/

namespace JavaMigration.CommandLine

open Document Project Recipe

def summaryJson (s : Diff.Summary) : Json :=
  .record [("files_changed", .number s.files), ("insertions", .number s.insertions),
    ("deletions", .number s.deletions)]

/-- The report of an action; paths in its message are shown below a root. -/
def actionJson (root : String) (a : ActionReport) : Json :=
  let error := match a.fault? with
    | some f => .text (f.message root)
    | none => .null
  .record [("action", .text a.action), ("error", error)]

def diagnosticJson (d : Diagnostic) : Json :=
  .record [("source_path", .text d.path), ("declaration", .text d.declaration),
    ("message", .text d.message)]

def outcomeJson (root : String) (dryRun : Bool) (o : Outcome) : Json :=
  .record [("dry_run", .bool dryRun), ("files", .list (o.changes.map fun c => .text c.path)),
    ("summary", summaryJson o.summary), ("actions", .list (o.actions.map (actionJson root))),
    ("diagnostics", .list (o.diagnostics.map diagnosticJson))]

/-- How many files each action has changed, for those that have changed any. -/
def actionLines (o : Outcome) : List String :=
  o.actions.filterMap fun a =>
    if a.changes.isEmpty then none
    else some (a.action ++ ": " ++ toString a.changes.length ++ " file(s)")

/-- The lines of a run: its diff and summary, or how many files have changed, then its actions. -/
def outcomeLines (withDiff : Bool) (o : Outcome) : List String :=
  (if withDiff then [o.diff Diff.ansi, "", o.summary.print]
    else ["Modified " ++ toString o.filesModified ++ " file(s)"]) ++ actionLines o

/-- What failed without stopping the run. -/
def warningLines (root : String) (o : Outcome) : List String :=
  o.actions.filterMap (fun a => a.fault?.map fun f =>
      "warning: " ++ a.action ++ ": " ++ f.message root) ++
    o.diagnostics.map fun d => "warning: " ++ d.print

end JavaMigration.CommandLine
