import JavaMigration.Dependency.Upgrade
import JavaMigration.File.Selection
import JavaMigration.Project.Change

/-!
# Upgrading the build files of a project

An upgrade of a dependency looks at every build file of a project. It fails as a whole if there is
no version to upgrade to or a build file cannot be read.
-/

namespace JavaMigration.Project

open File Dependency

/-- Why an upgrade makes no change at all. -/
inductive ActionFault where
  | noTarget (u : Upgrade)
  | unreadable (path : String)
  deriving DecidableEq, Repr, Inhabited

/-- The wording, with paths shown below a root. -/
def ActionFault.message (root : String) : ActionFault → String
  | noTarget u => u.missingTarget
  | unreadable path =>
    "Manifest " ++ File.join root path ++
      " could not be updated: stream did not contain valid UTF-8"

/-- What an upgrade does to one build file. -/
def upgradeFile (u : Upgrade) (path : String) : Content → Except ActionFault (Option Change)
  | .bytes => .error (.unreadable path)
  | .text before =>
    match u.upgradeManifest path before with
    | some after => .ok (Change.between? path before after)
    | none => .error (.noTarget u)

/-- The changes that an upgrade makes to the files of a project. The patterns for build files can
be read, so there is always a selection. -/
def upgradeFiles (u : Upgrade) (d : Directory) : Except ActionFault (List Change) := do
  let files := (Selection.buildFiles.collect d).toOption.getD []
  let changes ← files.mapM fun (path, content) => upgradeFile u path content
  return changes.filterMap id

/-- What came of an upgrade. -/
structure ActionReport where
  action : String
  result : Except ActionFault (List Change)

namespace ActionReport

def ofUpgrade (d : Directory) (u : Upgrade) : ActionReport := ⟨u.describe, upgradeFiles u d⟩

def changes (r : ActionReport) : List Change := r.result.toOption.getD []

def fault? (r : ActionReport) : Option ActionFault :=
  match r.result with
  | .ok _ => none
  | .error f => some f

end ActionReport

end JavaMigration.Project
