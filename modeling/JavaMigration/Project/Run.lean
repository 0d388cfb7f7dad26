import JavaMigration.Java.Parse
import JavaMigration.Project.Action
import JavaMigration.Recipe.RuleMigration
import JavaMigration.Source.Printer

/-!
# Running migrations over a project

Every selected source is read and migrated; if one of them cannot be, nothing happens at all. Then
the dependencies are upgraded, whether or not a source has changed. All upgrades look at the build
files as they were before the first of them.
-/

namespace JavaMigration.Project

open File Java Source Recipe Diff

structure Settings where
  recipes : List RuleMigration
  selection : Selection := .javaSources
  /-- Only say what would change. -/
  dryRun : Bool := false
  skipDependencies : Bool := false
  deriving Inhabited

/-- Why a project is left alone. -/
inductive RunFault where
  | noDirectory
  | selection (fault : SelectionFault)
  /-- A source is no text. -/
  | unreadable (path : String)
  /-- A source is no Java. -/
  | malformed (path : String)
  deriving DecidableEq, Repr, Inhabited

structure Outcome where
  /-- The changes of sources in the order of their paths. -/
  sources : List Change
  actions : List ActionReport
  diagnostics : List Diagnostic
  /-- The files afterwards. -/
  files : Directory

namespace Outcome

/-- The changes of sources, then those of build files. -/
def changes (o : Outcome) : List Change :=
  o.sources ++ o.actions.flatMap (·.changes)

def summary (o : Outcome) : Summary := summarize o.changes

/-- How many changes there are; a file may be changed more than once. -/
def filesModified (o : Outcome) : Nat := (o.changes.filter (·.isModified)).length

def diff (p : Palette) (o : Outcome) : String := diffAll p o.changes

end Outcome

/-- A unit after several migrations, one after the other. -/
def migrateAll (recipes : List RuleMigration) (u : CompilationUnit) :
    Revision CompilationUnit × List Diagnostic :=
  recipes.foldl (fun (r, diagnostics) m =>
    match m.run (r.get u) with
    | (.kept, more) => (r, diagnostics ++ more)
    | (.replaced new, more) => (.replaced new, diagnostics ++ more)) (.kept, [])

/-- The types that some migrations want to be known. -/
def classpathOf (recipes : List RuleMigration) : Classpath :=
  .ofList (recipes.flatMap (·.classpath))

/-- What becomes of one source. -/
def migrateSource (recipes : List RuleMigration) (path : String) :
    Content → Except RunFault (Option Change × List Diagnostic)
  | .bytes => .error (.unreadable path)
  | .text source =>
    match parse? (classpathOf recipes) path source with
    | none => .error (.malformed path)
    | some u =>
      let (revision, diagnostics) := migrateAll recipes u
      let change := match revision with
        | .kept => none
        | .replaced new => Change.between? path source new.print
      .ok (change, diagnostics)

/-- Runs migrations over the files of a project. -/
def run (s : Settings) (d : Directory) : Except RunFault Outcome := do
  let selected ← (s.selection.collect d).mapError RunFault.selection
  let results ← selected.mapM fun (path, content) => migrateSource s.recipes path content
  let sources := results.filterMap (·.1)
  let migrated := if s.dryRun then d else applyAll sources d
  let upgrades := if s.skipDependencies then [] else s.recipes.flatMap (·.upgrades)
  let actions := upgrades.map (ActionReport.ofUpgrade migrated)
  let files := if s.dryRun then d else applyAll (actions.flatMap (·.changes)) migrated
  return { sources, actions, diagnostics := results.flatMap (·.2), files }

/-- Runs migrations over the files of a subdirectory. -/
def runIn (s : Settings) (sub : List String) (d : Directory) : Except RunFault Outcome :=
  if d.hasSubdirectory sub then run s (d.within sub) else .error .noDirectory

end JavaMigration.Project
