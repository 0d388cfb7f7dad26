import JavaMigration.CommandLine.Command
import JavaMigration.CommandLine.Outline
import JavaMigration.CommandLine.Report
import JavaMigration.Recipe.ConfigFile

/-!
# Executing commands

What a command prints, the files it leaves and the status it ends with: zero if it was done, one
if it failed and two if the command line was not understood.
-/

namespace JavaMigration.CommandLine

open File Java Recipe Project

/-- Why a command fails. -/
inductive Failure where
  | config (path : String) (fault : ConfigFileFault)
  | recipe (fault : RecipeFault)
  | run (path : String) (fault : RunFault)
  | unreadable (path : String)
  | malformed (path : String)
  deriving DecidableEq, Repr, Inhabited

def Failure.message : Failure → String
  | config path .unreadable => "cannot read the config " ++ path
  | config path .json => "the config " ++ path ++ " is no JSON config"
  | config path .yaml => "the config " ++ path ++ " is no YAML config"
  | config _ (.config fault) => fault.message
  | recipe fault => fault.message
  | run path .noDirectory => "Repository not found at path: " ++ path
  | run _ (.selection _) => "a file pattern cannot be read"
  | run _ (.unreadable path) => "cannot read " ++ path
  | run _ (.malformed path) => "syntax error in " ++ path
  | unreadable path => "cannot read " ++ path
  | malformed path => "syntax error in " ++ path

/-- What a command does. -/
structure Reply where
  output : String := ""
  warnings : List String := []
  status : Nat := 0
  files : Directory

def lines (ls : List String) : String := String.join (ls.map (· ++ "\n"))

/-- The recipe for the settings in a file, or for the defaults. -/
def loadRecipe (d : Directory) (config : Option String) : Except Failure RuleMigration := do
  let c ← match config with
    | some path => (Config.ofFile path (d.text? path)).mapError (Failure.config path)
    | none => pure {}
  (RuleMigration.ofConfig c).mapError Failure.recipe

def runProject (o : RunOptions) (d : Directory) : Except Failure Reply := do
  let recipe ← loadRecipe d o.config
  let some sub := d.locate? o.path | throw (.run o.path .noDirectory)
  let settings : Settings :=
    { recipes := [recipe], dryRun := o.dryRun, skipDependencies := o.skipDependencies }
  let outcome ← (runIn settings sub d).mapError (Failure.run o.path)
  let files := d.update sub outcome.files
  if o.json then
    return { output := lines [(outcomeJson o.path o.dryRun outcome).print], files }
  return {
    output := lines (outcomeLines (o.dryRun || o.diff) outcome)
    warnings := warningLines o.path outcome
    files }

/-- A recipe with its name, what it does and what it upgrades. -/
def recipeLines (m : RuleMigration) : List String :=
  ["  " ++ RuleMigration.name ++ " - " ++ m.displayName, "      " ++ m.description] ++
    m.upgrades.map fun u => "      then: " ++ u.describe

def listRecipes (d : Directory) : Except Failure Reply := do
  let recipe ← loadRecipe d none
  return { output := lines ("Available recipes:" :: recipeLines recipe), files := d }

def outlineFile (file : String) (source : Bool) (d : Directory) : Except Failure Reply := do
  let some text := d.text? file | throw (.unreadable file)
  let recipe ← loadRecipe d none
  let some u := parse? (.ofList recipe.classpath) file text | throw (.malformed file)
  return { output := if source then u.print else lines (outline u), files := d }

def Command.execute (c : Command) (d : Directory) : Except Failure Reply :=
  match c with
  | .run o => runProject o d
  | .recipes => listRecipes d
  | .outline file source => outlineFile file source d

/-- The version of the program. -/
def versionLine : String := "rewrite 0.1.0"

/-- What the program does with a command line in a directory. A command that fails leaves all
files as they were. -/
def respond (arguments : List String) (d : Directory) : Reply :=
  match Command.ofArguments arguments with
  | .error .help => { files := d }
  | .error .version => { output := lines [versionLine], files := d }
  | .error (.fault f) => { warnings := ["error: " ++ f.message], status := 2, files := d }
  | .ok c =>
    match c.execute d with
    | .ok reply => reply
    | .error f => { warnings := ["error: " ++ f.message], status := 1, files := d }

end JavaMigration.CommandLine
