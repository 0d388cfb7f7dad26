import JavaMigration.CommandLine.Options

/-!
# Commands

What the program can be asked to do: run the migration over a project, list the recipes, and show
the declarations of a Java file.
-/

namespace JavaMigration.CommandLine

structure RunOptions where
  path : String := "."
  config : Option String := none
  dryRun : Bool := false
  diff : Bool := false
  skipDependencies : Bool := false
  json : Bool := false
  deriving DecidableEq, Repr, Inhabited

inductive Command where
  | run (o : RunOptions)
  | recipes
  /-- Shows an outline of a file, or its source as it is printed from the tree. -/
  | outline (file : String) (source : Bool)
  deriving DecidableEq, Repr, Inhabited

namespace Command

/-- Options that every command takes. -/
def commonOptions : List OptionSpec :=
  [⟨"verbose", some 'v', .counted⟩, ⟨"help", some 'h', .help⟩]

def topSignature : Signature where
  options := commonOptions ++ [⟨"version", some 'V', .version⟩]
  stopsAtOperand := true

def runSignature : Signature where
  options := commonOptions ++
    [⟨"config", some 'c', .valued⟩, ⟨"dry-run", none, .switch⟩, ⟨"diff", none, .switch⟩,
      ⟨"skip-dependencies", none, .switch⟩, ⟨"json", none, .switch⟩]
  operands := 1

def recipesSignature : Signature where
  options := commonOptions

def outlineSignature : Signature where
  options := commonOptions ++ [⟨"source", none, .switch⟩]
  operands := 1

def names : List String := ["run", "recipes", "print", "help"]

/-- Help is about the program or one of its commands. -/
def readHelp : List String → Halt
  | [] => .help
  | [name] => if names.contains name then .help else .fault (.unknownCommand name)
  | name :: other :: _ => .fault (.unknownCommand (if names.contains name then other else name))

/-- The command with a name, by the arguments behind it. -/
def readNamed (name : String) (arguments : List String) : Except Halt Command := do
  match name with
  | "run" =>
    let (g, _) ← runSignature.read arguments
    return .run {
      path := g.operands.headD "."
      config := g.options.lookup "config"
      dryRun := g.has "dry-run"
      diff := g.has "diff"
      skipDependencies := g.has "skip-dependencies"
      json := g.has "json" }
  | "recipes" =>
    let _ ← recipesSignature.read arguments
    return .recipes
  | "print" =>
    let (g, _) ← outlineSignature.read arguments
    match g.operands with
    | file :: _ => return .outline file (g.has "source")
    | [] => throw (.fault (.missingOperand "FILE"))
  | "help" => throw (readHelp arguments)
  | name => throw (.fault (.unknownCommand name))

/-- The command that a command line asks for. -/
def ofArguments (arguments : List String) : Except Halt Command := do
  match ← topSignature.read arguments with
  | (_, name :: rest) => readNamed name rest
  | (_, []) => throw (.fault .noCommand)

end Command

end JavaMigration.CommandLine
