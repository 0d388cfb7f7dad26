import JavaMigration.Text.Split

/-!
# Options on a command line

Long options `--name`, with `--name=value` for one that takes a value, and short ones `-n`, which
may stand together. Everything else is an operand, and so is all that follows a lone `--`.
-/

namespace JavaMigration.CommandLine

inductive OptionKind where
  /-- May be given any number of times. -/
  | counted
  /-- May be given once. -/
  | switch
  /-- May be given once, with a value. -/
  | valued
  /-- Asks for the help or the version, and for nothing else. -/
  | help
  | version
  deriving DecidableEq, Repr, Inhabited

structure OptionSpec where
  long : String
  short : Option Char := none
  kind : OptionKind
  deriving DecidableEq, Repr, Inhabited

/-- What is wrong with a command line. -/
inductive UsageFault where
  | noCommand
  | unknownCommand (name : String)
  | unexpected (argument : String)
  | missingOperand (name : String)
  | missingValue (option : String)
  | unneededValue (option : String)
  | repeated (option : String)
  deriving DecidableEq, Repr, Inhabited

def UsageFault.message : UsageFault → String
  | noCommand => "a command is required"
  | unknownCommand name => "unrecognized command '" ++ name ++ "'"
  | unexpected argument => "unexpected argument '" ++ argument ++ "'"
  | missingOperand name => "the argument " ++ name ++ " is required"
  | missingValue option => "a value is required for '--" ++ option ++ "'"
  | unneededValue option => "'--" ++ option ++ "' takes no value"
  | repeated option => "'--" ++ option ++ "' cannot be used more than once"

/-- Why the reading of a command line ends before its end. -/
inductive Halt where
  | fault (f : UsageFault)
  | help
  | version
  deriving DecidableEq, Repr, Inhabited

/-- What a command takes. -/
structure Signature where
  options : List OptionSpec
  /-- How many operands there may be. -/
  operands : Nat := 0
  /-- The first operand ends the options. -/
  stopsAtOperand : Bool := false
  deriving Inhabited

/-- The options and operands given so far. -/
structure Given where
  options : List (String × String) := []
  operands : List String := []
  deriving DecidableEq, Repr, Inhabited

namespace Given

def has (g : Given) (option : String) : Bool := (g.options.lookup option).isSome

/-- Adds an option; only a counted one may be given again. -/
def addOption (g : Given) (o : OptionSpec) (value : String) : Except Halt Given :=
  if o.kind != .counted && g.has o.long then .error (.fault (.repeated o.long))
  else .ok { g with options := g.options ++ [(o.long, value)] }

/-- Adds the value of an option, which must not be empty. -/
def addValue (g : Given) (o : OptionSpec) (value : String) : Except Halt Given :=
  if value.isEmpty then .error (.fault (.missingValue o.long)) else g.addOption o value

/-- Adds an option without a value. -/
def addFlag (g : Given) (o : OptionSpec) : Except Halt Given :=
  match o.kind with
  | .help => .error .help
  | .version => .error .version
  | _ => g.addOption o ""

def addOperand (g : Given) (sig : Signature) (value : String) : Except Halt Given :=
  if value.isEmpty || sig.operands ≤ g.operands.length then
    .error (.fault (.unexpected value))
  else .ok { g with operands := g.operands ++ [value] }

end Given

/-- An argument by its form. -/
inductive Word where
  | long (name : String) (value : Option String)
  | short (letters : List Char)
  | operand (text : String)
  | endOfOptions
  deriving DecidableEq, Repr, Inhabited

def Word.ofArgument (argument : String) : Word :=
  match argument.toList with
  | ['-', '-'] => .endOfOptions
  | '-' :: '-' :: name =>
    match Text.cutFirst '=' name with
    | some (name, value) => .long (String.ofList name) (some (String.ofList value))
    | none => .long (String.ofList name) none
  | '-' :: c :: r => .short (c :: r)
  | _ => .operand argument

namespace Signature

/-- Options that stand together, with the value of the last one if it is there. The last one is
given back if it lacks its value. -/
def readShort (sig : Signature) (g : Given) :
    List Char → Except Halt (Given × Option OptionSpec)
  | [] => .ok (g, none)
  | c :: r =>
    match sig.options.find? (·.short == some c) with
    | none => .error (.fault (.unexpected (String.ofList ['-', c])))
    | some o =>
      if o.kind != .valued then (g.addFlag o).bind fun g => sig.readShort g r
      else
        match r with
        | [] => .ok (g, some o)
        | '=' :: value => (g.addValue o (String.ofList value)).map (·, none)
        | value => (g.addValue o (String.ofList value)).map (·, none)

/-- A long option; it is given back if it lacks its value. -/
def readLong (sig : Signature) (g : Given) (name : String) (value : Option String) :
    Except Halt (Given × Option OptionSpec) :=
  match sig.options.find? (·.long == name) with
  | none => .error (.fault (.unexpected ("--" ++ name)))
  | some o =>
    match o.kind == .valued, value with
    | true, some value => (g.addValue o value).map (·, none)
    | true, none => .ok (g, some o)
    | false, some _ => .error (.fault (.unneededValue name))
    | false, none => (g.addFlag o).map (·, none)

/-- Reads arguments; `pending` is the option that the next one is the value of. The arguments that
are left are those from the operand on that ends the options. -/
def readFrom (sig : Signature) (g : Given) (pending : Option OptionSpec) :
    List String → Except Halt (Given × List String)
  | [] =>
    match pending with
    | some o => .error (.fault (.missingValue o.long))
    | none => .ok (g, [])
  | a :: r =>
    match pending, Word.ofArgument a with
    | some o, .operand value => (g.addValue o value).bind fun g => sig.readFrom g none r
    | some o, _ => .error (.fault (.missingValue o.long))
    | none, .long name value =>
      (sig.readLong g name value).bind fun (g, pending) => sig.readFrom g pending r
    | none, .short letters =>
      (sig.readShort g letters).bind fun (g, pending) => sig.readFrom g pending r
    | none, .endOfOptions => (r.foldlM (fun g v => Given.addOperand g sig v) g).map (·, [])
    | none, .operand value =>
      if sig.stopsAtOperand then .ok (g, a :: r)
      else (g.addOperand sig value).bind fun g => sig.readFrom g none r

def read (sig : Signature) (arguments : List String) : Except Halt (Given × List String) :=
  sig.readFrom {} none arguments

end Signature

end JavaMigration.CommandLine
