/-!
# Diagnostics and options of a run
-/

namespace JavaMigration.Recipe

/-- A declaration that could not be migrated, and why. It is left as it was. -/
structure Diagnostic where
  path : String
  declaration : String
  message : String
  deriving DecidableEq, Repr, Inhabited

def Diagnostic.print (d : Diagnostic) : String :=
  d.path ++ ": " ++ d.declaration ++ ": " ++ d.message

/-- Options by key, the latest first, and the diagnostics reported so far. -/
structure Context where
  options : List (String × String) := []
  diagnostics : List Diagnostic := []
  deriving DecidableEq, Repr, Inhabited

namespace Context

def setOption (c : Context) (key value : String) : Context :=
  { c with options := (key, value) :: c.options }

def option? (c : Context) (key : String) : Option String := c.options.lookup key

def report (c : Context) (d : Diagnostic) : Context :=
  { c with diagnostics := c.diagnostics ++ [d] }

/-- The diagnostics, and the context without them. -/
def takeDiagnostics (c : Context) : List Diagnostic × Context :=
  (c.diagnostics, { c with diagnostics := [] })

end Context

end JavaMigration.Recipe
