import JavaMigration.Text.Split

/-!
# Paths

Slash-separated paths by their components. Empty components and single dots do not count.
-/

namespace JavaMigration.File

/-- The components of a path. -/
def components (path : String) : List String :=
  (Text.split '/' path).filter fun c => !c.isEmpty && c != "."

/-- The last component, unless the path ends by going up. -/
def fileName? (path : String) : Option String :=
  (components path).getLast?.filter (· != "..")

/-- What follows the last dot of the file name, unless the name has no dot but a leading one. -/
def extension? (path : String) : Option String := do
  let (stem, extension) ← Text.splitLast '.' (← fileName? path)
  if stem.isEmpty then none else some extension

/-- A path below a directory, as text. -/
def join (directory path : String) : String :=
  if directory.isEmpty || Text.endsWith directory "/" then directory ++ path
  else directory ++ "/" ++ path

/-- The order of paths: component by component. -/
def comesBefore (a b : String) : Bool := decide (components a < components b)

end JavaMigration.File
