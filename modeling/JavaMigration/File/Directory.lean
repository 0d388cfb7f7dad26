import JavaMigration.File.Path

/-!
# Directories

The files below a directory by their paths. A directory exists as far as there is a file in it.
-/

namespace JavaMigration.File

/-- What a file holds: a text, or bytes that are the encoding of no text. -/
inductive Content where
  | text (s : String)
  | bytes
  deriving DecidableEq, Repr, Inhabited

def Content.text? : Content → Option String
  | text s => some s
  | bytes => none

/-- Files with their paths, each path once. -/
structure Directory where
  files : List (String × Content) := []
  deriving DecidableEq, Repr, Inhabited

namespace Directory

def paths (d : Directory) : List String := d.files.map (·.1)

def get? (d : Directory) (path : String) : Option Content := d.files.lookup path

/-- The directory with the content of one of its files replaced. -/
def write (d : Directory) (path : String) (content : Content) : Directory :=
  ⟨d.files.map fun f => if f.1 = path then (f.1, content) else f⟩

/-- The components of a path below a directory. -/
def below? : List String → List String → Option (List String)
  | [], path => some path
  | _ :: _, [] => none
  | c :: cs, p :: ps => if c = p then below? cs ps else none

/-- A subdirectory, with the paths of its files from there. -/
def within (d : Directory) (sub : List String) : Directory :=
  ⟨d.files.filterMap fun (path, content) =>
    match below? sub (components path) with
    | some [] => none
    | some rest => some (String.intercalate "/" rest, content)
    | none => none⟩

/-- Whether there is a subdirectory, which may be the directory itself. -/
def hasSubdirectory (d : Directory) (sub : List String) : Bool :=
  sub.isEmpty || !(d.within sub).files.isEmpty

/-- The components of a path from the directory, with every step up taken. It steps up only from
directories that are there, and never out of this one. -/
def locate? (d : Directory) (path : String) : Option (List String) :=
  if Text.startsWith path "/" then none
  else
    (components path).foldlM (fun (dirs : List String) c =>
      if c != ".." then some (dirs ++ [c])
      else if dirs.isEmpty || !d.hasSubdirectory dirs then none
      else some dirs.dropLast) []

/-- The text of the file at a path, which may take steps up. -/
def text? (d : Directory) (path : String) : Option String := do
  let target ← d.locate? path
  if Text.endsWith path "/" then none
  let (_, content) ← d.files.find? fun f => components f.1 == target
  content.text?

/-- The directory with the files of a subdirectory as they are in `new`. -/
def update (d : Directory) (sub : List String) (new : Directory) : Directory :=
  ⟨d.files.map fun (path, content) =>
    match below? sub (components path) with
    | some rest => (path, (new.get? (String.intercalate "/" rest)).getD content)
    | none => (path, content)⟩

end Directory

end JavaMigration.File
