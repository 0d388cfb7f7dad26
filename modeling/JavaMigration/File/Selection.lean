import JavaMigration.File.Glob
import JavaMigration.File.Directory
import JavaMigration.Regex.Reader

/-!
# Selecting files

Which files of a directory are looked at: by extension, by patterns for the path and by patterns for
the content. No extension, no pattern to include and no pattern for the content stand for any.
-/

namespace JavaMigration.File

structure Selection where
  extensions : List String := []
  included : List String := []
  excluded : List String := []
  /-- Search patterns of which the content has to match one. -/
  containing : List String := []
  deriving DecidableEq, Repr, Inhabited

/-- What is wrong with a selection. -/
inductive SelectionFault where
  | glob
  | regex
  deriving DecidableEq, Repr, Inhabited

/-- The directories of build products and of the version control. -/
def derivedDirectories : List String := ["**/target/**", "**/build/**", "**/.git/**"]

namespace Selection

/-- Java sources outside the derived directories. -/
def javaSources : Selection := { extensions := ["java"], excluded := derivedDirectories }

/-- Maven and Gradle files outside the derived directories. -/
def buildFiles : Selection where
  included := ["**/pom.xml", "**/build.gradle", "**/build.gradle.kts"]
  excluded := derivedDirectories

/-- A selection with more extensions and patterns of every kind. -/
def extend (s t : Selection) : Selection where
  extensions := s.extensions ++ t.extensions
  included := s.included ++ t.included
  excluded := s.excluded ++ t.excluded
  containing := s.containing ++ t.containing

/-- A selection whose patterns have been read. -/
structure Filter where
  extensions : List String
  included : List Glob
  excluded : List Glob
  containing : List Regex
  deriving Inhabited

/-- The first pattern that cannot be read decides what is wrong. -/
def filter? (s : Selection) : Except SelectionFault Filter :=
  match s.included.mapM Glob.read, s.excluded.mapM Glob.read, s.containing.mapM Regex.read with
  | some included, some excluded, some containing =>
    .ok ⟨s.extensions, included, excluded, containing⟩
  | some _, some _, none => .error .regex
  | _, _, _ => .error .glob

/-- Letters of ASCII in lower case. -/
def lowered (s : String) : List Char := s.toList.map Char.toLower

namespace Filter

def acceptsExtension (f : Filter) (path : String) : Bool :=
  f.extensions.isEmpty ||
    f.extensions.any fun e => lowered e == lowered ((extension? path).getD "")

def acceptsPath (f : Filter) (path : String) : Bool :=
  (f.included.isEmpty || f.included.any (·.accepts path)) &&
    !f.excluded.any (·.accepts path)

/-- A file without a text has no content that could match. -/
def acceptsContent (f : Filter) : Content → Bool
  | .text s => f.containing.isEmpty || f.containing.any fun r => r.occursInText s
  | .bytes => f.containing.isEmpty

def accepts (f : Filter) (path : String) (content : Content) : Bool :=
  f.acceptsExtension path && f.acceptsPath path && f.acceptsContent content

end Filter

/-- The selected files of a directory in the order of their paths. -/
def collect (s : Selection) (d : Directory) : Except SelectionFault (List (String × Content)) :=
  s.filter?.map fun f =>
    (d.files.filter fun (path, content) => f.accepts path content).mergeSort fun a b =>
      !comesBefore b.1 a.1

end Selection

end JavaMigration.File
