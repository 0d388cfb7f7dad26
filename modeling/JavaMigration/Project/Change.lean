import JavaMigration.Diff.Unified
import JavaMigration.File.Directory

/-!
# Changes of files

The text of a file before and after. A run of a project is a list of changes, which its diff, its
summary and the files that it leaves all come from.
-/

namespace JavaMigration.Project

open File Diff

structure Change where
  path : String
  before : String
  after : String
  deriving DecidableEq, Repr, Inhabited

namespace Change

/-- The change of a file, if there is one. -/
def between? (path before after : String) : Option Change :=
  if before = after then none else some ⟨path, before, after⟩

def isModified (c : Change) : Bool := c.before != c.after

def diff (p : Palette) (c : Change) : String := unified p c.path c.before c.after

def summary (c : Change) : Summary := .ofTexts c.before c.after

end Change

/-- The diffs of several changes, with an empty line between two of them. -/
def diffAll (p : Palette) (changes : List Change) : String :=
  String.intercalate "\n" (changes.map (·.diff p))

def summarize (changes : List Change) : Summary :=
  changes.foldl (fun s c => s.add c.summary) {}

/-- The files after some changes, made one after the other. -/
def applyAll (changes : List Change) (d : Directory) : Directory :=
  changes.foldl (fun d c => d.write c.path (.text c.after)) d

end JavaMigration.Project
