/-!
# Edit scripts

An edit script says how one list becomes another: runs of entries that are kept, deleted or
inserted. It is read from both sides: the kept and the deleted entries are the old list, the
kept and the inserted ones the new list.
-/

namespace JavaMigration.Diff

inductive Tag where
  | keep
  | delete
  | insert
  deriving DecidableEq, Repr, Inhabited

/-- Some entries in a row with the same fate. -/
structure Run (α : Type) where
  tag : Tag
  entries : List α
  deriving DecidableEq, Repr, Inhabited

abbrev Script (α : Type) : Type := List (Run α)

variable {α : Type}

/-- What a run contributes to a side that leaves one tag out. -/
def Run.without (tag : Tag) (r : Run α) : List α := if r.tag = tag then [] else r.entries

namespace Script

/-- The list before the edit. -/
def old (s : Script α) : List α := s.flatMap (·.without .insert)

/-- The list after the edit. -/
def new (s : Script α) : List α := s.flatMap (·.without .delete)

end Script

/-- A run, or nothing if it has no entries. -/
def run (tag : Tag) (entries : List α) : Script α :=
  if entries.isEmpty then [] else [⟨tag, entries⟩]

end JavaMigration.Diff
