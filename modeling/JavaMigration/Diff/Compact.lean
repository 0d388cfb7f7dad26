import JavaMigration.Diff.Script

/-!
# Compact edit scripts

Runs of changes can be moved without changing either side: a deletion and an insertion that
touch may trade places, and an insertion among like entries may be shifted past them. Every run
is moved up as far as it goes and then down as far as it goes, and joined with others of its tag
on the way. A deletion is not shifted past kept entries.
-/

namespace JavaMigration.Diff

variable {α : Type} [DecidableEq α]

/-- Rotates a run past kept entries as long as they agree. Gives the kept entries not passed,
the run, and the entries passed. -/
def rotate : List α → List α → List α × List α × List α
  | a :: kept, b :: moving =>
    if a = b then
      let (kept, moving, passed) := rotate kept (moving ++ [b])
      (kept, moving, a :: passed)
    else (a :: kept, b :: moving, [])
  | kept, moving => (kept, moving, [])

/-- Moves a run past kept entries as far as its tag allows. -/
def slide (tag : Tag) (kept moving : List α) : List α × List α × List α :=
  if tag = .insert then rotate kept moving else (kept, moving, [])

/-- Puts kept entries in front of a script. -/
def keepBefore (entries : List α) (s : Script α) : Script α :=
  match entries, s with
  | [], s => s
  | _, ⟨.keep, more⟩ :: s => ⟨.keep, entries ++ more⟩ :: s
  | _, s => ⟨.keep, entries⟩ :: s

/-- Puts kept entries behind a script whose runs are listed backwards. -/
def keepBehind (entries : List α) (s : Script α) : Script α :=
  match entries, s with
  | [], s => s
  | _, ⟨.keep, more⟩ :: s => ⟨.keep, more ++ entries⟩ :: s
  | _, s => ⟨.keep, entries⟩ :: s

/-- A run with the runs before it, listed backwards, and those behind it. -/
structure Focus (α : Type) where
  before : Script α
  tag : Tag
  entries : List α
  behind : Script α

/-- Moves a run up: past kept entries as they allow, past runs of the other tag always, and into
runs of its own tag. -/
def moveUp (tag : Tag) (entries : List α) : Script α → Script α → Focus α
  | [], behind => ⟨[], tag, entries, behind⟩
  | ⟨.keep, kept⟩ :: before, behind =>
    let (kept, moved, passed) := slide tag kept.reverse entries.reverse
    let behind := keepBefore passed.reverse behind
    if kept.isEmpty then moveUp tag moved.reverse before behind
    else ⟨⟨.keep, kept.reverse⟩ :: before, tag, moved.reverse, behind⟩
  | r :: before, behind =>
    if r.tag = tag then moveUp tag (r.entries ++ entries) before behind
    else moveUp tag entries before (r :: behind)

/-- Moves a run down in the same way. -/
def moveDown (tag : Tag) (entries : List α) (before : Script α) : Script α → Focus α
  | [] => ⟨before, tag, entries, []⟩
  | ⟨.keep, kept⟩ :: behind =>
    let (kept, moved, passed) := slide tag kept entries
    let before := keepBehind passed before
    if kept.isEmpty then moveDown tag moved before behind
    else ⟨before, tag, moved, ⟨.keep, kept⟩ :: behind⟩
  | r :: behind =>
    if r.tag = tag then moveDown tag (entries ++ r.entries) before behind
    else moveDown tag entries (r :: before) behind

/-- Moves the runs of a tag one after the other; at most as many as the first number. -/
def compactFrom (tag : Tag) : Nat → Script α → Script α → Script α
  | 0, before, behind => before.reverse ++ behind
  | _ + 1, before, [] => before.reverse
  | bound + 1, before, r :: behind =>
    if r.tag = tag then
      let f := moveUp tag r.entries before behind
      let f := moveDown tag f.entries f.before f.behind
      compactFrom tag bound (⟨tag, f.entries⟩ :: f.before) f.behind
    else compactFrom tag bound (r :: before) behind

/-- The number of runs and entries, squared: a bound on the runs to look at. -/
def compactBound (s : Script α) : Nat :=
  let size := s.length + s.foldr (fun r n => r.entries.length + n) 0 + 1
  size * size

/-- Moves the deletions, then the insertions. -/
def compact (s : Script α) : Script α :=
  let s := compactFrom .delete (compactBound s) [] s
  compactFrom .insert (compactBound s) [] s

end JavaMigration.Diff
