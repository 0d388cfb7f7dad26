import Mathlib.Data.Prod.Lex
import Mathlib.Data.String.Basic
import JavaMigration.Proofs.Edit.ImportedNames

/-!
# Where an import goes

Imports are in order if they stand by their groups and then by their targets. A new one goes behind
the last that sorts before it, which keeps the order (`inOrder_insertImport`). It takes its space
from there, and none but the import behind it gets another one (`insertImport_append`).
-/

namespace JavaMigration.Edit

open Source

/-! ## Order -/

/-- What imports are sorted by. -/
def sortKey (i : Import) : Nat ×ₗ String := toLex (group i, i.target)

theorem sortsBefore_iff {i j : Import} : sortsBefore i j ↔ sortKey i < sortKey j := by
  simp [sortsBefore, sortKey, Prod.Lex.lt_iff]

theorem sortsBefore_eq_false_iff {i j : Import} :
    sortsBefore i j = false ↔ sortKey j ≤ sortKey i := by
  rw [← Bool.not_eq_true, sortsBefore_iff, not_lt]

/-- Imports stand by their groups, and in a group by their targets. -/
def InOrder (imports : List Import) : Prop := (imports.map sortKey).Pairwise (· ≤ ·)

/-! ## Cutting behind the last -/

/-- Two parts of a list that is cut behind the last element that passes the test. -/
structure CutBehindLast {α : Type} (p : α → Bool) (before after : List α) : Prop where
  last : ∀ a ∈ before.getLast?, p a = true
  behind : ∀ a ∈ after, p a = false

theorem splitBehindLast_of_all {α : Type} {p : α → Bool} {as : List α}
    (h : ∀ a ∈ as, p a = false) : splitBehindLast p as = ([], as) := by
  induction as with
  | nil => rfl
  | cons a as ih =>
    rw [splitBehindLast, ih fun b hb => h b (List.mem_cons_of_mem _ hb)]
    simp [h a List.mem_cons_self]

theorem CutBehindLast.split {α : Type} {p : α → Bool} {before after : List α}
    (h : CutBehindLast p before after) : splitBehindLast p (before ++ after) = (before, after) := by
  induction before with
  | nil => exact splitBehindLast_of_all h.behind
  | cons a before ih =>
    rw [List.cons_append, splitBehindLast]
    cases before with
    | nil =>
      rw [List.nil_append, splitBehindLast_of_all h.behind]
      simp [h.last a rfl]
    | cons b before => rw [ih ⟨h.last, h.behind⟩]

theorem exists_cutBehindLast {α : Type} (p : α → Bool) (as : List α) :
    ∃ before after, as = before ++ after ∧ CutBehindLast p before after := by
  induction as with
  | nil => exact ⟨[], [], rfl, by simp, by simp⟩
  | cons a as ih =>
    obtain ⟨before, after, rfl, hcut⟩ := ih
    cases before with
    | nil =>
      cases ha : p a with
      | true => exact ⟨[a], after, rfl, by simpa using ha, hcut.behind⟩
      | false => exact ⟨[], a :: after, rfl, by simp, by simpa [ha] using hcut.behind⟩
    | cons b before => exact ⟨a :: b :: before, after, rfl, hcut.last, hcut.behind⟩

/-! ## The new import and the next one -/

/-- The space of an import that is put between others. -/
def leadBetween (new : Import) (nl : String) : List Import → List Import → Space
  | [], [] => new.lead
  | [], first :: _ => first.lead
  | b :: before, _ => separator ((b :: before).getLast?.any fun i => group i == group new) nl

/-- The imports behind a new one. The first of them is laid out anew if it was the first of all or
if its space holds no comment. -/
def settleBehind (new : Import) (nl : String) (wasFirst : Bool) : List Import → List Import
  | [] => []
  | next :: rest =>
    if wasFirst || next.lead.isBlank then
      { next with lead := separator (group next == group new) nl } :: rest
    else next :: rest

theorem insertImport_append {new : Import} {before after : List Import}
    (h : CutBehindLast (sortsBefore · new) before after) (nl : String) :
    insertImport new nl (before ++ after) =
      before ++ { new with lead := leadBetween new nl before after } ::
        settleBehind new nl before.isEmpty after := by
  unfold insertImport
  rw [h.split]
  cases before with
  | nil => cases after <;> rfl
  | cons b before =>
    cases after with
    | nil => rfl
    | cons next rest => rfl

/-- Laying out anew changes spaces only. -/
theorem map_settleBehind {β : Type} {f : Import → β}
    (hf : ∀ (i : Import) lead, f { i with lead } = f i) (new : Import) (nl : String)
    (wasFirst : Bool) (imports : List Import) :
    (settleBehind new nl wasFirst imports).map f = imports.map f := by
  cases imports with
  | nil => rfl
  | cons next rest =>
    rw [settleBehind]
    split
    · rw [List.map_cons, List.map_cons, hf]
    · rfl

theorem sortKey_lt_of_mem {new : Import} {before after : List Import}
    (h : CutBehindLast (sortsBefore · new) before after) (horder : InOrder before) {i : Import}
    (hi : i ∈ before) : sortKey i < sortKey new := by
  obtain ⟨front, last, rfl⟩ := (List.eq_nil_or_concat' before).resolve_left (List.ne_nil_of_mem hi)
  have hlast : sortKey last < sortKey new := sortsBefore_iff.mp (h.last last (by simp))
  rw [InOrder, List.map_append, List.pairwise_append] at horder
  rcases List.mem_append.mp hi with hfront | hsame
  · exact lt_of_le_of_lt (horder.2.2 _ (List.mem_map_of_mem hfront) _ (by simp)) hlast
  · rw [List.mem_singleton.mp hsame]
    exact hlast

theorem inOrder_insertImport (new : Import) (nl : String) {imports : List Import}
    (horder : InOrder imports) : InOrder (insertImport new nl imports) := by
  obtain ⟨before, after, rfl, hcut⟩ := exists_cutBehindLast (sortsBefore · new) imports
  have hkeys : ∀ lead, sortKey { new with lead } = sortKey new := fun _ => rfl
  unfold InOrder at *
  rw [insertImport_append hcut, List.map_append, List.map_cons, hkeys,
    map_settleBehind fun _ _ => rfl]
  rw [List.map_append, List.pairwise_append] at horder
  obtain ⟨hbefore, hafter, hacross⟩ := horder
  have hnew : ∀ k ∈ after.map sortKey, sortKey new ≤ k := by
    rw [List.forall_mem_map]
    exact fun i hi => sortsBefore_eq_false_iff.mp (hcut.behind i hi)
  refine List.pairwise_append.mpr ⟨hbefore, List.pairwise_cons.mpr ⟨hnew, hafter⟩, ?_⟩
  intro k hk l hl
  obtain ⟨i, hi, rfl⟩ := List.mem_map.mp hk
  rcases List.mem_cons.mp hl with rfl | hl
  · exact (sortKey_lt_of_mem hcut hbefore hi).le
  · exact hacross _ hk _ hl

end JavaMigration.Edit
