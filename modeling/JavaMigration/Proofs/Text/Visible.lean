import Mathlib.Data.List.DropRight
import JavaMigration.Proofs.Source.Bare
import JavaMigration.Proofs.Source.Printing
import JavaMigration.Proofs.Text.Lines

/-!
# What a text shows

A text without its blanks. A space shows its comments, and nothing if it holds none.
-/

namespace JavaMigration.Text

/-- The characters of a text that are no blanks. -/
def visible (s : String) : List Char := s.toList.filter fun c => !isBlank c

@[simp] theorem visible_empty : visible "" = [] := rfl

@[simp] theorem visible_append (s t : String) : visible (s ++ t) = visible s ++ visible t := by
  rw [visible, String.toList_append, List.filter_append]
  rfl

theorem visible_join (ss : List String) : visible (String.join ss) = ss.flatMap visible := by
  induction ss with
  | nil => rfl
  | cons s ss ih => rw [String.join_cons, visible_append, ih, List.flatMap_cons]

theorem visible_eq_nil_iff {s : String} : visible s = [] ↔ s.toList.all isBlank := by
  simp [visible]

/-- Blanks in front do not show. -/
theorem visible_dropWhileStart {p : Char → Bool} (h : ∀ c, p c → isBlank c) (s : String) :
    visible (dropWhileStart p s) = visible s := by
  unfold visible dropWhileStart
  rw [String.toList_ofList]
  induction s.toList with
  | nil => rfl
  | cons c cs ih =>
    rw [List.dropWhile_cons]
    split
    · next hc => rw [ih, List.filter_cons_of_neg (by simp [h c hc])]
    · rfl

theorem visible_lineEnding (s : String) : visible (lineEnding s) = [] := by
  unfold lineEnding
  split
  · split <;> rfl
  · rfl

end JavaMigration.Text

namespace JavaMigration.Source

open Text

theorem Space.visible_text_iff {s : Space} : visible s.text = [] ↔ s.isBlank :=
  visible_eq_nil_iff

theorem Space.visible_dropNewlines (s : Space) : visible s.dropNewlines.text = visible s.text := by
  refine visible_dropWhileStart (fun c hc => ?_) s.text
  obtain rfl | rfl : c = '\n' ∨ c = '\r' := by simpa using hc
  · rfl
  · rfl

theorem Statement.visible_withLead (s : Statement) (lead : Space) :
    visible (s.withLead lead).print = visible lead.text ++ visible (s.withLead .empty).print := by
  rw [Statement.print_withLead, visible_append]

/-- A statement shows the same behind another space that shows the same. -/
theorem Statement.visible_print_withLead {s : Statement} {lead : Space}
    (h : visible lead.text = visible s.lead.text) :
    visible (s.withLead lead).print = visible s.print := by
  rw [Statement.visible_withLead, h, ← Statement.visible_withLead, Statement.withLead_lead]

end JavaMigration.Source
