import Mathlib.Data.List.DropRight
import JavaMigration.Edit.Imports
import JavaMigration.Proofs.Source.Bare

/-!
# What import edits leave alone

Import edits touch the types of a unit in one place: the line breaks in front of the first one.
Apart from the types and the imports they leave a unit as it is.
-/

namespace JavaMigration.Source

/-- The same statements, but for the line breaks that the space before the first one begins
with. -/
def Shifted : List Statement → List Statement → Prop
  | [], ts => ts = []
  | s :: r, ts => ∃ lead : Space, lead.dropNewlines = s.lead.dropNewlines ∧ ts = s.withLead lead :: r

theorem Shifted.refl (ss : List Statement) : Shifted ss ss := by
  cases ss with
  | nil => rfl
  | cons s r => exact ⟨s.lead, rfl, by rw [Statement.withLead_lead]⟩

theorem Shifted.trans {ss ts us : List Statement} (h : Shifted ss ts) (h' : Shifted ts us) :
    Shifted ss us := by
  cases ss with
  | nil =>
    cases h
    exact h'
  | cons s r =>
    obtain ⟨lead, hlead, rfl⟩ := h
    obtain ⟨more, hmore, rfl⟩ := h'
    rw [Statement.lead_withLead] at hmore
    exact ⟨more, hmore.trans hlead, by rw [Statement.withLead_withLead]⟩

/-- The units differ in their imports and types only. -/
def CompilationUnit.SameFrame (u v : CompilationUnit) : Prop :=
  v = { u with imports := v.imports, types := v.types }

theorem CompilationUnit.SameFrame.trans {u v w : CompilationUnit} (h : u.SameFrame v)
    (h' : v.SameFrame w) : u.SameFrame w := by
  unfold SameFrame at h h' ⊢
  rw [h'] at *
  rw [h]

theorem CompilationUnit.SameFrame.path_eq {u v : CompilationUnit} (h : u.SameFrame v) :
    v.path = u.path := by
  unfold SameFrame at h
  rw [h]

end JavaMigration.Source

namespace JavaMigration.Edit

open Java Source

/-! ## Line breaks in front -/

theorem dropNewlines_append {breaks : String}
    (h : ∀ c ∈ breaks.toList, (c == '\n' || c == '\r') = true) (text : String) :
    (⟨breaks ++ text⟩ : Space).dropNewlines = (⟨text⟩ : Space).dropNewlines := by
  unfold Space.dropNewlines Text.dropWhileStart
  rw [String.toList_append, List.dropWhile_append_of_pos h]

theorem dropNewlines_dropNewlines (s : Space) : s.dropNewlines.dropNewlines = s.dropNewlines := by
  unfold Space.dropNewlines Text.dropWhileStart
  rw [String.toList_ofList, List.dropWhile_idempotent]

theorem lineEnding_breaks (s : String) :
    ∀ c ∈ (Text.lineEnding s).toList, (c == '\n' || c == '\r') = true := by
  unfold Text.lineEnding
  split
  · split <;> simp
  · simp

theorem shifted_setApart (s : String) (types : List Statement) :
    Shifted types (setApart (Text.lineEnding s) types) := by
  cases types with
  | nil => rfl
  | cons first rest =>
    rw [setApart]
    generalize hblanks : Text.lineEnding s ++ Text.lineEnding s = blank
    have hblank : ∀ c ∈ blank.toList, (c == '\n' || c == '\r') = true := by
      intro c hc
      rw [← hblanks, String.toList_append] at hc
      exact (List.mem_append.mp hc).elim (lineEnding_breaks s c) (lineEnding_breaks s c)
    split
    · exact Shifted.refl _
    · refine ⟨_, ?_, rfl⟩
      rw [dropNewlines_append hblank]
      exact dropNewlines_dropNewlines first.lead

theorem shifted_moveUp (types : List Statement) : Shifted types (moveUp types) := by
  cases types with
  | nil => rfl
  | cons first rest => exact ⟨_, dropNewlines_dropNewlines first.lead, rfl⟩

/-! ## Edits -/

theorem shifted_addImport (u : CompilationUnit) (name : String) :
    Shifted u.types ((addImport u name).get u).types := by
  unfold addImport
  split
  · exact Shifted.refl _
  · split
    · exact shifted_setApart _ _
    · exact Shifted.refl _

theorem shifted_removeImport (u : CompilationUnit) (name : String) :
    Shifted u.types ((removeImport u name).get u).types := by
  unfold removeImport
  split
  · exact Shifted.refl _
  · next imports _ =>
    split
    · exact Shifted.refl _
    · show Shifted u.types (if imports.isEmpty && u.package.isNone then moveUp u.types else u.types)
      split
      · exact shifted_moveUp _
      · exact Shifted.refl _

/-- A type is not referred to by imports, its own one included. -/
theorem anyPiece_refersTo (u : CompilationUnit) (name : String) :
    u.anyPiece (refersTo name) = (piecesOf u.types).any (refersTo name) := by
  have hnone : (u.imports.map Piece.imported).any (refersTo name) = false := by
    rw [List.any_map, List.any_eq_false]
    exact fun _ _ => Bool.false_ne_true
  rw [CompilationUnit.anyPiece, CompilationUnit.pieces, List.any_append, hnone, Bool.false_or]

theorem sameFrame_addImport (u : CompilationUnit) (name : String) :
    u.SameFrame ((addImport u name).get u) := by
  unfold addImport
  split
  · rfl
  · split <;> rfl

theorem sameFrame_removeImport (u : CompilationUnit) (name : String) :
    u.SameFrame ((removeImport u name).get u) := by
  unfold removeImport
  split
  · rfl
  · split <;> rfl

/-- What is added is added before anything is removed. -/
theorem get_apply (e : ImportEdits) (u : CompilationUnit) :
    (e.apply u).get u =
      let added := (ImportEdits.applyAll addImport u e.additions).get u
      (ImportEdits.applyAll removeImport added e.removals).get added := by
  unfold ImportEdits.apply
  cases ImportEdits.applyAll addImport u e.additions <;> rfl

/-! ## Requests -/

theorem additions_remove (e : ImportEdits) (name : String) :
    (e.remove name).additions = e.additions := by
  unfold ImportEdits.remove
  split <;> rfl

theorem mem_removals_remove {e : ImportEdits} {name other : String}
    (h : other ∈ (e.remove name).removals) : other ∈ e.removals ∨ other = name := by
  unfold ImportEdits.remove at h
  split at h
  · exact .inl h
  · simpa using h

theorem add_of_mem {e : ImportEdits} {name : String} (h : name ∈ e.additions) : e.add name = e :=
  if_pos (List.contains_iff_mem.mpr h)

theorem add_of_not_mem {e : ImportEdits} {name : String} (h : name ∉ e.additions) :
    e.add name = { e with additions := e.additions ++ [name] } :=
  if_neg (mt List.contains_iff_mem.mp h)

/-- Requested additions go behind the earlier ones, each once. -/
theorem exists_foldl_add (names : List String) (e : ImportEdits) :
    ∃ fresh, names.foldl ImportEdits.add e = { e with additions := e.additions ++ fresh } ∧
      fresh.Nodup ∧ ∀ other, other ∈ fresh ↔ other ∈ names ∧ other ∉ e.additions := by
  induction names generalizing e with
  | nil => exact ⟨[], by simp, List.nodup_nil, by simp⟩
  | cons name names ih =>
    obtain ⟨fresh, heq, hnodup, hfresh⟩ := ih (e.add name)
    rw [List.foldl_cons, heq]
    by_cases hold : name ∈ e.additions
    · rw [add_of_mem hold] at hfresh ⊢
      refine ⟨fresh, rfl, hnodup, fun other => ?_⟩
      rw [hfresh, List.mem_cons]
      exact ⟨fun h => ⟨.inr h.1, h.2⟩,
        fun h => ⟨h.1.resolve_left fun heq => h.2 (heq ▸ hold), h.2⟩⟩
    · rw [add_of_not_mem hold] at hfresh ⊢
      refine ⟨name :: fresh, by simp, List.nodup_cons.mpr ⟨by simp [hfresh], hnodup⟩,
        fun other => ?_⟩
      rw [List.mem_cons, hfresh, List.mem_cons]
      by_cases hsame : other = name
      · simp [hsame, hold]
      · simp [hsame]

theorem mem_foldl_add_iff {names : List String} {e : ImportEdits} (other : String) :
    other ∈ (names.foldl ImportEdits.add e).additions ↔ other ∈ e.additions ∨ other ∈ names := by
  obtain ⟨fresh, heq, -, hfresh⟩ := exists_foldl_add names e
  rw [heq, List.mem_append, hfresh]
  by_cases h : other ∈ e.additions <;> simp [h]

/-! ## Units before and after -/

theorem get_applyAll_cons (edit : CompilationUnit → String → Revision CompilationUnit)
    (u : CompilationUnit) (name : String) (rest : List String) :
    (ImportEdits.applyAll edit u (name :: rest)).get u =
      (ImportEdits.applyAll edit ((edit u name).get u) rest).get ((edit u name).get u) := by
  rw [ImportEdits.applyAll]
  cases edit u name <;> rfl

section Relation

variable {R : CompilationUnit → CompilationUnit → Prop} (hrefl : ∀ u, R u u)
  (htrans : ∀ {u v w}, R u v → R v w → R u w)

include hrefl htrans

theorem applyAll_rel {edit : CompilationUnit → String → Revision CompilationUnit}
    {names : List String} (h : ∀ u, ∀ name ∈ names, R u ((edit u name).get u))
    (u : CompilationUnit) : R u ((ImportEdits.applyAll edit u names).get u) := by
  induction names generalizing u with
  | nil => exact hrefl u
  | cons name rest ih =>
    have hedit := h u name List.mem_cons_self
    have hrest := ih fun v name hname => h v name (List.mem_cons_of_mem _ hname)
    unfold ImportEdits.applyAll
    cases hname : edit u name with
    | kept => exact hrest u
    | replaced new =>
      rw [hname] at hedit
      exact htrans hedit (hrest new)

/-- What holds between a unit before and after each of some import edits holds before and after all
of them. -/
theorem apply_rel {e : ImportEdits}
    (hadd : ∀ u, ∀ name ∈ e.additions, R u ((addImport u name).get u))
    (hremove : ∀ u, ∀ name ∈ e.removals, R u ((removeImport u name).get u))
    (u : CompilationUnit) : R u ((e.apply u).get u) := by
  rw [get_apply]
  exact htrans (applyAll_rel hrefl htrans hadd u) (applyAll_rel hrefl htrans hremove _)

end Relation

/-- Import edits keep the types, line breaks in front of the first one apart. -/
theorem shifted_apply (e : ImportEdits) (u : CompilationUnit) :
    Shifted u.types ((e.apply u).get u).types :=
  apply_rel (R := fun u v => Shifted u.types v.types) (fun _ => .refl _) .trans
    (fun u name _ => shifted_addImport u name) (fun u name _ => shifted_removeImport u name) u

theorem sameFrame_apply (e : ImportEdits) (u : CompilationUnit) :
    u.SameFrame ((e.apply u).get u) :=
  apply_rel (R := CompilationUnit.SameFrame) (fun _ => rfl) .trans
    (fun u name _ => sameFrame_addImport u name) (fun u name _ => sameFrame_removeImport u name) u

end JavaMigration.Edit
