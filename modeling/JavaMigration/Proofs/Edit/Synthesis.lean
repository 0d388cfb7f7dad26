import Mathlib.Data.List.Nodup
import JavaMigration.Edit.Template
import JavaMigration.Proofs.Source.Bare
import JavaMigration.Proofs.Source.Mailbox

/-!
# What applying a template does

A block gets statements at its end, laid out somehow, and keeps those it had (`ExtendedBy`). From
this follows, kind by kind, what a successful application gives. Of the cursor only the path
matters, never the mail.
-/

namespace JavaMigration.Source

/-! ## Blocks that grow -/

/-- The block with the code of some statements behind its own, which are the same ones as
before. The new ones have identities of their own; their spaces and the one before the closing
brace are open. -/
def Block.ExtendedBy (before : Block) (new : List Statement) (after : Block) : Prop :=
  ∃ added close, after = { before with statements := before.statements ++ added, close } ∧
    added.map Statement.bare = new.map Statement.bare ∧
    (∀ s ∈ added, s.id ∉ before.ids) ∧ (added.map Statement.id).Nodup

/-- The space before the closing brace is the old one, unless that had no line break. -/
def Block.ClosesLike (before after : Block) : Prop :=
  after.close = before.close ∨ before.close.hasNewline = false

theorem lt_foldl_max (ids : List Nat) (n : Nat) :
    n ≤ ids.foldl (fun n i => max n (i + 1)) n ∧
      ∀ i ∈ ids, i < ids.foldl (fun n i => max n (i + 1)) n := by
  induction ids generalizing n with
  | nil => simp
  | cons j ids ih =>
    obtain ⟨hle, hlt⟩ := ih (max n (j + 1))
    rw [List.foldl_cons]
    refine ⟨by omega, fun i hi => ?_⟩
    rcases List.mem_cons.mp hi with rfl | hi
    · omega
    · exact hlt i hi

theorem Block.lt_freshId {b : Block} {i : StatementId} (h : i ∈ b.ids) : i < b.freshId :=
  (lt_foldl_max b.ids 0).2 i h

/-- New statements have identities that the block has not used. -/
theorem Block.mem_withIds {b : Block} {new : List Statement} {s : Statement}
    (h : s ∈ new.mapIdx fun i s => s.withId (b.freshId + i)) :
    (∃ t ∈ new, ∃ id, s = t.withId id) ∧ s.id ∉ b.ids := by
  obtain ⟨i, hi, rfl⟩ := List.mem_mapIdx.mp h
  refine ⟨⟨_, List.getElem_mem hi, _, rfl⟩, fun hold => ?_⟩
  rw [Statement.id_withId] at hold
  exact absurd (lt_freshId hold) (Nat.not_lt.mpr (Nat.le_add_right _ i))

theorem Block.mem_append {b : Block} {new : List Statement} {s : Statement}
    (h : s ∈ (b.append new).statements) :
    (s ∈ b.statements ∧ s.id ∈ b.ids) ∨ ((∃ t ∈ new, ∃ id, s = t.withId id) ∧ s.id ∉ b.ids) := by
  rcases List.mem_append.mp h with h | h
  · exact .inl ⟨h, List.mem_map_of_mem h⟩
  · exact .inr (mem_withIds h)

theorem Block.extendedBy_append (b : Block) (new : List Statement) :
    b.ExtendedBy new (b.append new) := by
  refine ⟨_, b.close, rfl, map_mapIdx_of_eq (fun i s => Statement.bare_withId s _) new, ?_, ?_⟩
  · exact fun s hs => (mem_withIds hs).2
  · rw [List.nodup_iff_getElem?_ne_getElem?]
    intro i j hij hj
    simp only [List.length_map, List.length_mapIdx] at hj
    simp only [List.getElem?_map, List.getElem?_mapIdx, List.getElem?_eq_getElem hj,
      List.getElem?_eq_getElem (Nat.lt_trans hij hj), Option.map_some, Statement.id_withId]
    intro h
    have := Nat.add_left_cancel (Option.some.inj h)
    omega

end JavaMigration.Source

namespace JavaMigration.Edit

open Java Source

namespace Layout

/-! ## Layout changes spaces only -/

theorem bare_layMethod (d : MethodDecl) (indent step nl : String) :
    (layMethod d indent step nl).bare = d.bare := by
  have hbody : ∀ (lead close inner : Space) (b : Block),
      (⟨lead, b.statements.map (·.withLead inner), close⟩ : Block).bare = b.bare := by
    intro lead close inner b
    simp [Block.bare_eq, List.map_map, Function.comp_def]
  rw [MethodDecl.bare_eq, MethodDecl.bare_eq]
  simp only [layMethod, MethodDecl.mk.injEq, true_and, and_true]
  refine ⟨?_, ?_, Identifier.bare_lead _ _, Identifier.bare_lead _ _, ?_, ?_⟩
  · exact map_mapIdx_of_eq (fun _ a => Annotation.bare_lead a _) d.annotations
  · exact map_mapIdx_of_eq (fun _ m => Modifier.bare_lead m _) d.modifiers
  · cases d.throws with
    | none => rfl
    | some t => simp [Throws.bare, List.map_map, Function.comp_def]
  · cases d.body with
    | none => rfl
    | some b => exact congrArg some (hbody _ _ _ b)

theorem bare_layStatement (members : Bool) (indent step nl : String) (index : Nat)
    (s : Statement) : (layStatement members indent step nl index s).bare = s.bare := by
  cases s with
  | method d =>
    have hlead : ∀ (e : MethodDecl) (lead : Space), ({ e with lead } : MethodDecl).bare = e.bare :=
      fun e lead => by rw [MethodDecl.bare_eq, MethodDecl.bare_eq]
    exact congrArg Statement.method ((hlead _ _).trans (bare_layMethod d indent step nl))
  | type d => cases d; rfl
  | vars d => rfl
  | call c => rfl
  | raw r => rfl

theorem id_layStatement (members : Bool) (indent step nl : String) (index : Nat)
    (s : Statement) : (layStatement members indent step nl index s).id = s.id := by
  cases s <;> rfl

theorem layBlock_self (b : Block) (owner : String) (members : Bool) (nl : String) :
    layBlock b b owner members nl = b := by
  unfold layBlock
  rw [if_pos]
  rw [List.all_eq_true]
  intro s hs
  exact List.contains_iff_mem.mpr (List.mem_map_of_mem hs)

/-- Laying a block out leaves it an extension of the same block by the same code. -/
theorem extendedBy_layBlock {before after : Block} {new : List Statement}
    (h : before.ExtendedBy new after) (owner : String) (members : Bool) (nl : String) :
    before.ExtendedBy new (layBlock before after owner members nl) := by
  obtain ⟨added, close, rfl, hbare, hfresh, hnodup⟩ := h
  unfold layBlock
  extract_lets isOld indent step
  split
  · exact ⟨added, close, rfl, hbare, hfresh, hnodup⟩
  · have hold : ∀ s ∈ before.statements, isOld s = true := fun s hs =>
      List.contains_iff_mem.mpr (List.mem_map_of_mem hs)
    have hnew : ∀ s ∈ added, isOld s = false := fun s hs => by
      simpa [isOld] using hfresh s hs
    let lay : Nat → Statement → Statement := fun i s =>
      if isOld s then s else layStatement members indent step nl i s
    have hlayBare : ∀ i s, (lay i s).bare = s.bare := fun i s => by
      unfold lay
      split
      · rfl
      · exact bare_layStatement members indent step nl i s
    have hlayId : ∀ i s, (lay i s).id = s.id := fun i s => by
      unfold lay
      split
      · rfl
      · exact id_layStatement members indent step nl i s
    have hkeep : before.statements.mapIdx lay = before.statements := by
      refine List.ext_getElem (by simp) fun i h₁ h₂ => ?_
      rw [List.getElem_mapIdx]
      exact if_pos (hold _ (List.getElem_mem h₂))
    refine ⟨added.mapIdx fun i => lay (i + before.statements.length),
      if !close.hasNewline && !(before.statements ++ added).isEmpty then ⟨nl ++ owner⟩ else close,
      ?_, ?_, ?_, ?_⟩
    · simp only [Block.mk.injEq, and_true, true_and]
      rw [show (fun i s => if isOld s = true then s else layStatement members indent step nl i s)
        = lay from rfl, List.mapIdx_append, hkeep]
    · rw [map_mapIdx_of_eq (fun i s => hlayBare _ s), hbare]
    · intro s hs
      obtain ⟨i, hi, rfl⟩ := List.mem_mapIdx.mp hs
      rw [hlayId]
      exact hfresh _ (List.getElem_mem hi)
    · rw [map_mapIdx_of_eq (fun i s => hlayId _ s)]
      exact hnodup

theorem closesLike_layBlock (before after : Block) (owner : String) (members : Bool) (nl : String) :
    after.ClosesLike (layBlock before after owner members nl) := by
  unfold layBlock
  extract_lets isOld indent step
  split
  · exact .inl rfl
  · by_cases hline : after.close.hasNewline
    · left
      simp [hline]
    · exact .inr (Bool.eq_false_iff.mpr hline)

variable {μ : Type}

/-- The block with statements behind its own, laid out. -/
def extend (l : Layout) (b : Block) (new : List Statement) (owner : String) (members : Bool)
    (nl : String) : Block :=
  match l with
  | indented => layBlock b (b.append new) owner members nl
  | verbatim => b.append new

theorem extendedBy_extend (l : Layout) (b : Block) (new : List Statement) (owner : String)
    (members : Bool) (nl : String) : b.ExtendedBy new (l.extend b new owner members nl) := by
  cases l with
  | verbatim => exact b.extendedBy_append new
  | indented => exact extendedBy_layBlock (b.extendedBy_append new) owner members nl

theorem closesLike_extend (l : Layout) (b : Block) (new : List Statement) (owner : String)
    (members : Bool) (nl : String) : b.ClosesLike (l.extend b new owner members nl) := by
  cases l with
  | verbatim => exact .inl rfl
  | indented => exact closesLike_layBlock b (b.append new) owner members nl

/-- The body of the type at a cursor with statements behind its own. -/
def typeBody (l : Layout) (d : TypeDecl) (new : List Statement) (c : Cursor μ) : Block :=
  l.extend d.body new (ownerIndent d.lead c) true (enclosingLineEnding (.type d) c)

/-- The body of the method at a cursor with statements behind its own. -/
def methodBody (l : Layout) (d : MethodDecl) (b : Block) (new : List Statement) (c : Cursor μ) :
    Block :=
  l.extend b new (ownerIndent d.lead c) false (enclosingLineEnding (.method d) c)

theorem apply_type (l : Layout) (d : TypeDecl) (new : List Statement) (c : Cursor μ) :
    l.apply (.type d) (.type { d with body := d.body.append new }) c =
      .type { d with body := l.typeBody d new c } := by
  cases l <;> rfl

theorem apply_method (l : Layout) {d : MethodDecl} {b : Block} (hb : d.body = some b)
    (new : List Statement) (c : Cursor μ) :
    l.apply (.method d) (.method { d with body := some (b.append new) }) c =
      .method { d with body := some (l.methodBody d b new c) } := by
  cases l with
  | verbatim => rfl
  | indented =>
    simp only [apply, Layout.indent, hb]
    rfl

theorem apply_throws (l : Layout) (d : MethodDecl) (throws : Throws) (c : Cursor μ) :
    l.apply (.method d) (.method { d with throws := some throws }) c =
      .method { d with throws := some throws } := by
  cases l with
  | verbatim => rfl
  | indented =>
    simp only [apply, Layout.indent]
    cases hb : d.body with
    | none => rfl
    | some b => simp only [layBlock_self]

end Layout

namespace Template

variable {μ ν : Type}

/-! ## Applying -/

/-- Only the path of a cursor counts. -/
theorem apply_congr (t : Template) {c : Cursor μ} {c' : Cursor ν} (h : c.path = c'.path)
    (slot : Slot) (arguments : List Node) :
    t.apply c slot arguments = t.apply c' slot arguments := by
  have hnode : c.node? = c'.node? := by rw [Cursor.node?_eq, Cursor.node?_eq, h]
  have hparent : c.parent? = c'.parent? := by rw [Cursor.parent?_eq, Cursor.parent?_eq, h]
  have hinsert : ∀ target, t.insert? c slot target arguments =
      t.insert? c' slot target arguments := by
    intro target
    unfold insert?
    rw [hparent]
  have hlay : ∀ before after, t.layout.apply before after c = t.layout.apply before after c' := by
    intro before after
    unfold Layout.apply Layout.indent Layout.enclosingLineEnding Layout.ownerIndent
    rw [hparent, h]
  unfold apply
  rw [hnode]
  cases c'.node? with
  | none => rfl
  | some target => simp only [hinsert, hlay]

/-- The checks in their order. -/
theorem apply_eq (t : Template) (c : Cursor μ) (slot : Slot) (arguments : List Node) :
    t.apply c slot arguments =
      match c.node? with
      | none => .error .noTarget
      | some target =>
        match t.checkArguments arguments with
        | .error fault => .error fault
        | .ok () =>
          match t.insert? c slot target arguments with
          | some after => .ok (t.layout.apply target after c)
          | none => .error (.misfit t.shape slot target.kind) := by
  unfold apply
  cases c.node? with
  | none => rfl
  | some target =>
    cases hargs : t.checkArguments arguments with
    | error fault => simp [bind, Except.bind]
    | ok u =>
      cases hnew : t.insert? c slot target arguments <;>
        simp [hnew, bind, Except.bind, pure, Except.pure, throw, throwThe,
          MonadExceptOf.throw]

/-- What is applied fits and is laid out. -/
theorem apply_ok {t : Template} {c : Cursor μ} {slot : Slot} {target node : Node}
    {arguments : List Node} (hnode : c.path.head? = some target)
    (h : t.apply c slot arguments = .ok node) :
    ∃ after, t.insert? c slot target arguments = some after ∧
      node = t.layout.apply target after c := by
  rw [apply_eq, Cursor.node?_eq, hnode] at h
  dsimp only at h
  split at h
  · cases h
  · split at h
    · next after hafter => exact ⟨after, hafter, (Except.ok.inj h).symm⟩
    · cases h

/-- A template of members goes behind the members of a type. -/
theorem apply_type_eq {t : Template} {c : Cursor μ} {d : TypeDecl} {arguments : List Node}
    {node : Node} (hnode : c.path.head? = some (.type d))
    (h : t.apply c .last arguments = .ok node) :
    ∃ new, t.asMembers? arguments = some new ∧
      node = .type { d with body := t.layout.typeBody d new c } := by
  obtain ⟨after, hafter, rfl⟩ := apply_ok hnode h
  obtain ⟨new, hnew, hafter⟩ := Option.bind_eq_some_iff.mp hafter
  cases hafter
  exact ⟨new, hnew, t.layout.apply_type d new c⟩

/-- The members of the type are behind its own. -/
theorem apply_type_ok {t : Template} {c : Cursor μ} {d : TypeDecl} {arguments : List Node}
    {node : Node} (hnode : c.path.head? = some (.type d))
    (h : t.apply c .last arguments = .ok node) :
    ∃ new body, t.asMembers? arguments = some new ∧ d.body.ExtendedBy new body ∧
      d.body.ClosesLike body ∧ node = .type { d with body } := by
  obtain ⟨new, hnew, rfl⟩ := apply_type_eq hnode h
  exact ⟨new, _, hnew, Layout.extendedBy_extend _ _ _ _ _ _, Layout.closesLike_extend _ _ _ _ _ _,
    rfl⟩

/-- A template of statements goes behind the statements of a method with a body. -/
theorem apply_method_eq {t : Template} {c : Cursor μ} {d : MethodDecl} {arguments : List Node}
    {node : Node} (hnode : c.path.head? = some (.method d))
    (h : t.apply c .last arguments = .ok node) :
    ∃ b new, d.body = some b ∧ t.asStatements? arguments = some new ∧
      node = .method { d with body := some (t.layout.methodBody d b new c) } := by
  obtain ⟨after, hafter, rfl⟩ := apply_ok hnode h
  obtain ⟨b, hb, hafter⟩ := Option.bind_eq_some_iff.mp hafter
  obtain ⟨new, hnew, hafter⟩ := Option.bind_eq_some_iff.mp hafter
  cases hafter
  exact ⟨b, new, hb, hnew, t.layout.apply_method hb new c⟩

theorem apply_method_ok {t : Template} {c : Cursor μ} {d : MethodDecl} {arguments : List Node}
    {node : Node} (hnode : c.path.head? = some (.method d))
    (h : t.apply c .last arguments = .ok node) :
    ∃ b new body, d.body = some b ∧ t.asStatements? arguments = some new ∧
      b.ExtendedBy new body ∧ b.ClosesLike body ∧ node = .method { d with body := some body } := by
  obtain ⟨b, new, hb, hnew, rfl⟩ := apply_method_eq hnode h
  exact ⟨b, new, _, hb, hnew, Layout.extendedBy_extend _ _ _ _ _ _,
    Layout.closesLike_extend _ _ _ _ _ _, rfl⟩

/-- A type reference goes to the end of the `throws` clause of a method. -/
theorem apply_throws_ok {t : Template} {c : Cursor μ} {d : MethodDecl} {arguments : List Node}
    {node : Node} (hnode : c.path.head? = some (.method d))
    (h : t.apply c .throws arguments = .ok node) :
    ∃ type, t.shape = .typeReference type ∧
      node = .method { d with throws := some (addThrown d.throws type) } := by
  obtain ⟨after, hafter, rfl⟩ := apply_ok hnode h
  unfold insert? at hafter
  cases hshape : t.shape with
  | members ss => simp [hshape] at hafter
  | statements ss => simp [hshape] at hafter
  | typeReference type =>
    simp only [hshape] at hafter
    cases hafter
    exact ⟨type, rfl, Layout.apply_throws _ _ _ _⟩

end Template

end JavaMigration.Edit
