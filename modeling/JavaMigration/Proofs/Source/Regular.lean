import JavaMigration.Source.Retype

/-!
# Regular trees

What holds of every tree that was read from source, and still holds when variables are given other
types: statements of a body differ in their identities, a variable declaration declares
something, methods do not stand in methods, and at top level there are only types and raw code.
-/

namespace JavaMigration.Source

open Java

def Statement.isMethod : Statement → Bool
  | .method _ => true
  | _ => false

/-- What may stand at top level. -/
def Statement.IsTopLevel : Statement → Prop
  | .type _ => True
  | .raw _ => True
  | _ => False

mutual

def Statement.Regular : Statement → Prop
  | .type d => d.Regular
  | .method d => d.Regular
  | .vars d => d.declarators ≠ []
  | .call _ => True
  | .raw _ => True

def TypeDecl.Regular : TypeDecl → Prop
  | ⟨_, _, _, _, _, _, _, _, body, _⟩ => body.Regular

def MethodDecl.Regular : MethodDecl → Prop
  | ⟨_, _, _, _, _, _, _, _, body, _⟩ =>
    match body with
    | some body => body.Regular ∧ ∀ s ∈ body.statements, s.isMethod = false
    | none => True

def Block.Regular : Block → Prop
  | ⟨_, statements, _⟩ => (statements.map Statement.id).Nodup ∧ AllRegular statements

def AllRegular : List Statement → Prop
  | [] => True
  | s :: r => s.Regular ∧ AllRegular r

end

structure CompilationUnit.Regular (u : CompilationUnit) : Prop where
  types : AllRegular u.types
  top : ∀ s ∈ u.types, s.IsTopLevel

theorem allRegular_iff {ss : List Statement} : AllRegular ss ↔ ∀ s ∈ ss, s.Regular := by
  induction ss with
  | nil => simp [AllRegular]
  | cons s ss ih => rw [AllRegular, ih, List.forall_mem_cons]

theorem TypeDecl.regular_iff {d : TypeDecl} : d.Regular ↔ d.body.Regular := by
  cases d; rfl

theorem Block.regular_iff {b : Block} :
    b.Regular ↔ b.ids.Nodup ∧ ∀ s ∈ b.statements, s.Regular := by
  rw [← allRegular_iff]
  cases b; rfl

theorem MethodDecl.regular_of_some {d : MethodDecl} {b : Block} (h : d.body = some b) :
    d.Regular ↔ b.Regular ∧ ∀ s ∈ b.statements, s.isMethod = false := by
  cases d; subst h; rfl

theorem Statement.Regular.withLead {s : Statement} (h : s.Regular) (lead : Space) :
    (s.withLead lead).Regular := by
  cases s with
  | type d => cases d; exact h
  | method d => cases d; exact h
  | vars d => exact h
  | call c => exact h
  | raw r => exact h

/-! ## Other types of variables -/

@[simp] theorem Statement.id_retype (f : Typing) (s : Statement) : (s.retype f).id = s.id := by
  cases s with
  | type d => cases d; rfl
  | method d => cases d; rfl
  | vars d => rfl
  | call c => rfl
  | raw r => rfl

@[simp] theorem Statement.isMethod_retype (f : Typing) (s : Statement) :
    (s.retype f).isMethod = s.isMethod := by
  cases s <;> rfl

theorem retypeAll_eq_map (f : Typing) (ss : List Statement) :
    retypeAll f ss = ss.map (·.retype f) := by
  induction ss with
  | nil => rfl
  | cons s ss ih => rw [retypeAll, ih, List.map_cons]

mutual

theorem Statement.Regular.retype (f : Typing) :
    ∀ {s : Statement}, s.Regular → (s.retype f).Regular
  | .type _, h => TypeDecl.Regular.retype f h
  | .method _, h => MethodDecl.Regular.retype f h
  | .vars d, h => by
    have hne : d.declarators ≠ [] := h
    exact fun hnil => hne (List.map_eq_nil_iff.mp hnil)
  | .call _, _ => trivial
  | .raw _, _ => trivial

theorem TypeDecl.Regular.retype (f : Typing) : ∀ {d : TypeDecl}, d.Regular → (d.retype f).Regular
  | ⟨_, _, _, _, _, _, _, _, _, _⟩, h => Block.Regular.retype f h

theorem MethodDecl.Regular.retype (f : Typing) :
    ∀ {d : MethodDecl}, d.Regular → (d.retype f).Regular
  | ⟨_, _, _, _, _, _, _, _, none, _⟩, _ => trivial
  | ⟨_, _, _, _, _, _, _, _, some ⟨lead, statements, close⟩, _⟩, h => by
    refine ⟨Block.Regular.retype f h.1, ?_⟩
    intro s hs
    rw [Block.retype, retypeAll_eq_map] at hs
    obtain ⟨t, ht, rfl⟩ := List.mem_map.mp hs
    rw [Statement.isMethod_retype]
    exact h.2 t ht

theorem Block.Regular.retype (f : Typing) : ∀ {b : Block}, b.Regular → (b.retype f).Regular
  | ⟨_, statements, _⟩, h => by
    refine ⟨?_, AllRegular.retype f h.2⟩
    have hids : (retypeAll f statements).map Statement.id = statements.map Statement.id := by
      rw [retypeAll_eq_map, List.map_map]
      exact List.map_congr_left fun s _ => Statement.id_retype f s
    rw [hids]
    exact h.1

theorem AllRegular.retype (f : Typing) :
    ∀ {ss : List Statement}, AllRegular ss → AllRegular (retypeAll f ss)
  | [], _ => trivial
  | _ :: _, h => ⟨Statement.Regular.retype f h.1, AllRegular.retype f h.2⟩

end

theorem CompilationUnit.Regular.retype (f : Typing) {u : CompilationUnit} (h : u.Regular) :
    (u.retype f).Regular := by
  refine ⟨h.types.retype f, ?_⟩
  intro s hs
  have htypes : (u.retype f).types = u.types.map (·.retype f) := retypeAll_eq_map f u.types
  rw [htypes] at hs
  obtain ⟨t, ht, rfl⟩ := List.mem_map.mp hs
  have htop := h.top t ht
  cases t <;> first | exact trivial | exact htop

end JavaMigration.Source
