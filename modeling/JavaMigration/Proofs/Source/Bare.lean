import JavaMigration.Source.Basic

/-!
# Code without its layout

A statement without identities and without spaces. Two statements that are bare the same are the
same code, laid out in two ways.
-/

namespace JavaMigration.Source

def Identifier.bare (i : Identifier) : Identifier := { i with lead := .empty }

def Annotation.bare (a : Annotation) : Annotation := { a with lead := .empty, name := a.name.bare }

def Modifier.bare (m : Modifier) : Modifier := { m with lead := .empty }

def Declarator.bare (d : Declarator) : Declarator := { d with lead := .empty, name := d.name.bare }

def VariableDecl.bare (d : VariableDecl) : VariableDecl where
  id := 0
  lead := .empty
  annotations := d.annotations.map Annotation.bare
  modifiers := d.modifiers.map Modifier.bare
  type := d.type.bare
  declarators := d.declarators.map Declarator.bare
  close := .empty

def Receiver.bare : Receiver → Receiver
  | .name ident => .name ident.bare
  | .raw _ text => .raw .empty text

def Call.bare (c : Call) : Call where
  id := 0
  lead := .empty
  receiver := c.receiver.map Receiver.bare
  dot := .empty
  name := c.name.bare
  arguments := c.arguments
  close := .empty

def RawCode.bare (r : RawCode) : RawCode := ⟨0, .empty, r.text⟩

def Throws.bare (t : Throws) : Throws := ⟨.empty, t.types.map Identifier.bare⟩

mutual

def Statement.bare : Statement → Statement
  | .type d => .type d.bare
  | .method d => .method d.bare
  | .vars d => .vars d.bare
  | .call c => .call c.bare
  | .raw r => .raw r.bare

def TypeDecl.bare : TypeDecl → TypeDecl
  | ⟨_, _, annotations, modifiers, kind, _, name, header, body, type⟩ =>
    ⟨0, .empty, annotations.map Annotation.bare, modifiers.map Modifier.bare, kind, .empty,
      name.bare, header, body.bare, type⟩

def MethodDecl.bare : MethodDecl → MethodDecl
  | ⟨_, _, annotations, modifiers, returnType, name, parameters, throws, body, _⟩ =>
    ⟨0, .empty, annotations.map Annotation.bare, modifiers.map Modifier.bare, returnType.bare,
      name.bare, parameters, throws.map Throws.bare,
      match body with
      | some body => some body.bare
      | none => none, .empty⟩

def Block.bare : Block → Block
  | ⟨_, statements, _⟩ => ⟨.empty, bareAll statements, .empty⟩

def bareAll : List Statement → List Statement
  | [] => []
  | s :: r => s.bare :: bareAll r

end

theorem bareAll_eq_map (ss : List Statement) : bareAll ss = ss.map Statement.bare := by
  induction ss with
  | nil => rfl
  | cons s ss ih => rw [bareAll, ih, List.map_cons]

theorem TypeDecl.bare_eq (d : TypeDecl) :
    d.bare = ⟨0, .empty, d.annotations.map Annotation.bare, d.modifiers.map Modifier.bare, d.kind,
      .empty, d.name.bare, d.header, d.body.bare, d.type⟩ := by
  cases d; rfl

theorem MethodDecl.bare_eq (d : MethodDecl) :
    d.bare = ⟨0, .empty, d.annotations.map Annotation.bare, d.modifiers.map Modifier.bare,
      d.returnType.bare, d.name.bare, d.parameters, d.throws.map Throws.bare,
      d.body.map Block.bare, .empty⟩ := by
  cases d with
  | mk _ _ _ _ _ _ _ _ body _ => cases body <;> rfl

theorem Block.bare_eq (b : Block) : b.bare = ⟨.empty, b.statements.map Statement.bare, .empty⟩ := by
  cases b with
  | mk lead statements close => rw [← bareAll_eq_map]; rfl

@[simp] theorem Identifier.bare_lead (i : Identifier) (lead : Space) :
    ({ i with lead } : Identifier).bare = i.bare := rfl

@[simp] theorem Annotation.bare_lead (a : Annotation) (lead : Space) :
    ({ a with lead } : Annotation).bare = a.bare := rfl

@[simp] theorem Modifier.bare_lead (m : Modifier) (lead : Space) :
    ({ m with lead } : Modifier).bare = m.bare := rfl

@[simp] theorem Statement.bare_withLead (s : Statement) (lead : Space) :
    (s.withLead lead).bare = s.bare := by
  cases s with
  | type d => cases d; rfl
  | method d => cases d; rfl
  | vars d => rfl
  | call c => rfl
  | raw r => rfl

@[simp] theorem Statement.bare_withId (s : Statement) (id : StatementId) :
    (s.withId id).bare = s.bare := by
  cases s with
  | type d => cases d; rfl
  | method d => cases d; rfl
  | vars d => rfl
  | call c => rfl
  | raw r => rfl

@[simp] theorem Statement.id_withId (s : Statement) (id : StatementId) : (s.withId id).id = id := by
  cases s <;> rfl

@[simp] theorem Statement.id_withLead (s : Statement) (lead : Space) : (s.withLead lead).id = s.id := by
  cases s <;> rfl

theorem Statement.withLead_lead (s : Statement) : s.withLead s.lead = s := by
  cases s with
  | type d => cases d; rfl
  | method d => cases d; rfl
  | vars d => rfl
  | call c => rfl
  | raw r => rfl

theorem Statement.lead_withLead (s : Statement) (lead : Space) : (s.withLead lead).lead = lead := by
  cases s <;> rfl

theorem Statement.withLead_withLead (s : Statement) (lead more : Space) :
    (s.withLead lead).withLead more = s.withLead more := by
  cases s <;> rfl

/-- Placing elements that keep a view keeps the view of the list. -/
theorem map_mapIdx_of_eq {α β : Type} {f : Nat → α → α} {g : α → β} (h : ∀ i a, g (f i a) = g a)
    (as : List α) : (as.mapIdx f).map g = as.map g := by
  apply List.ext_getElem
  · simp
  · intro i h₁ h₂
    simp [h]

end JavaMigration.Source
