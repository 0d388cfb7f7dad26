import JavaMigration.Proofs.Source.Bare
import JavaMigration.Source.Piece

/-!
# What a tree declares

All variables and all types of a tree, at whatever depth, and the induction over statements by
which they are reasoned about: through the bodies of types and methods, and along the list.
-/

namespace JavaMigration.Source

/-! ## Induction -/

section Induction

variable {motive : List Statement → Prop} (nil : motive [])
  (type : ∀ d rest, motive d.body.statements → motive rest → motive (.type d :: rest))
  (method : ∀ d b rest, d.body = some b → motive b.statements → motive rest →
    motive (.method d :: rest))
  (signature : ∀ d rest, d.body = none → motive rest → motive (.method d :: rest))
  (vars : ∀ d rest, motive rest → motive (.vars d :: rest))
  (call : ∀ c rest, motive rest → motive (.call c :: rest))
  (raw : ∀ r rest, motive rest → motive (.raw r :: rest))

include nil type method signature vars call raw

/-- Induction over statements and, within each type and each method, over those in its body. -/
theorem statements_induction : ∀ ss : List Statement, motive ss
  | [] => nil
  | .type ⟨_, _, _, _, _, _, _, _, ⟨_, statements, _⟩, _⟩ :: rest =>
    type _ rest (statements_induction statements) (statements_induction rest)
  | .method ⟨_, _, _, _, _, _, _, _, some ⟨_, statements, _⟩, _⟩ :: rest =>
    method _ _ rest rfl (statements_induction statements) (statements_induction rest)
  | .method ⟨_, _, _, _, _, _, _, _, none, _⟩ :: rest =>
    signature _ rest rfl (statements_induction rest)
  | .vars d :: rest => vars d rest (statements_induction rest)
  | .call c :: rest => call c rest (statements_induction rest)
  | .raw r :: rest => raw r rest (statements_induction rest)

end Induction

/-! ## Variables -/

mutual

/-- The variables declared in a statement at any depth, in source order. -/
def Statement.allVars : Statement → List VariableDecl
  | .type d => d.allVars
  | .method d => d.allVars
  | .vars d => [d]
  | .call _ => []
  | .raw _ => []

def TypeDecl.allVars : TypeDecl → List VariableDecl
  | ⟨_, _, _, _, _, _, _, _, body, _⟩ => body.allVars

def MethodDecl.allVars : MethodDecl → List VariableDecl
  | ⟨_, _, _, _, _, _, _, _, body, _⟩ =>
    match body with
    | some body => body.allVars
    | none => []

def Block.allVars : Block → List VariableDecl
  | ⟨_, statements, _⟩ => allVarsOf statements

def allVarsOf : List Statement → List VariableDecl
  | [] => []
  | s :: r => s.allVars ++ allVarsOf r

end

@[simp] theorem allVarsOf_nil : allVarsOf [] = [] := rfl

@[simp] theorem allVarsOf_cons (s : Statement) (rest : List Statement) :
    allVarsOf (s :: rest) = s.allVars ++ allVarsOf rest := rfl

theorem allVarsOf_append (ss ts : List Statement) :
    allVarsOf (ss ++ ts) = allVarsOf ss ++ allVarsOf ts := by
  induction ss with
  | nil => rfl
  | cons s ss ih => rw [List.cons_append, allVarsOf_cons, allVarsOf_cons, ih, List.append_assoc]

theorem mem_allVarsOf_iff {ss : List Statement} {d : VariableDecl} :
    d ∈ allVarsOf ss ↔ ∃ s ∈ ss, d ∈ s.allVars := by
  induction ss with
  | nil => simp
  | cons s ss ih => simp [ih]

@[simp] theorem Statement.allVars_type (d : TypeDecl) :
    (Statement.type d).allVars = allVarsOf d.body.statements := by
  cases d with
  | mk _ _ _ _ _ _ _ _ body _ => cases body; rfl

theorem Statement.allVars_method {d : MethodDecl} {b : Block} (h : d.body = some b) :
    (Statement.method d).allVars = allVarsOf b.statements := by
  cases d; subst h; cases b; rfl

theorem Statement.allVars_signature {d : MethodDecl} (h : d.body = none) :
    (Statement.method d).allVars = [] := by
  cases d; subst h; rfl

/-! ## Pieces -/

theorem TypeDecl.pieces_eq (d : TypeDecl) :
    d.pieces = leadingPieces d.annotations d.modifiers ++
      .identifier d.name :: .text d.header :: piecesOf d.body.statements := by
  cases d with
  | mk _ _ _ _ _ _ _ _ body _ => cases body; rfl

theorem MethodDecl.pieces_of_some {d : MethodDecl} {b : Block} (h : d.body = some b) :
    d.pieces = leadingPieces d.annotations d.modifiers ++
      [.identifier d.returnType, .identifier d.name, .text d.parameters] ++
      (d.throws.map (·.types)).toList.flatten.map .identifier ++ piecesOf b.statements := by
  cases d; subst h; cases b; rfl

theorem MethodDecl.pieces_of_none {d : MethodDecl} (h : d.body = none) :
    d.pieces = leadingPieces d.annotations d.modifiers ++
      [.identifier d.returnType, .identifier d.name, .text d.parameters] ++
      (d.throws.map (·.types)).toList.flatten.map .identifier := by
  cases d; subst h; exact List.append_nil _

/-- The space of a statement is in no piece. -/
theorem Statement.pieces_withLead (s : Statement) (lead : Space) :
    (s.withLead lead).pieces = s.pieces := by
  cases s with
  | type d => cases d; rfl
  | method d => cases d; rfl
  | vars d => rfl
  | call c => rfl
  | raw r => rfl

theorem piecesOf_append (ss ts : List Statement) :
    piecesOf (ss ++ ts) = piecesOf ss ++ piecesOf ts := by
  induction ss with
  | nil => rfl
  | cons s ss ih => rw [List.cons_append, piecesOf, piecesOf, ih, List.append_assoc]

/-- A search over a tree comes across every name and text of a declaration in it. -/
theorem pieces_subset_of_mem_allVarsOf {ss : List Statement} {d : VariableDecl}
    (h : d ∈ allVarsOf ss) : d.pieces ⊆ piecesOf ss := by
  induction ss using statements_induction with
  | nil => cases h
  | type e rest hbody hrest =>
    rw [allVarsOf_cons, Statement.allVars_type] at h
    rw [show piecesOf (.type e :: rest) = e.pieces ++ piecesOf rest from rfl, e.pieces_eq]
    rcases List.mem_append.mp h with h | h
    · intro p hp
      simp [hbody h hp]
    · exact List.subset_append_of_subset_right _ (hrest h)
  | method e b rest hb hbody hrest =>
    rw [allVarsOf_cons, Statement.allVars_method hb] at h
    rw [show piecesOf (.method e :: rest) = e.pieces ++ piecesOf rest from rfl,
      e.pieces_of_some hb]
    rcases List.mem_append.mp h with h | h
    · intro p hp
      simp [hbody h hp]
    · exact List.subset_append_of_subset_right _ (hrest h)
  | signature e rest hb hrest =>
    rw [allVarsOf_cons, Statement.allVars_signature hb] at h
    exact List.subset_append_of_subset_right _ (hrest h)
  | vars e rest hrest =>
    rcases List.mem_cons.mp h with rfl | h
    · exact List.subset_append_left _ _
    · exact List.subset_append_of_subset_right _ (hrest h)
  | call c rest hrest => exact List.subset_append_of_subset_right _ (hrest h)
  | raw r rest hrest => exact List.subset_append_of_subset_right _ (hrest h)

theorem VariableDecl.type_mem_pieces (d : VariableDecl) : .identifier d.type ∈ d.pieces := by
  unfold VariableDecl.pieces
  exact List.mem_append_right _ List.mem_cons_self

theorem VariableDecl.annotation_mem_pieces {d : VariableDecl} {a : Annotation}
    (h : a ∈ d.annotations) : .identifier a.name ∈ d.pieces := by
  unfold VariableDecl.pieces leadingPieces
  refine List.mem_append_left _ (List.mem_append_left _ ?_)
  exact List.mem_flatMap.mpr ⟨a, h, List.mem_cons_self⟩

/-! ## Types -/

mutual

/-- The types in a statement at any depth, one inside another before that one. -/
def Statement.allTypes : Statement → List TypeDecl
  | .type d => d.allTypes
  | .method d => d.allTypes
  | .vars _ => []
  | .call _ => []
  | .raw _ => []

def TypeDecl.allTypes : TypeDecl → List TypeDecl
  | ⟨id, lead, annotations, modifiers, kind, kindLead, name, header, body, type⟩ =>
    body.allTypes ++
      [⟨id, lead, annotations, modifiers, kind, kindLead, name, header, body, type⟩]

def MethodDecl.allTypes : MethodDecl → List TypeDecl
  | ⟨_, _, _, _, _, _, _, _, body, _⟩ =>
    match body with
    | some body => body.allTypes
    | none => []

def Block.allTypes : Block → List TypeDecl
  | ⟨_, statements, _⟩ => allTypesOf statements

def allTypesOf : List Statement → List TypeDecl
  | [] => []
  | s :: r => s.allTypes ++ allTypesOf r

end

@[simp] theorem allTypesOf_nil : allTypesOf [] = [] := rfl

@[simp] theorem allTypesOf_cons (s : Statement) (rest : List Statement) :
    allTypesOf (s :: rest) = s.allTypes ++ allTypesOf rest := rfl

theorem allTypesOf_append (ss ts : List Statement) :
    allTypesOf (ss ++ ts) = allTypesOf ss ++ allTypesOf ts := by
  induction ss with
  | nil => rfl
  | cons s ss ih => rw [List.cons_append, allTypesOf_cons, allTypesOf_cons, ih, List.append_assoc]

@[simp] theorem Statement.allTypes_type (d : TypeDecl) :
    (Statement.type d).allTypes = allTypesOf d.body.statements ++ [d] := by
  cases d with
  | mk _ _ _ _ _ _ _ _ body _ => cases body; rfl

theorem Statement.allTypes_method {d : MethodDecl} {b : Block} (h : d.body = some b) :
    (Statement.method d).allTypes = allTypesOf b.statements := by
  cases d; subst h; cases b; rfl

theorem Statement.allTypes_signature {d : MethodDecl} (h : d.body = none) :
    (Statement.method d).allTypes = [] := by
  cases d; subst h; rfl

/-! ## Declarations without annotations -/

theorem allVarsOf_bareAll (ss : List Statement) :
    allVarsOf (bareAll ss) = (allVarsOf ss).map VariableDecl.bare := by
  induction ss using statements_induction with
  | nil => rfl
  | type d rest hbody hrest =>
    have hbare : d.bare.body.statements = bareAll d.body.statements := by
      rw [TypeDecl.bare_eq, Block.bare_eq, bareAll_eq_map]
    rw [bareAll, Statement.bare, allVarsOf_cons, allVarsOf_cons, Statement.allVars_type,
      Statement.allVars_type, hbare, hbody, hrest, List.map_append]
  | method d b rest hb hbody hrest =>
    have hbare : d.bare.body = some b.bare := by rw [MethodDecl.bare_eq, hb, Option.map_some]
    rw [bareAll, Statement.bare, allVarsOf_cons, allVarsOf_cons, Statement.allVars_method hbare,
      Statement.allVars_method hb, Block.bare_eq, ← bareAll_eq_map, hbody, hrest, List.map_append]
  | signature d rest hb hrest =>
    have hbare : d.bare.body = none := by rw [MethodDecl.bare_eq, hb, Option.map_none]
    rw [bareAll, Statement.bare, allVarsOf_cons, allVarsOf_cons,
      Statement.allVars_signature hbare, Statement.allVars_signature hb, hrest, List.map_append,
      List.map_nil]
  | vars d rest hrest => exact congrArg (d.bare :: ·) hrest
  | call c rest hrest => exact hrest
  | raw r rest hrest => exact hrest

/-- No variable declared in the statements has an annotation in front. -/
def Unannotated (ss : List Statement) : Prop := ∀ d ∈ allVarsOf ss, d.annotations = []

/-- The same code, laid out otherwise, has the same annotations. -/
theorem Unannotated.of_bare_eq {ss ts : List Statement} (h : Unannotated ss)
    (hbare : ts.map Statement.bare = ss.map Statement.bare) : Unannotated ts := by
  have hvars : (allVarsOf ts).map VariableDecl.bare = (allVarsOf ss).map VariableDecl.bare := by
    rw [← allVarsOf_bareAll, ← allVarsOf_bareAll, bareAll_eq_map, bareAll_eq_map, hbare]
  intro d hd
  have hmem : d.bare ∈ (allVarsOf ss).map VariableDecl.bare := hvars ▸ List.mem_map_of_mem hd
  obtain ⟨e, he, heq⟩ := List.mem_map.mp hmem
  have hannotations : d.annotations.map Annotation.bare = e.annotations.map Annotation.bare :=
    (congrArg VariableDecl.annotations heq).symm
  rw [h e he] at hannotations
  exact List.map_eq_nil_iff.mp hannotations

end JavaMigration.Source
