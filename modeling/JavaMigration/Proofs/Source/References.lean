import JavaMigration.Proofs.Source.Declared

/-!
# What a tree refers to

The types a tree names outside the text it keeps as written: as annotations, as the types of
variables and results and in `throws` clauses. Each knows what it resolved to when it was read.
-/

namespace JavaMigration.Source

open Java

/-- A type as it is named somewhere: the name as written, and what it resolved to. -/
structure Reference where
  name : String
  type : Option JavaType
  deriving DecidableEq, Repr, Inhabited

def Identifier.reference (i : Identifier) : Reference := ⟨i.name, i.type⟩

def annotationReferences (annotations : List Annotation) : List Reference :=
  annotations.map (·.name.reference)

def VariableDecl.references (d : VariableDecl) : List Reference :=
  annotationReferences d.annotations ++ [d.type.reference]

def thrownReferences (throws : Option Throws) : List Reference :=
  (throws.map (·.types)).toList.flatten.map Identifier.reference

mutual

/-- The types that a statement names at any depth, in source order. -/
def Statement.references : Statement → List Reference
  | .type d => d.references
  | .method d => d.references
  | .vars d => d.references
  | .call _ => []
  | .raw _ => []

def TypeDecl.references : TypeDecl → List Reference
  | ⟨_, _, annotations, _, _, _, _, _, body, _⟩ =>
    annotationReferences annotations ++ body.references

def MethodDecl.references : MethodDecl → List Reference
  | ⟨_, _, annotations, _, returnType, _, _, throws, body, _⟩ =>
    annotationReferences annotations ++ returnType.reference :: thrownReferences throws ++
      match body with
      | some body => body.references
      | none => []

def Block.references : Block → List Reference
  | ⟨_, statements, _⟩ => referencesOf statements

def referencesOf : List Statement → List Reference
  | [] => []
  | s :: r => s.references ++ referencesOf r

end

@[simp] theorem referencesOf_nil : referencesOf [] = [] := rfl

@[simp] theorem referencesOf_cons (s : Statement) (rest : List Statement) :
    referencesOf (s :: rest) = s.references ++ referencesOf rest := rfl

@[simp] theorem referencesOf_append (ss ts : List Statement) :
    referencesOf (ss ++ ts) = referencesOf ss ++ referencesOf ts := by
  induction ss with
  | nil => rfl
  | cons s ss ih =>
    rw [List.cons_append, referencesOf_cons, referencesOf_cons, ih, List.append_assoc]

theorem mem_referencesOf_iff {ss : List Statement} {ref : Reference} :
    ref ∈ referencesOf ss ↔ ∃ s ∈ ss, ref ∈ s.references := by
  induction ss with
  | nil => simp
  | cons s ss ih => simp [ih]

@[simp] theorem Statement.references_type (d : TypeDecl) :
    (Statement.type d).references =
      annotationReferences d.annotations ++ referencesOf d.body.statements := by
  cases d with
  | mk _ _ _ _ _ _ _ _ body _ => cases body; rfl

/-- The types that a method names in front of its body. -/
def MethodDecl.headReferences (d : MethodDecl) : List Reference :=
  annotationReferences d.annotations ++ d.returnType.reference :: thrownReferences d.throws

theorem Statement.references_method {d : MethodDecl} {b : Block} (h : d.body = some b) :
    (Statement.method d).references = d.headReferences ++ referencesOf b.statements := by
  cases d; subst h; cases b; rfl

theorem Statement.references_signature {d : MethodDecl} (h : d.body = none) :
    (Statement.method d).references = d.headReferences := by
  cases d; subst h; exact List.append_nil _

@[simp] theorem Statement.references_vars (d : VariableDecl) :
    (Statement.vars d).references = d.references := rfl

@[simp] theorem Statement.references_call (c : Call) : (Statement.call c).references = [] := rfl

@[simp] theorem Statement.references_raw (r : RawCode) : (Statement.raw r).references = [] := rfl

/-! ## Layout -/

theorem annotationReferences_bare (annotations : List Annotation) :
    annotationReferences (annotations.map Annotation.bare) = annotationReferences annotations := by
  unfold annotationReferences
  rw [List.map_map]
  rfl

theorem thrownReferences_bare (throws : Option Throws) :
    thrownReferences (throws.map Throws.bare) = thrownReferences throws := by
  cases throws with
  | none => rfl
  | some t => simp [thrownReferences, Throws.bare, Identifier.bare, Identifier.reference]

theorem VariableDecl.references_bare (d : VariableDecl) : d.bare.references = d.references := by
  unfold references
  rw [show d.bare.annotations = d.annotations.map Annotation.bare from rfl,
    annotationReferences_bare]
  rfl

theorem MethodDecl.headReferences_bare (d : MethodDecl) :
    d.bare.headReferences = d.headReferences := by
  rw [MethodDecl.bare_eq]
  unfold headReferences
  rw [annotationReferences_bare, thrownReferences_bare]
  rfl

theorem referencesOf_bareAll (ss : List Statement) :
    referencesOf (bareAll ss) = referencesOf ss := by
  induction ss using statements_induction with
  | nil => rfl
  | type d rest hbody hrest =>
    have hannotations : d.bare.annotations = d.annotations.map Annotation.bare := by
      rw [TypeDecl.bare_eq]
    have hbare : d.bare.body.statements = bareAll d.body.statements := by
      rw [TypeDecl.bare_eq, Block.bare_eq, bareAll_eq_map]
    rw [bareAll, Statement.bare, referencesOf_cons, referencesOf_cons, Statement.references_type,
      Statement.references_type, hannotations, annotationReferences_bare, hbare, hbody, hrest]
  | method d b rest hb hbody hrest =>
    have hbare : d.bare.body = some b.bare := by rw [MethodDecl.bare_eq, hb, Option.map_some]
    rw [bareAll, Statement.bare, referencesOf_cons, referencesOf_cons,
      Statement.references_method hbare, Statement.references_method hb,
      MethodDecl.headReferences_bare, Block.bare_eq, ← bareAll_eq_map, hbody, hrest]
  | signature d rest hb hrest =>
    have hbare : d.bare.body = none := by rw [MethodDecl.bare_eq, hb, Option.map_none]
    rw [bareAll, Statement.bare, referencesOf_cons, referencesOf_cons,
      Statement.references_signature hbare, Statement.references_signature hb,
      MethodDecl.headReferences_bare, hrest]
  | vars d rest hrest =>
    rw [bareAll, Statement.bare, referencesOf_cons, referencesOf_cons, Statement.references_vars,
      Statement.references_vars, VariableDecl.references_bare, hrest]
  | call c rest hrest => exact hrest
  | raw r rest hrest => exact hrest

/-- The same code, laid out otherwise, refers to the same types. -/
theorem referencesOf_of_bare_eq {ss ts : List Statement}
    (h : ts.map Statement.bare = ss.map Statement.bare) : referencesOf ts = referencesOf ss := by
  rw [← referencesOf_bareAll ts, ← referencesOf_bareAll ss, bareAll_eq_map, bareAll_eq_map, h]

@[simp] theorem Statement.references_withLead (s : Statement) (lead : Space) :
    (s.withLead lead).references = s.references := by
  have h : referencesOf [s.withLead lead] = referencesOf [s] := referencesOf_of_bare_eq (by simp)
  simpa using h

/-! ## References as pieces -/

/-- The type that a piece names, if it is a name. -/
def Piece.reference? : Piece → Option Reference
  | .identifier i => some i.reference
  | _ => none

theorem append_subset_append {α : Type} {as bs as' bs' : List α} (h : as ⊆ as') (h' : bs ⊆ bs') :
    as ++ bs ⊆ as' ++ bs' :=
  List.append_subset.mpr
    ⟨List.subset_append_of_subset_left _ h, List.subset_append_of_subset_right _ h'⟩

theorem annotationReferences_subset (annotations : List Annotation) (modifiers : List Modifier) :
    annotationReferences annotations ⊆
      (leadingPieces annotations modifiers).filterMap Piece.reference? := by
  intro ref h
  obtain ⟨a, ha, rfl⟩ := List.mem_map.mp h
  refine List.mem_filterMap.mpr ⟨.identifier a.name, List.mem_append_left _ ?_, rfl⟩
  exact List.mem_flatMap.mpr ⟨a, ha, List.mem_cons_self⟩

/-- The pieces of a method in front of its body. -/
def MethodDecl.headPieces (d : MethodDecl) : List Piece :=
  leadingPieces d.annotations d.modifiers ++
    [.identifier d.returnType, .identifier d.name, .text d.parameters] ++
    (d.throws.map (·.types)).toList.flatten.map .identifier

theorem MethodDecl.headReferences_subset (d : MethodDecl) :
    d.headReferences ⊆ d.headPieces.filterMap Piece.reference? := by
  unfold headReferences headPieces
  rw [List.append_assoc, List.filterMap_append]
  refine append_subset_append (annotationReferences_subset _ _) (List.cons_subset.mpr ⟨?_, ?_⟩)
  · exact List.mem_cons_self
  · intro ref h
    obtain ⟨i, hi, rfl⟩ := List.mem_map.mp h
    refine List.mem_filterMap.mpr ⟨.identifier i, List.mem_append_right _ ?_, rfl⟩
    exact List.mem_map_of_mem hi

theorem MethodDecl.headPieces_of_none {d : MethodDecl} (h : d.body = none) :
    d.pieces = d.headPieces := by
  cases d; subst h; exact List.append_nil _

/-- A search over a tree comes across every name by which the tree refers to a type. -/
theorem referencesOf_subset (ss : List Statement) :
    referencesOf ss ⊆ (piecesOf ss).filterMap Piece.reference? := by
  induction ss using statements_induction with
  | nil => exact List.nil_subset _
  | type d rest hbody hrest =>
    rw [referencesOf_cons, show piecesOf (.type d :: rest) = d.pieces ++ piecesOf rest from rfl,
      List.filterMap_append, Statement.references_type, d.pieces_eq, List.filterMap_append]
    refine append_subset_append ?_ hrest
    exact append_subset_append (annotationReferences_subset _ _)
      (List.subset_cons_of_subset _ hbody)
  | method d b rest hb hbody hrest =>
    rw [referencesOf_cons, show piecesOf (.method d :: rest) = d.pieces ++ piecesOf rest from rfl,
      List.filterMap_append, Statement.references_method hb, MethodDecl.pieces_of_some hb,
      List.filterMap_append]
    exact append_subset_append (append_subset_append d.headReferences_subset hbody) hrest
  | signature d rest hb hrest =>
    rw [referencesOf_cons, show piecesOf (.method d :: rest) = d.pieces ++ piecesOf rest from rfl,
      List.filterMap_append, Statement.references_signature hb, MethodDecl.headPieces_of_none hb]
    exact append_subset_append d.headReferences_subset hrest
  | vars d rest hrest =>
    rw [referencesOf_cons, show piecesOf (.vars d :: rest) = d.pieces ++ piecesOf rest from rfl,
      List.filterMap_append, Statement.references_vars, VariableDecl.references,
      VariableDecl.pieces, List.filterMap_append]
    refine append_subset_append (append_subset_append (annotationReferences_subset _ _) ?_) hrest
    exact List.cons_subset.mpr ⟨List.mem_cons_self, List.nil_subset _⟩
  | call c rest hrest =>
    rw [show piecesOf (.call c :: rest) = c.pieces ++ piecesOf rest from rfl, List.filterMap_append]
    exact List.subset_append_of_subset_right _ hrest
  | raw r rest hrest => exact hrest

end JavaMigration.Source
