import JavaMigration.Proofs.Recipe.Outcome
import JavaMigration.Proofs.Source.Declared

/-!
# Why a field cannot be closed

Whether a template can be applied depends on its arguments and on what kind of node it goes into,
not on where that node stands or how it is laid out. So the fault a type ends in can be told from
the type as it was before the visit (`failure?`).
-/

namespace JavaMigration.Edit

open Source

/-- The fault that an edit ends in, if it does. -/
def faultOf {α : Type} : Except ApplyFault α → Option ApplyFault
  | .ok _ => none
  | .error fault => some fault

namespace Template

variable {μ : Type} {c : Cursor μ}

/-- Why a template does not go into a slot of a kind of node, where `fits` says whether its shape
is the one that goes there. -/
def refusal? (t : Template) (slot : Slot) (kind : NodeKind) (arguments : List Node) (fits : Bool) :
    Option ApplyFault :=
  match t.checkArguments arguments with
  | .error fault => some fault
  | .ok () => if fits then none else some (.misfit t.shape slot kind)

def isTypeReference (t : Template) : Bool :=
  match t.shape with
  | .typeReference _ => true
  | _ => false

theorem faultOf_apply {target : Node} (hnode : c.path.head? = some target) (t : Template)
    (slot : Slot) (arguments : List Node) :
    faultOf (t.apply c slot arguments) =
      t.refusal? slot target.kind arguments (t.insert? c slot target arguments).isSome := by
  rw [apply_eq, Cursor.node?_eq, hnode, refusal?]
  dsimp only
  cases t.checkArguments arguments with
  | error fault => rfl
  | ok u => cases t.insert? c slot target arguments <;> rfl

theorem faultOf_apply_type {d : TypeDecl} (hnode : c.path.head? = some (.type d)) (t : Template)
    (arguments : List Node) :
    faultOf (t.apply c .last arguments) =
      t.refusal? .last .type arguments (t.asMembers? arguments).isSome := by
  rw [faultOf_apply hnode]
  cases hnew : t.asMembers? arguments <;> simp [insert?, hnew, Node.kind]

theorem faultOf_apply_method {d : MethodDecl} (hnode : c.path.head? = some (.method d))
    (hbody : d.body.isSome) (t : Template) (arguments : List Node) :
    faultOf (t.apply c .last arguments) =
      t.refusal? .last .method arguments (t.asStatements? arguments).isSome := by
  obtain ⟨b, hb⟩ := Option.isSome_iff_exists.mp hbody
  rw [faultOf_apply hnode]
  cases hnew : t.asStatements? arguments <;> simp [insert?, hnew, hb, Node.kind]

theorem faultOf_apply_throws {d : MethodDecl} (hnode : c.path.head? = some (.method d))
    (t : Template) (arguments : List Node) :
    faultOf (t.apply c .throws arguments) =
      t.refusal? .throws .method arguments t.isTypeReference := by
  rw [faultOf_apply hnode]
  cases hshape : t.shape <;> simp [insert?, isTypeReference, hshape, Node.kind]

end Template

end JavaMigration.Edit

namespace JavaMigration.Recipe

open Java Source Match Edit

namespace RuleMigration

variable (m : RuleMigration)

/-! ## Closing -/

/-- Why a field cannot be closed in a method with a body, of which only what it throws matters. -/
def closeInFault? (field : Identifier) (thrown : List Identifier) : Option ApplyFault :=
  (m.closeStatement.refusal? .last .method [.identifier field]
      (m.closeStatement.asStatements? [.identifier field]).isSome).or
    (if thrown.any fun t => hasClassType t.type m.config.exceptionType then none
      else m.thrown.refusal? .throws .method [] m.thrown.isTypeReference)

/-- Why a field cannot be closed in a type with some members. -/
def closeFault? (field : Identifier) (method : Option StatementId) (members : List Statement) :
    Option ApplyFault :=
  match method with
  | none =>
    m.newMethod.refusal? .last .type [.identifier field]
      (m.newMethod.asMembers? [.identifier field]).isSome
  | some id =>
    match members.find? (·.id == id) with
    | some (.method d) => if d.body.isNone then none else m.closeInFault? field d.thrown
    | _ => none

variable {m}

theorem faultOf_closeIn {μ : Type} {d : MethodDecl} (hbody : d.body.isSome) (field : Identifier)
    (cursor : Cursor μ) :
    faultOf (m.closeIn d field cursor) = m.closeInFault? field d.thrown := by
  have hclose := Template.faultOf_apply_method (c := cursor.push (.method d)) rfl hbody
    m.closeStatement [.identifier field]
  unfold closeIn closeInFault?
  rw [← hclose]
  cases happly : m.closeStatement.apply (cursor.push (.method d)) .last [.identifier field] with
  | error fault => rfl
  | ok node =>
    obtain ⟨old, ss, new, -, -, -, -, rfl⟩ := Template.apply_method_ok rfl happly
    let closed : MethodDecl := { d with body := some new }
    have hthrown : closed.thrown = d.thrown := rfl
    have hthrows := Template.faultOf_apply_throws (c := cursor.push (.method closed)) rfl m.thrown []
    show faultOf (if closed.thrown.any _ then _ else _) = _
    rw [hthrown, ← hthrows]
    split
    · rfl
    · cases hdeclare : m.thrown.apply (cursor.push (.method closed)) .throws [] with
      | error fault => simp [bind, Except.bind, faultOf]
      | ok node =>
        obtain ⟨type, -, rfl⟩ := Template.apply_throws_ok rfl hdeclare
        simp [bind, Except.bind, faultOf, pure, Except.pure]

theorem faultOf_closeField {μ : Type} {d : TypeDecl} {cursor : Cursor μ}
    (hcursor : cursor.path.head? = some (.type d)) (field : Identifier)
    (method : Option StatementId) :
    faultOf (m.closeField d field method cursor) =
      m.closeFault? field method d.body.statements := by
  unfold closeField closeFault?
  cases method with
  | none =>
    have hclose := Template.faultOf_apply_type hcursor m.newMethod [.identifier field]
    dsimp only
    rw [← hclose]
    cases happly : m.newMethod.apply cursor .last [.identifier field] with
    | error fault => rfl
    | ok node =>
      obtain ⟨new, body, -, -, -, rfl⟩ := Template.apply_type_ok hcursor happly
      rfl
  | some id =>
    dsimp only
    cases d.body.statements.find? (·.id == id) with
    | none => rfl
    | some s =>
      cases s with
      | method a =>
        dsimp only
        by_cases hbody : a.body.isNone
        · rw [if_pos hbody, if_pos hbody]
          rfl
        · have hsome : a.body.isSome := by simpa [Option.isSome_iff_ne_none] using hbody
          rw [if_neg hbody, if_neg hbody, ← faultOf_closeIn hsome field cursor]
          cases m.closeIn a field cursor <;> rfl
      | _ => rfl

/-! ## What closing gives -/

/-- What a method throws once a field is closed in it, and the types to import for that. -/
def DeclaresThrown (m : RuleMigration) (throws new : Option Throws) (imports : List String) : Prop :=
  new = throws ∧ imports = [] ∨
    ∃ type, m.thrown.shape = .typeReference type ∧ new = some (Template.addThrown throws type) ∧
      imports = [m.config.exceptionType]

/-- A method in which a field was closed has the close statement laid out behind its own statements;
apart from what it throws it is the same method. -/
theorem closeIn_eq {μ : Type} {a c : MethodDecl} {field : Identifier} {cursor : Cursor μ}
    {imports : List String} (h : m.closeIn a field cursor = .ok (c, imports)) :
    ∃ old new throws, a.body = some old ∧
      m.closeStatement.asStatements? [.identifier field] = some new ∧
      m.DeclaresThrown a.throws throws imports ∧
      c = { a with
        body := some (m.closeStatement.layout.methodBody a old new (cursor.push (.method a))),
        throws } := by
  unfold closeIn at h
  cases happly : m.closeStatement.apply (cursor.push (.method a)) .last [.identifier field] with
  | error fault => rw [happly] at h; cases h
  | ok node =>
    obtain ⟨old, new, hold, hnew, rfl⟩ := Template.apply_method_eq rfl happly
    let closed : MethodDecl := { a with
      body := some (m.closeStatement.layout.methodBody a old new (cursor.push (.method a))) }
    simp only [happly, bind, Except.bind] at h
    split at h
    · cases h
      exact ⟨old, new, a.throws, hold, hnew, .inl ⟨rfl, rfl⟩, rfl⟩
    · cases hthrows : m.thrown.apply (cursor.push (.method closed)) .throws [] with
      | error fault => rw [hthrows] at h; cases h
      | ok node =>
        obtain ⟨type, htype, rfl⟩ := Template.apply_throws_ok rfl hthrows
        rw [hthrows] at h
        cases h
        exact ⟨old, new, _, hold, hnew, .inr ⟨type, htype, rfl, rfl⟩, rfl⟩

theorem exists_of_replaceById {ss : List Statement} {old : Statement} {id : StatementId}
    (hfind : ss.find? (·.id == id) = some old) :
    ∃ front back, ss = front ++ old :: back ∧
      ∀ new, replaceById id new ss = front ++ new :: back := by
  induction ss with
  | nil => cases hfind
  | cons s ss ih =>
    by_cases hid : s.id = id
    · rw [List.find?_cons_of_pos (by simpa using hid)] at hfind
      cases hfind
      exact ⟨[], ss, rfl, fun new => if_pos hid⟩
    · rw [List.find?_cons_of_neg (by simpa using hid)] at hfind
      obtain ⟨front, back, rfl, hreplace⟩ := ih hfind
      refine ⟨s :: front, back, rfl, fun new => ?_⟩
      rw [replaceById, if_neg hid, hreplace, List.cons_append]

/-- A type in which a field was closed in a new method has that laid out behind its members. -/
theorem closeField_none {μ : Type} {d e : TypeDecl} {field : Identifier} {cursor : Cursor μ}
    {imports : List String} (hcursor : cursor.path.head? = some (.type d))
    (h : m.closeField d field none cursor = .ok (e, imports)) :
    ∃ new, m.newMethod.asMembers? [.identifier field] = some new ∧
      imports = m.newMethod.imports.filter (· != m.config.trackedType) ∧
      e = { d with body := m.newMethod.layout.typeBody d new cursor } := by
  unfold closeField at h
  cases happly : m.newMethod.apply cursor .last [.identifier field] with
  | error fault => simp [happly, bind, Except.bind] at h
  | ok node =>
    obtain ⟨new, hnew, rfl⟩ := Template.apply_type_eq hcursor happly
    simp only [happly, bind, Except.bind] at h
    cases h
    exact ⟨new, hnew, rfl, rfl⟩

/-- A type in which a field was closed in one of its methods has the close statement laid out in that
one, or is the same as before. -/
theorem closeField_some {μ : Type} {d e : TypeDecl} {field : Identifier} {id : StatementId}
    {cursor : Cursor μ} {imports : List String}
    (h : m.closeField d field (some id) cursor = .ok (e, imports)) :
    (e = d ∧ imports = []) ∨
      ∃ front a back old new throws, d.body.statements = front ++ .method a :: back ∧
        a.body = some old ∧ m.closeStatement.asStatements? [.identifier field] = some new ∧
        m.DeclaresThrown a.throws throws imports ∧
        e = { d with body := { d.body with
          statements := front ++ .method { a with
            body := some (m.closeStatement.layout.methodBody a old new (cursor.push (.method a))),
            throws } :: back } } := by
  unfold closeField at h
  dsimp only at h
  split at h
  · next a hfind =>
    split at h
    · cases h
      exact .inl ⟨rfl, rfl⟩
    · cases hclose : m.closeIn a field cursor with
      | error fault => simp [hclose, bind, Except.bind] at h
      | ok result =>
        obtain ⟨c, added⟩ := result
        obtain ⟨old, new, throws, hold, hnew, hthrows, rfl⟩ := closeIn_eq hclose
        obtain ⟨front, back, hsplit, hreplace⟩ := exists_of_replaceById hfind
        simp only [hclose, bind, Except.bind, hreplace] at h
        cases h
        exact .inr ⟨front, a, back, old, new, throws, hsplit, hold, hnew, hthrows, rfl⟩
  · cases h
    exact .inl ⟨rfl, rfl⟩

/-- A type in which a field was closed is the same as before, or has the new method laid out behind
its members, or has the close statement in one of its methods. -/
theorem closeField_eq {μ : Type} {d e : TypeDecl} {field : Identifier}
    {method : Option StatementId} {cursor : Cursor μ} {imports : List String}
    (hcursor : cursor.path.head? = some (.type d))
    (h : m.closeField d field method cursor = .ok (e, imports)) :
    (e = d ∧ imports = []) ∨
      (∃ new, m.newMethod.asMembers? [.identifier field] = some new ∧
        imports = m.newMethod.imports.filter (· != m.config.trackedType) ∧
        e = { d with body := m.newMethod.layout.typeBody d new cursor }) ∨
      ∃ front a back old new throws, d.body.statements = front ++ .method a :: back ∧
        a.body = some old ∧ m.closeStatement.asStatements? [.identifier field] = some new ∧
        m.DeclaresThrown a.throws throws imports ∧
        e = { d with body := { d.body with
          statements := front ++ .method { a with
            body := some (m.closeStatement.layout.methodBody a old new (cursor.push (.method a))),
            throws } :: back } } := by
  cases method with
  | none => exact .inr (.inl (closeField_none hcursor h))
  | some id => exact (closeField_some h).imp_right .inr

/-- However it is laid out, the code is behind what was there. -/
theorem closeField_ok {μ : Type} {d e : TypeDecl} {field : Identifier}
    {method : Option StatementId} {cursor : Cursor μ} {imports : List String}
    (hcursor : cursor.path.head? = some (.type d))
    (h : m.closeField d field method cursor = .ok (e, imports)) :
    (e = d ∧ imports = []) ∨
      (∃ new body, m.newMethod.asMembers? [.identifier field] = some new ∧
        d.body.ExtendedBy new body ∧ d.body.ClosesLike body ∧
        imports = m.newMethod.imports.filter (· != m.config.trackedType) ∧ e = { d with body }) ∨
      ∃ front a back old new body throws, d.body.statements = front ++ .method a :: back ∧
        a.body = some old ∧ m.closeStatement.asStatements? [.identifier field] = some new ∧
        old.ExtendedBy new body ∧ old.ClosesLike body ∧
        m.DeclaresThrown a.throws throws imports ∧
        e = { d with body := { d.body with
          statements := front ++ .method { a with body := some body, throws } :: back } } := by
  obtain ⟨rfl, rfl⟩ | ⟨new, hnew, rfl, rfl⟩ |
    ⟨front, a, back, old, new, throws, hsplit, hold, hnew, hthrows, rfl⟩ := closeField_eq hcursor h
  · exact .inl ⟨rfl, rfl⟩
  · exact .inr (.inl ⟨new, _, hnew, Layout.extendedBy_extend _ _ _ _ _ _,
      Layout.closesLike_extend _ _ _ _ _ _, rfl, rfl⟩)
  · exact .inr (.inr ⟨front, a, back, old, new, _, throws, hsplit, hold, hnew,
      Layout.extendedBy_extend _ _ _ _ _ _, Layout.closesLike_extend _ _ _ _ _ _, hthrows, rfl⟩)

/-! ## Types -/

variable (m)

/-- Why the field of a type cannot be closed, if there is one and it cannot. -/
def failure? (d : TypeDecl) : Option ApplyFault :=
  let found := m.findingsInBlock d.body
  (fieldFound found).bind fun field =>
    m.closeFault? field (methodFound found) d.body.statements

theorem get_rewriteAll (above : List Node) (ss : List Statement) :
    (m.rewriteAll above ss).get ss = ss.map fun s => (m.rewrite above s).get s := by
  induction ss with
  | nil => rfl
  | cons s rest ih =>
    rw [rewriteAll_cons, List.map_cons, ← ih]
    cases m.rewrite above s <;> cases m.rewriteAll above rest <;> rfl

theorem get_rewriteBlock {m : RuleMigration} (above : List Node) (b : Block) :
    (m.rewriteBlock above b).get b =
      { b with statements := (m.rewriteAll (.block b :: above) b.statements).get b.statements } := by
  rw [rewriteBlock_eq]
  cases b
  cases m.rewriteAll _ _ <;> rfl

theorem statements_rewriteBlock (above : List Node) (b : Block) :
    ((m.rewriteBlock above b).get b).statements =
      (m.rewriteAll (.block b :: above) b.statements).get b.statements := by
  rw [get_rewriteBlock]

/-- The type when the visit of its members is over. -/
def visitedType (above : List Node) (d : TypeDecl) : TypeDecl :=
  { d with body := (m.rewriteBlock (.type d :: above) d.body).get d.body }

theorem outcome_visitedType (above : List Node) (d : TypeDecl) :
    m.outcome above d =
      m.closing above (m.findingsInBlock d.body) (m.visitedType above d) := by
  rw [outcome_eq, get_map_body]
  rfl

/-- The type after the visit: as it was if it fails, with its field closed if there is one. -/
theorem rewriteType_cases (above : List Node) (d : TypeDecl) :
    (m.outcome above d = none ∧ (m.rewriteType above d).get d = m.visitedType above d) ∨
      (∃ fault, m.outcome above d = some (.error fault) ∧ m.rewriteType above d = .kept) ∨
      ∃ field imports e, m.outcome above d = some (.ok (e, imports)) ∧
        fieldFound (m.findingsInBlock d.body) = some field ∧
        m.closeField (m.visitedType above d) field (methodFound (m.findingsInBlock d.body))
          (Cursor.ofPath (.type (m.visitedType above d) :: above) : Cursor Finding) =
            .ok (e, imports) ∧
        (m.rewriteType above d).get d = e := by
  rw [rewriteType_outcome]
  cases hout : m.outcome above d with
  | none =>
    exact .inl ⟨rfl, get_map_body d _⟩
  | some result =>
    cases result with
    | error fault => exact .inr (.inl ⟨fault, rfl, rfl⟩)
    | ok closed =>
      obtain ⟨e, imports⟩ := closed
      rw [outcome_visitedType, closing, Option.map_eq_some_iff] at hout
      obtain ⟨field, hfield, hclose⟩ := hout
      exact .inr (.inr ⟨field, imports, e, rfl, hfield, hclose, rfl⟩)

theorem id_rewriteType (above : List Node) (d : TypeDecl) :
    ((m.rewriteType above d).get d).id = d.id := by
  obtain ⟨-, hget⟩ | ⟨fault, -, hget⟩ | ⟨field, imports, e, -, -, hclose, hget⟩ :=
    m.rewriteType_cases above d
  · rw [hget]
    rfl
  · rw [hget]
    rfl
  · rw [hget]
    obtain ⟨rfl, -⟩ | ⟨_, _, _, _, _, _, rfl⟩ | ⟨_, _, _, _, _, _, _, _, _, _, _, _, _, rfl⟩ :=
      closeField_ok (by rw [Cursor.path_ofPath]; rfl) hclose <;> rfl

theorem head_rewriteMethod (above : List Node) (d : MethodDecl) :
    ((m.rewriteMethod above d).get d).id = d.id ∧
      ((m.rewriteMethod above d).get d).body.isNone = d.body.isNone ∧
      ((m.rewriteMethod above d).get d).thrown = d.thrown := by
  cases hb : d.body with
  | none =>
    have hkept : m.rewriteMethod above d = .kept := by
      cases d; subst hb; rfl
    rw [hkept, Revision.get, hb]
    exact ⟨rfl, rfl, rfl⟩
  | some b =>
    rw [m.rewriteMethod_eq above hb]
    cases m.rewriteBlock (.method d :: above) b with
    | kept =>
      rw [Revision.map, Revision.get, hb]
      exact ⟨rfl, rfl, rfl⟩
    | replaced new => exact ⟨rfl, rfl, rfl⟩

theorem id_unmarked (d : VariableDecl) : (m.unmarked d).id = d.id := by
  unfold unmarked VariableDecl.retainAnnotations
  extract_lets kept
  split
  · unfold VariableDecl.clearFirst
    split <;> rfl
  · rfl

theorem id_rewrite (above : List Node) (s : Statement) : ((m.rewrite above s).get s).id = s.id := by
  cases s with
  | type d =>
    have hget : (m.rewrite above (.type d)).get (.type d) = .type ((m.rewriteType above d).get d) :=
      Revision.get_map
    rw [hget]
    exact m.id_rewriteType above d
  | method d =>
    have hget : (m.rewrite above (.method d)).get (.method d) =
        .method ((m.rewriteMethod above d).get d) := Revision.get_map
    rw [hget]
    exact (m.head_rewriteMethod above d).1
  | vars d =>
    have hget : (m.rewrite above (.vars d)).get (.vars d) = .vars ((m.rewriteVars d).get d) :=
      Revision.get_map
    rw [hget, rewriteVars]
    split
    · exact m.id_unmarked d
    · rfl
  | call c => rfl
  | raw r => rfl

/-- Visiting the members of a type does not matter for how closing a field in it fails. -/
theorem closeFault?_rewriteAll (above : List Node) (field : Identifier)
    (method : Option StatementId) (ss : List Statement) :
    m.closeFault? field method ((m.rewriteAll above ss).get ss) = m.closeFault? field method ss := by
  cases method with
  | none => rfl
  | some id =>
    have hsame : ((fun s : Statement => s.id == id) ∘ fun s => (m.rewrite above s).get s) =
        fun s => s.id == id := by
      funext s
      rw [Function.comp_apply, id_rewrite]
    unfold closeFault?
    dsimp only
    rw [get_rewriteAll, List.find?_map, hsame]
    cases ss.find? fun s => s.id == id with
    | none => rfl
    | some s =>
      cases s with
      | method d =>
        obtain ⟨-, hbody, hthrown⟩ := m.head_rewriteMethod above d
        have hget : (m.rewrite above (.method d)).get (.method d) =
            .method ((m.rewriteMethod above d).get d) := Revision.get_map
        simp only [Option.map_some, hget, hbody, hthrown]
      | type d =>
        have hget : (m.rewrite above (.type d)).get (.type d) =
            .type ((m.rewriteType above d).get d) := Revision.get_map
        simp only [Option.map_some, hget]
      | vars d =>
        have hget : (m.rewrite above (.vars d)).get (.vars d) = .vars ((m.rewriteVars d).get d) :=
          Revision.get_map
        simp only [Option.map_some, hget]
      | call c => rfl
      | raw r => rfl

/-- How a type fails does not depend on what is above it. -/
theorem fault?_outcome (above : List Node) (d : TypeDecl) :
    fault? (m.outcome above d) = m.failure? d := by
  have hstatements : (m.visitedType above d).body.statements =
      (m.rewriteAll (.block d.body :: .type d :: above) d.body.statements).get d.body.statements :=
    m.statements_rewriteBlock _ _
  rw [outcome_visitedType, closing]
  unfold failure?
  dsimp only
  cases fieldFound (m.findingsInBlock d.body) with
  | none => rfl
  | some field =>
    let cursor : Cursor Finding := .ofPath (.type (m.visitedType above d) :: above)
    have hcursor : cursor.path.head? = some (.type (m.visitedType above d)) := by
      rw [Cursor.path_ofPath]
      rfl
    have hclose := faultOf_closeField (m := m) hcursor field (methodFound (m.findingsInBlock d.body))
    rw [hstatements, closeFault?_rewriteAll] at hclose
    rw [Option.map_some, Option.bind_some, ← hclose]
    cases m.closeField (m.visitedType above d) field _ _ <;> rfl

end RuleMigration

end JavaMigration.Recipe
