import JavaMigration.Proofs.Source.Declared
import JavaMigration.Proofs.Source.Printing
import JavaMigration.Proofs.Source.Walk

/-!
# What a traversal shares

A visitor that looks at declarations of variables and at calls only. The places of a tree have
addresses, and the traversal reaches each of them once, in a session that hangs on what it has
visited before; what it makes of the statement there is read off that visit. A statement stays the
same one exactly if all leaves in it do, and around a leaf that is replaced nothing else changes
(`traversal_shares_what_is_kept`).
-/

namespace JavaMigration.Source

/-! ## Addresses -/

namespace Statement

/-- A statement without a body that visitors look at. -/
def isLeaf : Statement → Bool
  | vars _ => true
  | call _ => true
  | _ => false

def body? : Statement → Option Block
  | type d => some d.body
  | method d => d.body
  | _ => none

/-- The statements in the body. -/
def inner (s : Statement) : List Statement := (s.body?.map (·.statements)).getD []

/-- The statement with other statements in its body. -/
def withInner (s : Statement) (statements : List Statement) : Statement :=
  match s with
  | type d => type { d with body := { d.body with statements } }
  | method d => method { d with body := d.body.map fun body => { body with statements } }
  | _ => s

/-- The statement at an address, the numbers of the statements around it and of itself in their
bodies. -/
def at? (s : Statement) : List Nat → Option Statement
  | [] => some s
  | i :: rest => s.inner[i]?.bind (·.at? rest)

end Statement

/-- The statement at an address in a list. -/
def statementAt (ss : List Statement) : List Nat → Option Statement
  | [] => none
  | i :: rest => ss[i]?.bind (·.at? rest)

/-- All leaves at an address or below are kept. -/
def LeavesKept (ss : List Statement) (became : List Nat → Revision Statement) (a : List Nat) :
    Prop :=
  ∀ b leaf, statementAt ss (a ++ b) = some leaf → leaf.isLeaf → (became (a ++ b)).isKept

theorem Statement.at?_cons (s : Statement) (i : Nat) (a : List Nat) :
    s.at? (i :: a) = statementAt s.inner (i :: a) := rfl

theorem Statement.at?_append {s t : Statement} {a : List Nat} (h : s.at? a = some t)
    (b : List Nat) : s.at? (a ++ b) = t.at? b := by
  induction a generalizing s with
  | nil => cases h; rfl
  | cons i a ih =>
    obtain ⟨r, hr, hat⟩ := Option.bind_eq_some_iff.mp h
    rw [List.cons_append, at?, hr]
    exact ih hat

theorem statementAt_append {ss : List Statement} {t : Statement} {a : List Nat}
    (h : statementAt ss a = some t) (b : List Nat) : statementAt ss (a ++ b) = t.at? b := by
  cases a with
  | nil => cases h
  | cons i a =>
    obtain ⟨r, hr, hat⟩ := Option.bind_eq_some_iff.mp h
    rw [List.cons_append, statementAt, hr]
    exact Statement.at?_append hat b

/-! ## What is visited -/

section Visits

variable {μ σ : Type}

/-- The session inside the body of a statement, before the first of its statements. -/
def Session.enter (session : Session μ σ) (s : Statement) : Session μ σ :=
  match s.body? with
  | some b => { session with cursor := (session.cursor.push (.ofStatement s)).push (.block b) }
  | none => session

namespace Visitor

variable (v : Visitor μ σ)

/-- What the visit of a statement makes of it. -/
def revision (s : Statement) (session : Session μ σ) : Revision Statement :=
  ((v.visitStatement s).run session).1

/-- The statements of a list, each with the session in which its visit begins. -/
def visits : List Statement → Session μ σ → List (Statement × Session μ σ)
  | [], _ => []
  | s :: rest, session => (s, session) :: visits rest ((v.visitStatement s).run session).2

/-- What the traversal of a statement makes of the one at an address in it. -/
def revisionAt (s : Statement) (session : Session μ σ) : List Nat → Revision Statement
  | [] => v.revision s session
  | i :: rest =>
    match (v.visits s.inner (session.enter s))[i]? with
    | some (t, there) => revisionAt t there rest
    | none => .kept

/-- What the traversal of a list makes of the statement at an address in it. -/
def revisionIn (ss : List Statement) (session : Session μ σ) : List Nat → Revision Statement
  | [] => .kept
  | i :: rest =>
    match (v.visits ss session)[i]? with
    | some (t, there) => v.revisionAt t there rest
    | none => .kept

/-- What the traversal of a list makes of it. -/
def revisionOf (ss : List Statement) (session : Session μ σ) : Revision (List Statement) :=
  ((v.visitStatements ss).run session).1

end Visitor

end Visits

/-! ## Text and leaves -/

/-- A stretch of printed text: a leaf with its address, or what stands between leaves. -/
inductive Part where
  | text (s : String)
  | leaf (address : List Nat) (s : Statement)

namespace Part

def print : Part → String
  | text s => s
  | leaf _ s => s.print

/-- The part inside the statement number `i`. -/
def under (i : Nat) : Part → Part
  | text s => text s
  | leaf a s => leaf (i :: a) s

/-- A leaf gives way to what has become of it; text stays. -/
def revised (f : List Nat → Revision Statement) : Part → Part
  | text s => text s
  | leaf a s => leaf a ((f a).get s)

end Part

def printParts (ps : List Part) : String := String.join (ps.map (·.print))

mutual

def Statement.parts : Statement → List Part
  | .type d => d.parts
  | .method d => d.parts
  | .vars d => [.leaf [] (.vars d)]
  | .call c => [.leaf [] (.call c)]
  | .raw r => [.text r.print]

def TypeDecl.parts : TypeDecl → List Part
  | ⟨id, lead, annotations, modifiers, kind, kindLead, name, header, body, type⟩ =>
    .text (TypeDecl.printHead ⟨id, lead, annotations, modifiers, kind, kindLead, name, header,
      body, type⟩) :: body.parts

def MethodDecl.parts : MethodDecl → List Part
  | ⟨id, lead, annotations, modifiers, returnType, name, parameters, throws, body, close⟩ =>
    .text (MethodDecl.printHead ⟨id, lead, annotations, modifiers, returnType, name, parameters,
      throws, body, close⟩) ::
      match body with
      | some body => body.parts
      | none => [.text (close.text ++ ";")]

def Block.parts : Block → List Part
  | ⟨lead, statements, close⟩ =>
    .text (lead.text ++ "\x7b") :: partsFrom 0 statements ++ [.text (close.text ++ "\x7d")]

/-- The parts of statements that are numbered from `i`. -/
def partsFrom (i : Nat) : List Statement → List Part
  | [] => []
  | s :: rest => s.parts.map (·.under i) ++ partsFrom (i + 1) rest

end

def CompilationUnit.parts (u : CompilationUnit) : List Part :=
  .text (u.lead.text ++ (u.package.map (·.print)).getD "" ++
      String.join (u.imports.map (·.print))) ::
    partsFrom 0 u.types ++ [.text u.close.text]

/-! ## Bodies -/

namespace Statement

theorem inner_of_isLeaf {s : Statement} (h : s.isLeaf) : s.inner = [] := by
  cases s <;> first | rfl | cases h

theorem inner_of_none {s : Statement} (h : s.body? = none) : s.inner = [] := by
  rw [inner, h]; rfl

theorem inner_of_some {s : Statement} {b : Block} (h : s.body? = some b) :
    s.inner = b.statements := by
  rw [inner, h]; rfl

theorem inner_withInner {s : Statement} {b : Block} (h : s.body? = some b) (ss : List Statement) :
    (s.withInner ss).inner = ss := by
  cases s with
  | type d => rfl
  | method d =>
    rw [inner, withInner, body?, show d.body = some b from h]
    rfl
  | _ => cases h

theorem withInner_inner (s : Statement) : s.withInner s.inner = s := by
  cases s with
  | type d =>
    cases d with
    | mk _ _ _ _ _ _ _ _ body _ => cases body; rfl
  | method d =>
    cases d with
    | mk _ _ _ _ _ _ _ _ body _ =>
      cases body with
      | none => rfl
      | some b => cases b; rfl
  | _ => rfl

/-- Induction through bodies: what holds of a statement if it holds of all in its body. -/
theorem inner_induction {motive : Statement → Prop}
    (step : ∀ s : Statement, (∀ t ∈ s.inner, motive t) → motive s) (s : Statement) : motive s := by
  suffices h : ∀ ss : List Statement, ∀ t ∈ ss, motive t from h [s] s List.mem_cons_self
  intro ss
  induction ss using statements_induction with
  | nil => exact List.forall_mem_nil _
  | type d rest hbody hrest => exact List.forall_mem_cons.mpr ⟨step _ hbody, hrest⟩
  | method d b rest hb hbody hrest =>
    refine List.forall_mem_cons.mpr ⟨step _ ?_, hrest⟩
    rwa [inner_of_some (s := .method d) hb]
  | signature d rest hb hrest =>
    refine List.forall_mem_cons.mpr ⟨step _ ?_, hrest⟩
    rw [inner_of_none (s := .method d) hb]
    exact List.forall_mem_nil _
  | vars d rest hrest => exact List.forall_mem_cons.mpr ⟨step _ (List.forall_mem_nil _), hrest⟩
  | call c rest hrest => exact List.forall_mem_cons.mpr ⟨step _ (List.forall_mem_nil _), hrest⟩
  | raw r rest hrest => exact List.forall_mem_cons.mpr ⟨step _ (List.forall_mem_nil _), hrest⟩

end Statement

/-! ## The parts of a statement -/

namespace Statement

theorem parts_of_isLeaf {s : Statement} (h : s.isLeaf) : s.parts = [.leaf [] s] := by
  cases s <;> first | rfl | cases h

/-- In front of its body and behind it a statement is text. -/
theorem exists_parts_withInner {s : Statement} {b : Block} (h : s.body? = some b) :
    ∃ front back : List String, ∀ ss,
      (s.withInner ss).parts = front.map .text ++ partsFrom 0 ss ++ back.map .text := by
  cases s with
  | type d =>
    refine ⟨[d.printHead, d.body.lead.text ++ "\x7b"], [d.body.close.text ++ "\x7d"],
      fun ss => ?_⟩
    cases d with
    | mk => rfl
  | method d =>
    refine ⟨[d.printHead, b.lead.text ++ "\x7b"], [b.close.text ++ "\x7d"], fun ss => ?_⟩
    cases d with
    | mk => cases h; rfl
  | _ => cases h

theorem exists_parts_of_none {s : Statement} (h : s.body? = none) (hleaf : ¬ s.isLeaf) :
    ∃ texts : List String, s.parts = texts.map .text := by
  cases s with
  | method d =>
    refine ⟨[d.printHead, d.close.text ++ ";"], ?_⟩
    cases d with
    | mk => cases h; rfl
  | raw r => exact ⟨[r.print], rfl⟩
  | type d => cases h
  | _ => exact absurd rfl hleaf

end Statement

/-! ## One list -/

section Lists

variable {μ σ : Type} (v : Visitor μ σ)

namespace Visitor

theorem map_fst_visits (ss : List Statement) (session : Session μ σ) :
    (v.visits ss session).map (·.1) = ss := by
  induction ss generalizing session with
  | nil => rfl
  | cons s rest ih => exact congrArg (s :: ·) (ih _)

theorem revisionOf_cons (s : Statement) (rest : List Statement) (session : Session μ σ) :
    v.revisionOf (s :: rest) session =
      .cons s rest (v.revision s session)
        (v.revisionOf rest ((v.visitStatement s).run session).2) := by
  rw [revisionOf, visitStatements_cons]
  rfl

/-- A list stays the same one if all its statements do. -/
theorem isKept_revisionOf (ss : List Statement) (session : Session μ σ) :
    (v.revisionOf ss session).isKept ↔
      ∀ p ∈ v.visits ss session, (v.revision p.1 p.2).isKept := by
  induction ss generalizing session with
  | nil => exact iff_of_true rfl (List.forall_mem_nil _)
  | cons s rest ih =>
    rw [revisionOf_cons, Revision.isKept_cons, ih, visits, List.forall_mem_cons]

theorem get_revisionOf (ss : List Statement) (session : Session μ σ) :
    (v.revisionOf ss session).get ss =
      (v.visits ss session).map fun p => (v.revision p.1 p.2).get p.1 := by
  induction ss generalizing session with
  | nil => rfl
  | cons s rest ih => rw [revisionOf_cons, Revision.get_cons, ih, visits, List.map_cons]

/-- The statement at an address is found through the visit of the one that it is in. -/
theorem getElem?_eq_map_visits (ss : List Statement) (session : Session μ σ) (i : Nat) :
    ss[i]? = (v.visits ss session)[i]?.map (·.1) := by
  rw [← List.getElem?_map, map_fst_visits]

theorem revisionAt_cons {s t : Statement} {session there : Session μ σ} {i : Nat}
    (h : (v.visits s.inner (session.enter s))[i]? = some (t, there)) (a : List Nat) :
    v.revisionAt s session (i :: a) = v.revisionAt t there a := by
  rw [revisionAt, h]

theorem revisionIn_cons {ss : List Statement} {t : Statement} {session there : Session μ σ}
    {i : Nat} (h : (v.visits ss session)[i]? = some (t, there)) (a : List Nat) :
    v.revisionIn ss session (i :: a) = v.revisionAt t there a := by
  rw [revisionIn, h]

end Visitor

end Lists

/-! ## One statement -/

/-- A visitor that looks at declarations of variables and at calls only. -/
def Visitor.ofLeaves {μ σ : Type} (vars : VariableDecl → Walk μ σ (Revision VariableDecl))
    (call : Call → Walk μ σ (Revision Call)) : Visitor μ σ := { vars, call }

section Leaves

variable {μ σ : Type} (vars : VariableDecl → Walk μ σ (Revision VariableDecl))
  (call : Call → Walk μ σ (Revision Call))

namespace Visitor

theorem revision_block (b : Block) (session : Session μ σ) :
    (((ofLeaves vars call).visitBlock b).run session).1 =
      ((ofLeaves vars call).revisionOf b.statements
        { session with cursor := session.cursor.push (.block b) }).map
          fun statements => { b with statements } := by
  rw [visitBlock_eq]
  exact Walk.run_reveal_fst ..

theorem revision_type (d : TypeDecl) (session : Session μ σ) :
    (ofLeaves vars call).revision (.type d) session =
      ((((ofLeaves vars call).visitBlock d.body).run
        { session with cursor := session.cursor.push (.type d) }).1.map
          fun body => { d with body }).map .type := by
  rw [revision, visitStatement, visitType_eq]
  exact congrArg (Revision.map Statement.type) (Walk.run_reveal_fst ..)

theorem revision_method {d : MethodDecl} {b : Block} (h : d.body = some b)
    (session : Session μ σ) :
    (ofLeaves vars call).revision (.method d) session =
      ((((ofLeaves vars call).visitBlock b).run
        { session with cursor := session.cursor.push (.method d) }).1.map
          fun body => { d with body := some body }).map .method := by
  rw [revision, visitStatement, visitMethod_of_some _ h]
  exact congrArg (Revision.map Statement.method) (Walk.run_reveal_fst ..)

theorem revision_signature {d : MethodDecl} (h : d.body = none) (session : Session μ σ) :
    (ofLeaves vars call).revision (.method d) session = .kept := by
  rw [revision, visitStatement, visitMethod_of_none _ h]
  rfl

/-- Around its body a statement stays as it is. -/
theorem revision_of_not_isLeaf {s : Statement} (h : ¬ s.isLeaf) (session : Session μ σ) :
    (ofLeaves vars call).revision s session =
      ((ofLeaves vars call).revisionOf s.inner (session.enter s)).map s.withInner := by
  cases s with
  | type d =>
    rw [revision_type, revision_block, Revision.map_map, Revision.map_map]
    rfl
  | method d =>
    cases hb : d.body with
    | none =>
      rw [revision_signature vars call hb, Statement.inner_of_none (s := .method d) hb]
      rfl
    | some b =>
      have henter : session.enter (.method d) =
          { session with cursor := (session.cursor.push (.method d)).push (.block b) } := by
        rw [Session.enter, show (Statement.method d).body? = some b from hb]
        rfl
      have hwith : (Statement.method d).withInner =
          fun statements => .method { d with body := some { b with statements } } := by
        funext statements
        rw [Statement.withInner, hb]
        rfl
      rw [revision_method vars call hb, revision_block, Revision.map_map, Revision.map_map,
        Statement.inner_of_some (s := .method d) hb, henter, hwith]
      rfl
  | raw r => rfl
  | _ => exact absurd rfl h

theorem isLeaf_get_revision {s : Statement} (h : s.isLeaf) (session : Session μ σ) :
    (((ofLeaves vars call).revision s session).get s).isLeaf := by
  cases s with
  | vars d =>
    rw [show (ofLeaves vars call).revision (.vars d) session = Revision.map .vars _ from rfl,
      Revision.get_map]
    rfl
  | call c =>
    rw [show (ofLeaves vars call).revision (.call c) session = Revision.map .call _ from rfl,
      Revision.get_map]
    rfl
  | _ => cases h

/-- Only the statements of its body are replaced in a statement that is no leaf. -/
theorem get_revision_of_not_isLeaf {s : Statement} (h : ¬ s.isLeaf) (session : Session μ σ) :
    ((ofLeaves vars call).revision s session).get s =
      s.withInner (((ofLeaves vars call).revisionOf s.inner (session.enter s)).get s.inner) := by
  have hmap := Revision.get_map (f := s.withInner) (a := s.inner)
    (r := (ofLeaves vars call).revisionOf s.inner (session.enter s))
  rwa [Statement.withInner_inner, ← revision_of_not_isLeaf vars call h] at hmap

theorem get_revision_of_none {s : Statement} (h : s.body? = none) (hleaf : ¬ s.isLeaf)
    (session : Session μ σ) : ((ofLeaves vars call).revision s session).get s = s := by
  have hinner : s.inner = [] := Statement.inner_of_none h
  have hkept : (ofLeaves vars call).revisionOf [] (session.enter s) = .kept := rfl
  rw [get_revision_of_not_isLeaf vars call hleaf, hinner, hkept, Revision.get, ← hinner,
    Statement.withInner_inner]

theorem inner_get_revision (s : Statement) (session : Session μ σ) :
    (((ofLeaves vars call).revision s session).get s).inner =
      ((ofLeaves vars call).revisionOf s.inner (session.enter s)).get s.inner := by
  by_cases hleaf : s.isLeaf
  · rw [Statement.inner_of_isLeaf (isLeaf_get_revision vars call hleaf session),
      Statement.inner_of_isLeaf hleaf]
    rfl
  cases hbody : s.body? with
  | none =>
    rw [get_revision_of_none vars call hbody hleaf, Statement.inner_of_none hbody]
    rfl
  | some b =>
    rw [get_revision_of_not_isLeaf vars call hleaf, Statement.inner_withInner hbody]

/-! ### What is kept -/

/-- A list stays the same one if all leaves in it do, provided that this holds of each of its
statements. -/
theorem isKept_revisionOf_iff {ss : List Statement} {session : Session μ σ}
    (h : ∀ p ∈ (ofLeaves vars call).visits ss session,
      ((ofLeaves vars call).revision p.1 p.2).isKept ↔
        ∀ a t, p.1.at? a = some t → t.isLeaf →
          ((ofLeaves vars call).revisionAt p.1 p.2 a).isKept) :
    ((ofLeaves vars call).revisionOf ss session).isKept ↔
      ∀ a t, statementAt ss a = some t → t.isLeaf →
        ((ofLeaves vars call).revisionIn ss session a).isKept := by
  rw [isKept_revisionOf]
  constructor
  · intro hkept a t ha ht
    cases a with
    | nil => cases ha
    | cons i a =>
      rw [statementAt, (ofLeaves vars call).getElem?_eq_map_visits ss session] at ha
      cases hvisit : ((ofLeaves vars call).visits ss session)[i]? with
      | none => rw [hvisit] at ha; cases ha
      | some p =>
        rw [hvisit] at ha
        have hp := List.mem_of_getElem? hvisit
        rw [revisionIn_cons _ hvisit]
        exact (h p hp).mp (hkept p hp) a t ha ht
  · intro hleaves p hp
    obtain ⟨i, hi⟩ := List.getElem?_of_mem hp
    refine (h p hp).mpr fun a t ha ht => ?_
    have hat : statementAt ss (i :: a) = some t := by
      rw [statementAt, (ofLeaves vars call).getElem?_eq_map_visits ss session, hi]
      exact ha
    have hkept := hleaves (i :: a) t hat ht
    rwa [revisionIn_cons _ hi] at hkept

/-- A statement stays the same one if all leaves in it do, and only then. -/
theorem isKept_revision (s : Statement) (session : Session μ σ) :
    ((ofLeaves vars call).revision s session).isKept ↔
      ∀ a t, s.at? a = some t → t.isLeaf →
        ((ofLeaves vars call).revisionAt s session a).isKept := by
  induction s using Statement.inner_induction generalizing session with
  | step s ih =>
    by_cases hleaf : s.isLeaf
    · refine ⟨fun hkept a t ha _ => ?_, fun h => h [] s rfl hleaf⟩
      cases a with
      | nil => exact hkept
      | cons i a =>
        rw [Statement.at?, Statement.inner_of_isLeaf hleaf] at ha
        cases ha
    · have hvisits : ∀ p ∈ (ofLeaves vars call).visits s.inner (session.enter s), p.1 ∈ s.inner :=
        fun p hp => (ofLeaves vars call).map_fst_visits s.inner _ ▸ List.mem_map_of_mem hp
      rw [revision_of_not_isLeaf vars call hleaf, Revision.isKept_map,
        isKept_revisionOf_iff vars call fun p hp => ih p.1 (hvisits p hp) p.2]
      refine ⟨fun h a t ha ht => ?_, fun h a t ha ht => ?_⟩
      · cases a with
        | nil => cases ha; exact absurd ht hleaf
        | cons i a => exact h (i :: a) t ha ht
      · cases a with
        | nil => cases ha
        | cons i a => exact h (i :: a) t ha ht

/-! ### What stands where -/

/-- What stands at an address in a list is what the traversal has made of the statement there,
provided that this holds, one step further down, of every statement. -/
theorem statementAt_cons_get_revisionOf {a : List Nat}
    (h : ∀ (s : Statement) (session : Session μ σ),
      (((ofLeaves vars call).revision s session).get s).at? a =
        (s.at? a).map ((ofLeaves vars call).revisionAt s session a).get)
    (ss : List Statement) (session : Session μ σ) (i : Nat) :
    statementAt (((ofLeaves vars call).revisionOf ss session).get ss) (i :: a) =
      (statementAt ss (i :: a)).map
        ((ofLeaves vars call).revisionIn ss session (i :: a)).get := by
  rw [statementAt, statementAt, get_revisionOf, List.getElem?_map,
    (ofLeaves vars call).getElem?_eq_map_visits ss session]
  cases hvisit : ((ofLeaves vars call).visits ss session)[i]? with
  | none => rfl
  | some p =>
    rw [revisionIn_cons _ hvisit]
    exact h p.1 p.2

theorem at?_get_revision (s : Statement) (session : Session μ σ) (a : List Nat) :
    (((ofLeaves vars call).revision s session).get s).at? a =
      (s.at? a).map ((ofLeaves vars call).revisionAt s session a).get := by
  induction a generalizing s session with
  | nil => rfl
  | cons i a ih =>
    rw [Statement.at?_cons, Statement.at?_cons, inner_get_revision]
    exact statementAt_cons_get_revisionOf vars call ih s.inner (session.enter s) i

/-- The traversal of a list, seen from a statement somewhere in it, is the traversal of that
statement, provided that this holds, one step further down, of every statement. -/
theorem exists_revisionIn_cons_append {t : Statement} {a : List Nat}
    (h : ∀ (s : Statement) (session : Session μ σ), s.at? a = some t →
      ∃ there, ∀ b, (ofLeaves vars call).revisionAt s session (a ++ b) =
        (ofLeaves vars call).revisionAt t there b)
    {ss : List Statement} {i : Nat} (hat : statementAt ss (i :: a) = some t)
    (session : Session μ σ) :
    ∃ there, ∀ b, (ofLeaves vars call).revisionIn ss session (i :: a ++ b) =
      (ofLeaves vars call).revisionAt t there b := by
  rw [statementAt, (ofLeaves vars call).getElem?_eq_map_visits ss session] at hat
  cases hvisit : ((ofLeaves vars call).visits ss session)[i]? with
  | none => rw [hvisit] at hat; cases hat
  | some p =>
    rw [hvisit] at hat
    obtain ⟨there, hthere⟩ := h p.1 p.2 hat
    exact ⟨there, fun b => by rw [List.cons_append, revisionIn_cons _ hvisit, hthere]⟩

theorem exists_revisionAt_append {s t : Statement} {a : List Nat} (session : Session μ σ)
    (h : s.at? a = some t) :
    ∃ there, ∀ b, (ofLeaves vars call).revisionAt s session (a ++ b) =
      (ofLeaves vars call).revisionAt t there b := by
  induction a generalizing s session with
  | nil => cases h; exact ⟨session, fun b => rfl⟩
  | cons i a ih =>
    rw [Statement.at?_cons] at h
    exact exists_revisionIn_cons_append vars call (fun _ session => ih session) h (session.enter s)

theorem statementAt_get_revisionOf (ss : List Statement) (session : Session μ σ) (a : List Nat) :
    statementAt (((ofLeaves vars call).revisionOf ss session).get ss) a =
      (statementAt ss a).map ((ofLeaves vars call).revisionIn ss session a).get := by
  cases a with
  | nil => rfl
  | cons i a =>
    exact statementAt_cons_get_revisionOf vars call
      (fun s session => at?_get_revision vars call s session a) ss session i

theorem exists_revisionIn_append {ss : List Statement} {t : Statement} {a : List Nat}
    (session : Session μ σ) (h : statementAt ss a = some t) :
    ∃ there, ∀ b, (ofLeaves vars call).revisionIn ss session (a ++ b) =
      (ofLeaves vars call).revisionAt t there b := by
  cases a with
  | nil => cases h
  | cons i a =>
    exact exists_revisionIn_cons_append vars call
      (fun _ session => exists_revisionAt_append vars call session) h session

theorem exists_revisionIn_eq {ss : List Statement} {t : Statement} {a : List Nat}
    (session : Session μ σ) (h : statementAt ss a = some t) :
    ∃ there, (ofLeaves vars call).revisionIn ss session a =
      (ofLeaves vars call).revision t there := by
  obtain ⟨there, hthere⟩ := exists_revisionIn_append vars call session h
  exact ⟨there, by rw [← a.append_nil, hthere]; rfl⟩

theorem isKept_revisionIn {ss : List Statement} {t : Statement} {a : List Nat}
    (session : Session μ σ) (h : statementAt ss a = some t) :
    ((ofLeaves vars call).revisionIn ss session a).isKept ↔
      LeavesKept ss ((ofLeaves vars call).revisionIn ss session) a := by
  obtain ⟨there, hthere⟩ := exists_revisionIn_append vars call session h
  have hself : (ofLeaves vars call).revisionIn ss session a =
      (ofLeaves vars call).revision t there := by
    rw [← a.append_nil, hthere]
    rfl
  rw [hself, isKept_revision]
  refine forall_congr' fun b => ?_
  rw [statementAt_append h, hthere]

/-! ### What is printed -/

theorem parts_get_revision_of_isLeaf {s : Statement} (h : s.isLeaf) (session : Session μ σ) :
    (((ofLeaves vars call).revision s session).get s).parts =
      s.parts.map (.revised ((ofLeaves vars call).revisionAt s session)) := by
  rw [Statement.parts_of_isLeaf (isLeaf_get_revision vars call h session),
    Statement.parts_of_isLeaf h]
  rfl

theorem partsFrom_get_revisionOf (visits : List (Statement × Session μ σ)) (k : Nat)
    (f : List Nat → Revision Statement)
    (hf : ∀ i p, visits[i]? = some p → ∀ a,
      f ((k + i) :: a) = (ofLeaves vars call).revisionAt p.1 p.2 a)
    (h : ∀ p ∈ visits, (((ofLeaves vars call).revision p.1 p.2).get p.1).parts =
      p.1.parts.map (.revised ((ofLeaves vars call).revisionAt p.1 p.2))) :
    partsFrom k (visits.map fun p => ((ofLeaves vars call).revision p.1 p.2).get p.1) =
      (partsFrom k (visits.map (·.1))).map (.revised f) := by
  induction visits generalizing k with
  | nil => rfl
  | cons p rest ih =>
    have hfirst : ∀ q : Part, (q.revised ((ofLeaves vars call).revisionAt p.1 p.2)).under k =
        (q.under k).revised f := by
      intro q
      cases q with
      | text s => rfl
      | leaf a s => rw [Part.revised, ← hf 0 p rfl a]; rfl
    rw [List.map_cons, List.map_cons, partsFrom, partsFrom, List.map_append, List.map_map,
      h p List.mem_cons_self, List.map_map,
      ih (k + 1) (fun i q hq a => by rw [← hf (i + 1) q hq a]; congr 2; omega)
        fun q hq => h q (List.mem_cons_of_mem _ hq)]
    exact congrArg (· ++ _) (List.map_congr_left fun q _ => hfirst q)

/-- Of the parts of a statement, the leaves that are replaced change, and nothing else does. -/
theorem parts_get_revision (s : Statement) (session : Session μ σ) :
    (((ofLeaves vars call).revision s session).get s).parts =
      s.parts.map (.revised ((ofLeaves vars call).revisionAt s session)) := by
  induction s using Statement.inner_induction generalizing session with
  | step s ih =>
    have htexts : ∀ texts : List String, (texts.map Part.text).map
        (.revised ((ofLeaves vars call).revisionAt s session)) = texts.map Part.text := by
      intro texts
      rw [List.map_map]
      rfl
    by_cases hleaf : s.isLeaf
    · exact parts_get_revision_of_isLeaf vars call hleaf session
    cases hbody : s.body? with
    | none =>
      obtain ⟨texts, hparts⟩ := Statement.exists_parts_of_none hbody hleaf
      rw [get_revision_of_none vars call hbody hleaf, hparts, htexts]
    | some b =>
      obtain ⟨front, back, hparts⟩ := Statement.exists_parts_withInner hbody
      have hold : s.parts = front.map Part.text ++ partsFrom 0 s.inner ++ back.map .text := by
        rw [← hparts, Statement.withInner_inner]
      have hvisits := (ofLeaves vars call).map_fst_visits s.inner (session.enter s)
      have hinner := partsFrom_get_revisionOf vars call
        ((ofLeaves vars call).visits s.inner (session.enter s)) 0
        ((ofLeaves vars call).revisionAt s session)
        (fun i p hi a => by rw [Nat.zero_add, revisionAt_cons _ hi])
        fun p hp => ih p.1 (hvisits ▸ List.mem_map_of_mem hp) p.2
      rw [hvisits, ← get_revisionOf] at hinner
      rw [get_revision_of_not_isLeaf vars call hleaf, hparts, hold, hinner, List.map_append,
        List.map_append, htexts, htexts]

end Visitor

end Leaves

/-! ## Printed parts -/

theorem printParts_cons (p : Part) (ps : List Part) :
    printParts (p :: ps) = p.print ++ printParts ps := by
  rw [printParts, List.map_cons, String.join_cons]
  rfl

theorem printParts_append (ps qs : List Part) :
    printParts (ps ++ qs) = printParts ps ++ printParts qs := by
  rw [printParts, List.map_append, String.join_append]
  rfl

theorem printParts_under (i : Nat) (ps : List Part) :
    printParts (ps.map (·.under i)) = printParts ps := by
  rw [printParts, List.map_map]
  refine congrArg String.join (List.map_congr_left fun p _ => ?_)
  cases p <;> rfl

theorem printParts_singleton (p : Part) : printParts [p] = p.print := by
  rw [printParts_cons]
  exact String.append_empty

theorem Block.printParts_parts {b : Block}
    (h : printParts (partsFrom 0 b.statements) = printStatements b.statements) :
    printParts b.parts = b.print := by
  cases b with
  | mk lead statements close =>
    rw [Block.parts, printParts_append, printParts_cons, printParts_singleton, h, Block.print_eq]
    simp only [Part.print, String.append_assoc]

theorem TypeDecl.printParts_parts {d : TypeDecl}
    (h : printParts (partsFrom 0 d.body.statements) = printStatements d.body.statements) :
    printParts d.parts = d.print := by
  have hbody := Block.printParts_parts h
  have hparts : d.parts = .text d.printHead :: d.body.parts := by cases d; rfl
  rw [hparts, printParts_cons, hbody, d.print_eq]
  rfl

theorem MethodDecl.printParts_parts {d : MethodDecl}
    (h : ∀ b, d.body = some b →
      printParts (partsFrom 0 b.statements) = printStatements b.statements) :
    printParts d.parts = d.print := by
  have hparts : d.parts = .text d.printHead ::
      d.body.elim [.text (d.close.text ++ ";")] Block.parts := by
    cases d with
    | mk _ _ _ _ _ _ _ _ body _ => cases body <;> rfl
  rw [hparts, printParts_cons, d.print_eq]
  refine congrArg (d.printHead ++ ·) ?_
  cases hb : d.body with
  | none => exact printParts_singleton _
  | some b => exact Block.printParts_parts (h b hb)

theorem printParts_partsFrom (ss : List Statement) (i : Nat) :
    printParts (partsFrom i ss) = printStatements ss := by
  have hcons : ∀ {s : Statement} {rest : List Statement} (i : Nat),
      printParts s.parts = s.print →
      printParts (partsFrom (i + 1) rest) = printStatements rest →
      printParts (partsFrom i (s :: rest)) = printStatements (s :: rest) := by
    intro s rest i hs hrest
    rw [partsFrom, printParts_append, printParts_under, hs, hrest]
    rfl
  induction ss using statements_induction generalizing i with
  | nil => rfl
  | type d rest hbody hrest => exact hcons i (TypeDecl.printParts_parts (hbody 0)) (hrest _)
  | method d b rest hb hbody hrest =>
    refine hcons i (MethodDecl.printParts_parts fun b' hb' => ?_) (hrest _)
    rw [Option.some.inj (hb'.symm.trans hb)]
    exact hbody 0
  | signature d rest hb hrest =>
    refine hcons i (MethodDecl.printParts_parts fun b' hb' => ?_) (hrest _)
    rw [hb] at hb'
    cases hb'
  | vars d rest hrest => exact hcons i (printParts_singleton _) (hrest _)
  | call c rest hrest => exact hcons i (printParts_singleton _) (hrest _)
  | raw r rest hrest => exact hcons i (printParts_singleton _) (hrest _)

theorem CompilationUnit.printParts_parts (u : CompilationUnit) : printParts u.parts = u.print := by
  rw [parts, printParts_append, printParts_cons, printParts_singleton, printParts_partsFrom]
  simp only [Part.print, print, String.append_assoc]

/-! ## Whole units -/

section Units

variable {μ σ : Type} (vars : VariableDecl → Walk μ σ (Revision VariableDecl))
  (call : Call → Walk μ σ (Revision Call))

/-- The session in which the visits of the statements of a unit begin. -/
def Session.start (own : σ) (u : CompilationUnit) : Session μ σ :=
  { cursor := Cursor.push {} (.unit u), own }

theorem Visitor.run_ofLeaves (own : σ) (u : CompilationUnit) :
    ((ofLeaves vars call).run own u).1 =
      ((ofLeaves vars call).revisionOf u.types (.start own u)).map
        fun types => { u with types } :=
  Walk.run_reveal_fst ..

/-- A traversal shares what it does not change. A unit, and any statement in it, stays the same one
exactly if all leaves in it do. What the new unit has at an address is what the traversal has made
of the statement there: at a leaf, what the visitor has answered, and elsewhere the statement as
it was, but for the statements in its body. What is printed is what was printed, with the text of
the leaves that are replaced changed. -/
theorem traversal_shares_what_is_kept (own : σ) (u : CompilationUnit) :
    let v := Visitor.ofLeaves vars call
    let result := (v.run own u).1
    let new := result.get u
    let became := v.revisionIn u.types (.start own u)
    (result.isKept ↔ LeavesKept u.types became []) ∧
      new = { u with types := new.types } ∧
      (∀ a, statementAt new.types a = (statementAt u.types a).map (became a).get) ∧
      (∀ a s, statementAt u.types a = some s → ((became a).isKept ↔ LeavesKept u.types became a)) ∧
      (∀ a s, statementAt u.types a = some s → ¬ s.isLeaf →
        (became a).get s = s.withInner ((became a).get s).inner) ∧
      (∀ a d, statementAt u.types a = some (.vars d) →
        ∃ session, became a = ((vars d).run session).1.map .vars) ∧
      (∀ a c, statementAt u.types a = some (.call c) →
        ∃ session, became a = ((call c).run session).1.map .call) ∧
      u.print = printParts u.parts ∧
      new.print = printParts (u.parts.map (.revised became)) := by
  intro v result new became
  have hrun : result = (v.revisionOf u.types (.start own u)).map fun types =>
      { u with types := types } := Visitor.run_ofLeaves vars call own u
  have hnew : new = { u with types := (v.revisionOf u.types (.start own u)).get u.types } := by
    have hget := Revision.get_map (f := fun types => { u with types := types }) (a := u.types)
      (r := v.revisionOf u.types (.start own u))
    rwa [← hrun] at hget
  have hvisits := v.map_fst_visits u.types (.start own u)
  have htypes := Visitor.partsFrom_get_revisionOf vars call (v.visits u.types (.start own u)) 0
    became (fun i p hi a => by rw [Nat.zero_add]; exact v.revisionIn_cons hi a)
    fun p _ => Visitor.parts_get_revision vars call p.1 p.2
  rw [hvisits, ← v.get_revisionOf] at htypes
  have hparts : new.parts = u.parts.map (.revised became) := by
    rw [hnew, CompilationUnit.parts, htypes, CompilationUnit.parts, List.map_append]
    rfl
  refine ⟨?_, ?_, ?_, ?_, ?_, ?_, ?_, u.printParts_parts.symm, ?_⟩
  · rw [hrun, Revision.isKept_map]
    exact Visitor.isKept_revisionOf_iff vars call
      fun p _ => Visitor.isKept_revision vars call p.1 p.2
  · rw [hnew]
  · intro a
    rw [hnew]
    exact Visitor.statementAt_get_revisionOf vars call u.types _ a
  · exact fun a s ha => Visitor.isKept_revisionIn vars call _ ha
  · intro a s ha hleaf
    obtain ⟨there, hthere⟩ := Visitor.exists_revisionIn_eq vars call (.start own u) ha
    rw [show became a = _ from hthere, Visitor.inner_get_revision]
    exact Visitor.get_revision_of_not_isLeaf vars call hleaf there
  · intro a d ha
    obtain ⟨there, hthere⟩ := Visitor.exists_revisionIn_eq vars call (.start own u) ha
    exact ⟨{ there with cursor := there.cursor.push (.vars d) }, hthere⟩
  · intro a c ha
    obtain ⟨there, hthere⟩ := Visitor.exists_revisionIn_eq vars call (.start own u) ha
    exact ⟨{ there with cursor := there.cursor.push (.call c) }, hthere⟩
  · rw [← hparts, new.printParts_parts]

end Units

end JavaMigration.Source
