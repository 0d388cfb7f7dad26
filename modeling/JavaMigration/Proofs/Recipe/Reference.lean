import JavaMigration.Proofs.Edit.ImportEdits
import JavaMigration.Proofs.Java.Built
import JavaMigration.Proofs.Recipe.Findings
import JavaMigration.Proofs.Recipe.Outcome

/-!
# What a migration has to do

The migration told without a visitor, type by type from the inside out: the rule fields of a type
lose their annotations, and the last of them is closed in its last after method, or else in a new
one. `Becomes` is this reference, open only in how new code is laid out and which identities it
gets. A migration that reports nothing does just that (`migrate_becomes`).
-/

namespace JavaMigration.Recipe

open Java Source Match Edit

namespace RuleMigration

/-! ## The reference -/

section Reference

variable (m : RuleMigration)

/-- A rule field loses its rule annotations, and what then comes first in it may lose the space
before it. Any other declaration stays. -/
def VarsBecome (d e : VariableDecl) : Prop :=
  if m.isRuleField d then
    let kept := { d with annotations := d.annotations.filter fun a => !m.rule.matchesAnnotation a }
    e = kept ∨ e = kept.clearFirst
  else e = d

/-- Closing a field in a method: one close statement at its end, and the exception in its `throws`
clause unless it is there already. Without a body the method stays. -/
inductive ClosesIn (v : Identifier) (a : MethodDecl) : MethodDecl → Prop
  | bodiless (hbody : a.body = none) : ClosesIn v a a
  | thrown {old new : Block} {ss : List Statement} (hbody : a.body = some old)
      (hshape : m.closeStatement.shape = .statements ss)
      (hnew : old.ExtendedBy (m.closeStatement.fill [.identifier v] ss) new)
      (hthrown : a.thrown.any fun t => hasClassType t.type m.config.exceptionType) :
      ClosesIn v a { a with body := some new }
  | throws {old new : Block} {ss : List Statement} {type : Identifier} (hbody : a.body = some old)
      (hshape : m.closeStatement.shape = .statements ss)
      (hnew : old.ExtendedBy (m.closeStatement.fill [.identifier v] ss) new)
      (hthrown : ¬a.thrown.any fun t => hasClassType t.type m.config.exceptionType)
      (htype : m.thrown.shape = .typeReference type) :
      ClosesIn v a
        { a with body := some new, throws := some (Template.addThrown a.throws type) }

/-- Closing the last rule field of the type `d`, `visited` being the type with all its members
done. -/
inductive Closes (d visited : TypeDecl) : TypeDecl → Prop
  | nothing (hnone : d.ownVars.filter m.isRuleField = []) : Closes d visited visited
  | newMethod {field : VariableDecl} {v : Declarator} {more : List Declarator}
      {ss : List Statement} {body : Block}
      (hfield : (d.ownVars.filter m.isRuleField).getLast? = some field)
      (hfirst : field.declarators = v :: more) (hnone : ∀ s ∈ d.body.statements, ¬m.isAfter s)
      (hshape : m.newMethod.shape = .members ss)
      (hbody : visited.body.ExtendedBy (m.newMethod.fill [.identifier v.name] ss) body) :
      Closes d visited { visited with body }
  | lastMethod {field : VariableDecl} {v : Declarator} {more : List Declarator}
      {a b c : MethodDecl} {before behind front back : List Statement}
      (hfield : (d.ownVars.filter m.isRuleField).getLast? = some field)
      (hfirst : field.declarators = v :: more)
      (hlast : d.body.statements = before ++ .method a :: behind) (hafter : m.isAfterMethod a)
      (hnone : ∀ s ∈ behind, ¬m.isAfter s) (hlength : front.length = before.length)
      (hvisited : visited.body.statements = front ++ .method b :: back)
      (hclosed : m.ClosesIn v.name b c) :
      Closes d visited
        { visited with body := { visited.body with statements := front ++ .method c :: back } }

mutual

/-- What a statement has to become. -/
def Becomes (m : RuleMigration) : Statement → Statement → Prop
  | .type d, t => ∃ e, m.TypeBecomes d e ∧ t = .type e
  | .method d, t => ∃ e, m.MethodBecomes d e ∧ t = .method e
  | .vars d, t => ∃ e, m.VarsBecome d e ∧ t = .vars e
  | .call c, t => t = .call c
  | .raw r, t => t = .raw r
termination_by structural s => s

/-- First everything in the type is done, then its own field is closed. -/
def TypeBecomes (m : RuleMigration) : TypeDecl → TypeDecl → Prop
  | ⟨id, lead, annotations, modifiers, kind, kindLead, name, header, body, type⟩, e =>
    ∃ visited, m.BlockBecomes body visited ∧
      m.Closes ⟨id, lead, annotations, modifiers, kind, kindLead, name, header, body, type⟩
        ⟨id, lead, annotations, modifiers, kind, kindLead, name, header, visited, type⟩ e
termination_by structural d => d

def MethodBecomes (m : RuleMigration) : MethodDecl → MethodDecl → Prop
  | ⟨id, lead, annotations, modifiers, returnType, name, parameters, throws, body, close⟩, e =>
    match body with
    | none =>
      e = ⟨id, lead, annotations, modifiers, returnType, name, parameters, throws, none, close⟩
    | some body =>
      ∃ visited, m.BlockBecomes body visited ∧
        e = ⟨id, lead, annotations, modifiers, returnType, name, parameters, throws, some visited,
          close⟩
termination_by structural d => d

def BlockBecomes (m : RuleMigration) : Block → Block → Prop
  | ⟨lead, statements, close⟩, e => ∃ ss, m.AllBecome statements ss ∧ e = ⟨lead, ss, close⟩
termination_by structural b => b

def AllBecome (m : RuleMigration) : List Statement → List Statement → Prop
  | [], ts => ts = []
  | s :: r, ts => ∃ t more, m.Becomes s t ∧ m.AllBecome r more ∧ ts = t :: more
termination_by structural ss => ss

end

end Reference

variable {m : RuleMigration}

/-! ## Opening the reference -/

theorem typeBecomes_iff {d e : TypeDecl} :
    m.TypeBecomes d e ↔
      ∃ visited, m.BlockBecomes d.body visited ∧ m.Closes d { d with body := visited } e := by
  cases d; rfl

theorem methodBecomes_of_some {d e : MethodDecl} {b : Block} (h : d.body = some b) :
    m.MethodBecomes d e ↔
      ∃ visited, m.BlockBecomes b visited ∧ e = { d with body := some visited } := by
  cases d; subst h; rfl

theorem methodBecomes_of_none {d e : MethodDecl} (h : d.body = none) :
    m.MethodBecomes d e ↔ e = d := by
  cases d; subst h; rfl

theorem blockBecomes_iff {b e : Block} :
    m.BlockBecomes b e ↔
      ∃ ss, m.AllBecome b.statements ss ∧ e = { b with statements := ss } := by
  cases b; rfl

theorem allBecome_nil_iff {ts : List Statement} : m.AllBecome [] ts ↔ ts = [] := Iff.rfl

theorem allBecome_cons_iff {s : Statement} {r ts : List Statement} :
    m.AllBecome (s :: r) ts ↔ ∃ t more, m.Becomes s t ∧ m.AllBecome r more ∧ ts = t :: more :=
  Iff.rfl

/-! ## Identities and places -/

theorem TypeBecomes.id_eq {d e : TypeDecl} (h : m.TypeBecomes d e) : e.id = d.id := by
  obtain ⟨visited, -, hcloses⟩ := typeBecomes_iff.mp h
  cases hcloses <;> rfl

theorem MethodBecomes.id_eq {d e : MethodDecl} (h : m.MethodBecomes d e) : e.id = d.id := by
  cases hb : d.body with
  | none => rw [(methodBecomes_of_none hb).mp h]
  | some b =>
    obtain ⟨visited, -, rfl⟩ := (methodBecomes_of_some hb).mp h
    rfl

theorem id_clearFirst (d : VariableDecl) : d.clearFirst.id = d.id := by
  unfold VariableDecl.clearFirst
  split <;> rfl

theorem VarsBecome.id_eq {d e : VariableDecl} (h : m.VarsBecome d e) : e.id = d.id := by
  unfold VarsBecome at h
  split at h
  · obtain rfl | rfl := h
    · rfl
    · exact id_clearFirst _
  · rw [h]

theorem Becomes.id_eq {s t : Statement} (h : m.Becomes s t) : t.id = s.id := by
  unfold Becomes at h
  split at h
  · obtain ⟨e, he, rfl⟩ := h
    exact TypeBecomes.id_eq he
  · obtain ⟨e, he, rfl⟩ := h
    exact MethodBecomes.id_eq he
  · obtain ⟨e, he, rfl⟩ := h
    exact VarsBecome.id_eq he
  · rw [h]
  · rw [h]

theorem AllBecome.map_id {ss ts : List Statement} (h : m.AllBecome ss ts) :
    ts.map Statement.id = ss.map Statement.id := by
  induction ss generalizing ts with
  | nil => rw [allBecome_nil_iff.mp h]
  | cons s ss ih =>
    obtain ⟨t, more, ht, hmore, rfl⟩ := allBecome_cons_iff.mp h
    rw [List.map_cons, List.map_cons, ih hmore, Becomes.id_eq ht]

/-- What becomes of a statement stands where the statement stood. -/
theorem AllBecome.at {before behind ts : List Statement} {s : Statement}
    (h : m.AllBecome (before ++ s :: behind) ts) :
    ∃ front t back, ts = front ++ t :: back ∧ front.length = before.length ∧ m.Becomes s t := by
  induction before generalizing ts with
  | nil =>
    obtain ⟨t, more, ht, -, rfl⟩ := allBecome_cons_iff.mp h
    exact ⟨[], t, more, rfl, rfl, ht⟩
  | cons b before ih =>
    obtain ⟨u, more, -, hmore, rfl⟩ := allBecome_cons_iff.mp h
    obtain ⟨front, t, back, rfl, hlength, ht⟩ := ih hmore
    exact ⟨u :: front, t, back, rfl, congrArg (· + 1) hlength, ht⟩

/-- Among statements with identities of their own, a search by identity finds the very one. -/
theorem find?_id_eq {front back : List Statement} {t : Statement}
    (h : ((front ++ t :: back).map Statement.id).Nodup) :
    (front ++ t :: back).find? (·.id == t.id) = some t := by
  rw [List.find?_append, List.find?_cons_of_pos (by simp)]
  have hfront : front.find? (·.id == t.id) = none := by
    rw [List.find?_eq_none]
    intro s hs
    rw [List.map_append, List.map_cons] at h
    have hne : s.id ≠ t.id :=
      (List.nodup_append.mp h).2.2 s.id (List.mem_map_of_mem hs) t.id List.mem_cons_self
    simpa using hne
  rw [hfront]
  rfl

theorem replaceById_eq {front back : List Statement} {t : Statement} (new : Statement)
    (h : ((front ++ t :: back).map Statement.id).Nodup) :
    replaceById t.id new (front ++ t :: back) = front ++ new :: back := by
  induction front with
  | nil => exact if_pos rfl
  | cons s front ih =>
    rw [List.cons_append, List.map_cons, List.nodup_cons] at h
    have hne : s.id ≠ t.id := fun heq => h.1 (heq ▸ List.mem_map_of_mem (by simp))
    rw [List.cons_append, replaceById, if_neg hne, ih h.2, List.cons_append]

theorem exists_last_of_filter {α : Type} {p : α → Bool} {as : List α} {a : α}
    (h : (as.filter p).getLast? = some a) :
    ∃ before behind, as = before ++ a :: behind ∧ p a ∧ ∀ b ∈ behind, ¬p b := by
  obtain ⟨init, hinit⟩ := List.getLast?_eq_some_iff.mp h
  obtain ⟨as₁, as₂, rfl, -, has₂⟩ := List.filter_eq_append_iff.mp hinit
  obtain ⟨before, behind, rfl, -, ha, hbehind⟩ := List.filter_eq_cons_iff.mp has₂
  exact ⟨as₁ ++ before, behind, (List.append_assoc _ _ _).symm, ha,
    List.filter_eq_nil_iff.mp hbehind⟩

/-! ## Closing -/

section Closing

variable {μ : Type} {cursor : Cursor μ} {v : Identifier} {imports : List String}
  {members statements : List Statement} {type : Identifier}

theorem closesIn_of_closeIn {a c : MethodDecl}
    (hshape : m.closeStatement.shape = .statements statements)
    (htype : m.thrown.shape = .typeReference type)
    (h : m.closeIn a v cursor = .ok (c, imports)) : m.ClosesIn v a c := by
  unfold closeIn at h
  cases hclose : m.closeStatement.apply (cursor.push (.method a)) .last [.identifier v] with
  | error fault => rw [hclose] at h; cases h
  | ok node =>
    obtain ⟨old, ss, new, hold, hss, hnew, -, rfl⟩ := Template.apply_method_ok rfl hclose
    have hfill : m.closeStatement.fill [.identifier v] statements = ss := by
      unfold Template.asStatements? at hss
      rw [hshape] at hss
      exact Option.some.inj hss
    rw [← hfill] at hnew
    let closed : MethodDecl := { a with body := some new }
    simp only [hclose, bind, Except.bind] at h
    by_cases hin : a.thrown.any fun t => hasClassType t.type m.config.exceptionType
    · have hclosed : closed.thrown.any fun t => hasClassType t.type m.config.exceptionType := hin
      rw [if_pos hclosed] at h
      cases h
      exact .thrown hold hshape hnew hin
    · have hclosed : ¬closed.thrown.any fun t => hasClassType t.type m.config.exceptionType := hin
      rw [if_neg hclosed] at h
      cases hthrows : m.thrown.apply (cursor.push (.method closed)) .throws [] with
      | error fault => rw [hthrows] at h; cases h
      | ok node =>
        obtain ⟨ident, hident, rfl⟩ := Template.apply_throws_ok rfl hthrows
        rw [htype] at hident
        cases hident
        rw [hthrows] at h
        cases h
        exact .throws hold hshape hnew hin htype

/-- Closing a field in the members that are done gives what the reference asks for. -/
theorem closes_of_closeField {d : TypeDecl} {body : Block} {field : VariableDecl} {w : Declarator}
    {more : List Declarator} {e : TypeDecl} (hd : d.Regular) (hbody : m.BlockBecomes d.body body)
    (hfield : (d.ownVars.filter m.isRuleField).getLast? = some field)
    (hfirst : field.declarators = w :: more)
    (hcursor : cursor.path.head? = some (.type { d with body }))
    (hmembers : m.newMethod.shape = .members members)
    (hstatements : m.closeStatement.shape = .statements statements)
    (htype : m.thrown.shape = .typeReference type)
    (h : m.closeField { d with body } w.name (methodFound (m.findingsInBlock d.body)) cursor =
      .ok (e, imports)) :
    m.Closes d { d with body } e := by
  obtain ⟨ts, hts, rfl⟩ := blockBecomes_iff.mp hbody
  have hids := hts.map_id
  obtain ⟨hnodup, -⟩ := Block.regular_iff.mp (TypeDecl.regular_iff.mp hd)
  rw [m.methodFound_findingsInBlock hd, List.getLast?_map] at h
  unfold closeField at h
  cases hlast : (d.body.statements.filter m.isAfter).getLast? with
  | none =>
    have hnone := List.filter_eq_nil_iff.mp (List.getLast?_eq_none_iff.mp hlast)
    rw [hlast] at h
    cases happly : m.newMethod.apply cursor .last [.identifier w.name] with
    | error fault => simp [happly, bind, Except.bind] at h
    | ok node =>
      obtain ⟨new, closed, hnew, hclosed, -, rfl⟩ := Template.apply_type_ok hcursor happly
      have hfill : m.newMethod.fill [.identifier w.name] members = new := by
        unfold Template.asMembers? at hnew
        rw [hmembers] at hnew
        exact Option.some.inj hnew
      rw [← hfill] at hclosed
      simp only [happly, bind, Except.bind, Option.map_none] at h
      cases h
      exact .newMethod hfield hfirst hnone hmembers hclosed
  | some s =>
    obtain ⟨before, behind, hsplit, hafter, hnone⟩ := exists_last_of_filter hlast
    cases s with
    | method a =>
      rw [hsplit] at hts
      obtain ⟨front, t, back, rfl, hlength, ht⟩ := hts.at
      have hid : t.id = a.id := ht.id_eq
      obtain ⟨b, hb, rfl⟩ := ht
      have hnodup' : ((front ++ .method b :: back).map Statement.id).Nodup := hids ▸ hnodup
      have hfind : (front ++ .method b :: back).find? (·.id == a.id) = some (.method b) :=
        hid ▸ find?_id_eq hnodup'
      rw [hlast, show (some (Statement.method a)).map Statement.id = some a.id from rfl] at h
      simp only [hfind] at h
      by_cases hbodiless : b.body.isNone
      · rw [if_pos hbodiless] at h
        cases h
        have hstay := ClosesIn.bodiless (m := m) (v := w.name) (Option.isNone_iff_eq_none.mp hbodiless)
        exact .lastMethod hfield hfirst hsplit hafter hnone hlength rfl hstay
      · rw [if_neg hbodiless] at h
        cases hclose : m.closeIn b w.name cursor with
        | error fault => simp [hclose, bind, Except.bind] at h
        | ok result =>
          obtain ⟨c, added⟩ := result
          have hclosed := closesIn_of_closeIn hstatements htype hclose
          have hreplace := replaceById_eq (.method c) hnodup'
          rw [show (Statement.method b).id = a.id from hid] at hreplace
          simp only [hclose, bind, Except.bind, hreplace] at h
          cases h
          exact .lastMethod hfield hfirst hsplit hafter hnone hlength rfl hclosed
    | _ => cases hafter

end Closing

/-! ## Every migration -/

theorem varsBecome_rewriteVars (m : RuleMigration) (d : VariableDecl) :
    m.VarsBecome d ((m.rewriteVars d).get d) := by
  unfold VarsBecome rewriteVars
  by_cases h : m.isRuleField d
  · rw [if_pos h, if_pos h, Revision.get]
    unfold unmarked VariableDecl.retainAnnotations
    extract_lets kept
    split
    · exact .inr rfl
    · exact .inl rfl
  · rw [if_neg h, if_neg h]
    rfl

section Rewriting

variable (m : RuleMigration) {members statements : List Statement} {type : Identifier}
  (hmembers : m.newMethod.shape = .members members)
  (hstatements : m.closeStatement.shape = .statements statements)
  (htype : m.thrown.shape = .typeReference type)

/-- No type at the sites fails. -/
def Faultless (sites : List (List Node × TypeDecl)) : Prop :=
  ∀ site ∈ sites, fault? (m.outcome site.1 site.2) = none

include hmembers hstatements htype in
/-- Settling a type whose members are done and that does not fail. -/
theorem typeBecomes_rewriteType {above : List Node} {d : TypeDecl} (hd : d.Regular)
    (hfault : fault? (m.outcome above d) = none)
    (hbody : m.BlockBecomes d.body ((m.rewriteBlock (.type d :: above) d.body).get d.body)) :
    m.TypeBecomes d ((m.rewriteType above d).get d) := by
  rw [typeBecomes_iff]
  refine ⟨_, hbody, ?_⟩
  let body := (m.rewriteBlock (.type d :: above) d.body).get d.body
  have hvisited : ((m.rewriteBlock (.type d :: above) d.body).map
      fun body => { d with body }).get d = { d with body } := get_map_body d _
  have hout : m.outcome above d = m.closing above (m.findingsInBlock d.body) { d with body } := by
    rw [outcome_eq, hvisited]
  rw [rewriteType_outcome]
  obtain ⟨hnil, hnone⟩ | ⟨field, v, more, hfield, hfirst, hsome⟩ := m.fieldFound_cases hd
  · rw [hout, closing, hnone]
    show m.Closes d { d with body } (Revision.get _ d)
    rw [Option.map_none, settle, hvisited]
    exact .nothing hnil
  · rw [closing, hsome, Option.map_some] at hout
    cases hclose : m.closeField { d with body } v.name (methodFound (m.findingsInBlock d.body))
        (Cursor.ofPath (.type { d with body } :: above) : Cursor Finding) with
    | error fault =>
      rw [hout, hclose] at hfault
      cases hfault
    | ok result =>
      rw [hout, hclose]
      exact closes_of_closeField hd hbody hfield hfirst (by rw [Cursor.path_ofPath]; rfl) hmembers
        hstatements htype hclose

mutual

theorem becomes_rewrite (m : RuleMigration) (hmembers : m.newMethod.shape = .members members)
    (hstatements : m.closeStatement.shape = .statements statements)
    (htype : m.thrown.shape = .typeReference type) (above : List Node) :
    ∀ s : Statement, s.Regular → m.Faultless (s.sites above) →
      m.Becomes s ((m.rewrite above s).get s)
  | .type d, hd, hfault =>
    ⟨_, becomes_rewriteType m hmembers hstatements htype above d hd hfault, Revision.get_map⟩
  | .method d, hd, hfault =>
    ⟨_, becomes_rewriteMethod m hmembers hstatements htype above d hd hfault, Revision.get_map⟩
  | .vars d, _, _ => ⟨_, varsBecome_rewriteVars m d, Revision.get_map⟩
  | .call _, _, _ => rfl
  | .raw _, _, _ => rfl

theorem becomes_rewriteType (m : RuleMigration) (hmembers : m.newMethod.shape = .members members)
    (hstatements : m.closeStatement.shape = .statements statements)
    (htype : m.thrown.shape = .typeReference type) (above : List Node) :
    ∀ d : TypeDecl, d.Regular → m.Faultless (d.sites above) →
      m.TypeBecomes d ((m.rewriteType above d).get d)
  | ⟨id, lead, annotations, modifiers, kind, kindLead, name, header, body, type⟩, hd, hfault => by
    let d : TypeDecl :=
      ⟨id, lead, annotations, modifiers, kind, kindLead, name, header, body, type⟩
    refine m.typeBecomes_rewriteType hmembers hstatements htype (d := d) hd
      (hfault (above, d) (List.mem_append_right _ List.mem_cons_self)) ?_
    exact becomes_rewriteBlock m hmembers hstatements htype (.type d :: above) body hd
      fun site hsite => hfault site (List.mem_append_left _ hsite)

theorem becomes_rewriteMethod (m : RuleMigration) (hmembers : m.newMethod.shape = .members members)
    (hstatements : m.closeStatement.shape = .statements statements)
    (htype : m.thrown.shape = .typeReference type) (above : List Node) :
    ∀ d : MethodDecl, d.Regular → m.Faultless (d.sites above) →
      m.MethodBecomes d ((m.rewriteMethod above d).get d)
  | ⟨_, _, _, _, _, _, _, _, none, _⟩, _, _ => rfl
  | ⟨id, lead, annotations, modifiers, returnType, name, parameters, throws, some body, close⟩,
      hd, hfault => by
    let d : MethodDecl :=
      ⟨id, lead, annotations, modifiers, returnType, name, parameters, throws, some body, close⟩
    rw [methodBecomes_of_some (d := d) rfl, m.rewriteMethod_eq above (d := d) rfl]
    exact ⟨_, becomes_rewriteBlock m hmembers hstatements htype (.method d :: above) body hd.1 hfault,
      Revision.get_map (f := fun body => { d with body := some body }) (a := body)⟩

theorem becomes_rewriteBlock (m : RuleMigration) (hmembers : m.newMethod.shape = .members members)
    (hstatements : m.closeStatement.shape = .statements statements)
    (htype : m.thrown.shape = .typeReference type) (above : List Node) :
    ∀ b : Block, b.Regular → m.Faultless (b.sites above) →
      m.BlockBecomes b ((m.rewriteBlock above b).get b)
  | ⟨lead, statements, close⟩, hb, hfault => by
    let b : Block := ⟨lead, statements, close⟩
    rw [blockBecomes_iff, m.rewriteBlock_eq above b]
    exact ⟨_, becomes_rewriteAll m hmembers hstatements htype (.block b :: above) statements hb.2
      hfault, Revision.get_map (f := fun statements => { b with statements }) (a := statements)⟩

theorem becomes_rewriteAll (m : RuleMigration) (hmembers : m.newMethod.shape = .members members)
    (hstatements : m.closeStatement.shape = .statements statements)
    (htype : m.thrown.shape = .typeReference type) (above : List Node) :
    ∀ ss : List Statement, AllRegular ss → m.Faultless (sitesOf above ss) →
      m.AllBecome ss ((m.rewriteAll above ss).get ss)
  | [], _, _ => rfl
  | s :: rest, hss, hfault => by
    have hs := becomes_rewrite m hmembers hstatements htype above s hss.1
      fun site hsite => hfault site (List.mem_append_left _ hsite)
    have hrest := becomes_rewriteAll m hmembers hstatements htype above rest hss.2
      fun site hsite => hfault site (List.mem_append_right _ hsite)
    rw [allBecome_cons_iff, rewriteAll_cons]
    refine ⟨_, _, hs, hrest, ?_⟩
    cases m.rewrite above s <;> cases m.rewriteAll above rest <;> rfl

end

end Rewriting

end RuleMigration

end JavaMigration.Recipe
