import JavaMigration.Proofs.Recipe.Meaning
import JavaMigration.Proofs.Source.Walk

/-!
# Visits compute the migration

A visit answers `rewrite`, delivers `findings` and enters `verdicts`, whatever the cursor and
the progress were before (`run_visitStatement`). From it follows what a whole unit becomes
(`migrate_eq`).
-/

namespace JavaMigration.Recipe

open Java Source Match Edit

namespace RuleMigration

variable (m : RuleMigration) (file : String)

/-! ## One node -/

theorem run_visitVariables (d : VariableDecl) (frames : List (Frame Finding)) (p : Progress) :
    (m.visitVariables d).run ⟨⟨frames⟩, p⟩ =
      (m.rewriteVars d, ⟨⟨deliver .type (m.fieldFindings d) frames⟩, p⟩) := by
  have hstripped : d.retainAnnotations (fun a => !m.rule.matchesAnnotation a) = m.unmarked d := rfl
  unfold visitVariables rewriteVars fieldFindings isRuleField
  rw [hstripped]
  by_cases htracked : m.tracked.matchesVariables d
  · by_cases hrule : d.annotations.any m.rule.matchesAnnotation
    · have hlen : ¬(m.unmarked d).annotations.length = d.annotations.length := by
        rw [length_unmarked_iff, hrule]
        exact Bool.noConfusion
      simp only [htracked, hrule, hlen, declarators_unmarked]
      cases d.declarators.head? with
      | none => simp; rfl
      | some v =>
        exact congrArg (Prod.mk (Revision.replaced (m.unmarked d)))
          (Walk.run_post .type fieldKey (Finding.field v.name) frames p)
    · have hlen : (m.unmarked d).annotations.length = d.annotations.length := by
        rw [length_unmarked_iff]
        simpa using hrule
      simp [htracked, hrule, hlen]
      rfl
  · simp [htracked]
    rfl

/-- Visiting a method adds its own finding to those of its body. -/
theorem run_visitMethod {d : MethodDecl} (found : List (String × Finding))
    {walk : Migrating (Revision MethodDecl)} {frames : List (Frame Finding)} {p q : Progress}
    (visited : Revision MethodDecl) {f : Frame Finding} (hf : f.node.kind ≠ .type)
    (hsame : (visited.get d).annotations = d.annotations)
    (hwalk : walk.run ⟨⟨{ node := .method d } :: frames⟩, p⟩ =
      (visited, ⟨⟨f :: deliver .type found frames⟩, q⟩)) :
    (Walk.attach (.method d) (m.visitMethod d walk)).run ⟨⟨frames⟩, p⟩ =
      (visited, ⟨⟨deliver .type (found ++ m.methodFinding d) frames⟩, q⟩) := by
  rw [Walk.run_attach, deliver_append]
  unfold visitMethod methodFinding isAfterMethod
  simp only [Walk.run_bind, hwalk, hsame]
  by_cases h : d.annotations.any m.after.matchesAnnotation
  · simp only [h, if_true, Walk.run_bind, Walk.run_post, deliver_cons_ne hf]
    rfl
  · rw [if_neg h, if_neg h, deliver_nil]
    rfl

theorem closeField_congr {μ ν : Type} {c : Cursor μ} {c' : Cursor ν} (h : c.path = c'.path)
    (d : TypeDecl) (field : Identifier) (method : Option StatementId) :
    m.closeField d field method c = m.closeField d field method c' := by
  have hpush : ∀ n, (c.push n).path = (c'.push n).path := fun n => congrArg (n :: ·) h
  have hclose : ∀ md, m.closeIn md field c = m.closeIn md field c' := by
    intro md
    unfold closeIn
    simp only [Template.apply_congr _ (hpush _)]
  unfold closeField
  simp only [hclose, Template.apply_congr _ h]

theorem lookup_putAll_nil (node : Node) (found : List (String × Finding)) (key : String) :
    (Frame.putAll { node } found).mail.lookup key = latest key found := by
  rw [Frame.lookup_putAll]
  exact Option.or_none

/-- Visiting a type settles it by what was found in it. -/
theorem run_visitType {d : TypeDecl} (found : List (String × Finding))
    {walk : Migrating (Revision TypeDecl)} {frames : List (Frame Finding)} {p : Progress}
    {visited : Revision TypeDecl} {inside : List Verdict}
    (hwalk : walk.run ⟨⟨{ node := .type d } :: frames⟩, p⟩ =
      (visited, ⟨⟨{ Frame.putAll { node := .type d } found with
        node := .type (visited.get d) } :: frames⟩, m.record file p inside⟩)) :
    (Walk.attach (.type d) (m.visitType file d walk)).run ⟨⟨frames⟩, p⟩ =
      let outcome := m.closing (frames.map (·.node)) found (visited.get d)
      (settle visited outcome, ⟨⟨frames⟩, m.record file p (withVerdict d inside outcome)⟩) := by
  rw [Walk.run_attach]
  unfold visitType
  simp only [Walk.run_bind, Walk.run_own, hwalk, Walk.run_poll]
  rw [lookup_filter_ne (by decide), lookup_putAll_nil, lookup_putAll_nil]
  unfold closing fieldFound methodFound
  cases hfield : (latest fieldKey found).bind Finding.field? with
  | none => rfl
  | some field =>
    have hclose : ∀ c : Cursor Finding,
        c.path = Node.type (visited.get d) :: frames.map (·.node) →
        m.closeField (visited.get d) field ((latest afterMethodKey found).bind Finding.afterMethod?)
            c =
          m.closeField (visited.get d) field
            ((latest afterMethodKey found).bind Finding.afterMethod?)
            (Cursor.ofPath (.type (visited.get d) :: frames.map (·.node)) : Cursor Finding) :=
      fun c hc => m.closeField_congr (hc.trans (Cursor.path_ofPath _).symm) _ _ _
    simp only [Option.map_some, Walk.run_bind, Walk.run_cursor]
    rw [hclose _ rfl]
    generalize m.closeField _ field _ _ = outcome
    cases outcome with
    | ok closed =>
      simp only [withVerdict, record_append]
      rfl
    | error fault =>
      simp only [withVerdict, record_append, record_failures]
      rfl

/-! ## The whole tree -/

/-- The session after a visit: the findings delivered, the verdicts entered. -/
def sessionAfter (file : String) (frames : List (Frame Finding)) (p : Progress)
    (found : List (String × Finding)) (vs : List Verdict) : Session Finding Progress :=
  ⟨⟨deliver .type found frames⟩, m.record file p vs⟩

mutual

/-- A visit answers what becomes of the statement, delivers its findings and enters its
verdicts, whatever the cursor and the progress were before. -/
theorem run_visitStatement (m : RuleMigration) (file : String) :
    ∀ (s : Statement) (frames : List (Frame Finding)) (p : Progress),
      ((m.visitor file).visitStatement s).run ⟨⟨frames⟩, p⟩ =
        (m.rewrite (frames.map (·.node)) s,
          m.sessionAfter file frames p (m.findings s) (m.verdicts (frames.map (·.node)) s))
  | .type d, frames, p => by
    unfold Visitor.visitStatement
    rw [Walk.run_bind, run_visitTypeDecl m file d frames p]
    unfold sessionAfter findings
    rw [deliver_nil]
    rfl
  | .method d, frames, p => by
    unfold Visitor.visitStatement
    rw [Walk.run_bind, run_visitMethodDecl m file d frames p]
    rfl
  | .vars d, frames, p => by
    have hkind : (Node.vars d).kind ≠ .type := nofun
    have hvars : (m.visitor file).vars d = m.visitVariables d := rfl
    unfold Visitor.visitStatement
    rw [Walk.run_bind, Walk.run_attach, hvars, run_visitVariables,
      deliver_cons_ne (f := { node := .vars d }) hkind]
    rfl
  | .call c, frames, p => by
    rw [sessionAfter, show m.findings (.call c) = [] from rfl, deliver_nil]
    rfl
  | .raw r, frames, p => by
    rw [sessionAfter, show m.findings (.raw r) = [] from rfl, deliver_nil]
    rfl

theorem run_visitTypeDecl (m : RuleMigration) (file : String) :
    ∀ (d : TypeDecl) (frames : List (Frame Finding)) (p : Progress),
      ((m.visitor file).visitType d).run ⟨⟨frames⟩, p⟩ =
        (m.rewriteType (frames.map (·.node)) d,
          ⟨⟨frames⟩, m.record file p (m.verdictsOnType (frames.map (·.node)) d)⟩)
  | ⟨id, lead, annotations, modifiers, kind, kindLead, name, header, body, type⟩, frames, p => by
    let d : TypeDecl :=
      ⟨id, lead, annotations, modifiers, kind, kindLead, name, header, body, type⟩
    rw [Visitor.visitType_eq]
    refine m.run_visitType file (d := d) (m.findingsInBlock body) ?_
    rw [Walk.run_bind, run_visitBlock m file body]
    exact Walk.run_reveal Node.type d
      (Frame.node_putAll { node := .type d } (m.findingsInBlock body)) _ frames _

theorem run_visitMethodDecl (m : RuleMigration) (file : String) :
    ∀ (d : MethodDecl) (frames : List (Frame Finding)) (p : Progress),
      ((m.visitor file).visitMethod d).run ⟨⟨frames⟩, p⟩ =
        (m.rewriteMethod (frames.map (·.node)) d,
          m.sessionAfter file frames p (m.findingsInMethod d)
            (m.verdictsInMethod (frames.map (·.node)) d))
  | ⟨id, lead, annotations, modifiers, returnType, name, parameters, throws, none, close⟩,
      frames, p => by
    let d : MethodDecl :=
      ⟨id, lead, annotations, modifiers, returnType, name, parameters, throws, none, close⟩
    have hkind : (Node.method d).kind ≠ .type := nofun
    rw [Visitor.visitMethod_of_none _ rfl]
    refine m.run_visitMethod (d := d) [] _ (f := { node := .method d }) hkind rfl ?_
    rw [deliver_nil]
    rfl
  | ⟨id, lead, annotations, modifiers, returnType, name, parameters, throws, some body, close⟩,
      frames, p => by
    let d : MethodDecl :=
      ⟨id, lead, annotations, modifiers, returnType, name, parameters, throws, some body, close⟩
    let visited := m.rewriteMethod (frames.map (·.node)) d
    have hkind : ∀ d, (Node.method d).kind ≠ .type := fun _ => nofun
    rw [Visitor.visitMethod_of_some _ rfl]
    refine m.run_visitMethod (d := d) (m.findingsInBlock body) visited
      (f := { node := .method (visited.get d) }) (hkind _)
      (m.annotations_rewriteMethod _ d) ?_
    rw [Walk.run_bind, run_visitBlock m file body, sessionAfter,
      deliver_cons_ne (f := { node := .method d }) (hkind d)]
    exact Walk.run_reveal Node.method d rfl _ _ _

theorem run_visitBlock (m : RuleMigration) (file : String) :
    ∀ (b : Block) (frames : List (Frame Finding)) (p : Progress),
      ((m.visitor file).visitBlock b).run ⟨⟨frames⟩, p⟩ =
        (m.rewriteBlock (frames.map (·.node)) b,
          m.sessionAfter file frames p (m.findingsInBlock b)
            (m.verdictsInBlock (frames.map (·.node)) b))
  | ⟨lead, statements, close⟩, frames, p => by
    let b : Block := ⟨lead, statements, close⟩
    have hblock : ∀ walk, (m.visitor file).block b walk = walk := fun _ => rfl
    have hkind : (Node.block b).kind ≠ .type := nofun
    rw [Visitor.visitBlock_eq, hblock, Walk.run_attach, Walk.run_bind,
      run_visitStatements m file statements, sessionAfter,
      deliver_cons_ne (f := { node := .block b }) hkind, Walk.run_reveal Node.block b rfl]
    rfl

theorem run_visitStatements (m : RuleMigration) (file : String) :
    ∀ (ss : List Statement) (frames : List (Frame Finding)) (p : Progress),
      ((m.visitor file).visitStatements ss).run ⟨⟨frames⟩, p⟩ =
        (m.rewriteAll (frames.map (·.node)) ss,
          m.sessionAfter file frames p (m.allFindings ss) (m.allVerdicts (frames.map (·.node)) ss))
  | [], frames, p => by
    rw [sessionAfter, show m.allFindings [] = [] from rfl, deliver_nil]
    rfl
  | s :: rest, frames, p => by
    unfold Visitor.visitStatements
    rw [Walk.run_bind, run_visitStatement m file s, Walk.run_bind, sessionAfter,
      run_visitStatements m file rest, sessionAfter, sessionAfter, map_node_deliver,
      rewriteAll_cons, allFindings_cons, allVerdicts_cons, deliver_append, record_append]
    cases m.rewrite (frames.map (·.node)) s <;>
      cases m.rewriteAll (frames.map (·.node)) rest <;> rfl

end

/-! ## The unit -/

/-- The unit with its types rewritten and its imports as they were. -/
def rewriteUnit (u : CompilationUnit) : Revision CompilationUnit :=
  (m.rewriteAll [.unit u] u.types).map fun types => { u with types }

/-- The progress when all types of a unit have been visited. -/
def progress (u : CompilationUnit) : Progress :=
  m.record u.path {} (m.allVerdicts [.unit u] u.types)

theorem run_visitUnit (u : CompilationUnit) (walk : Migrating (Revision CompilationUnit))
    {s t : Session Finding Progress} {visited : Revision CompilationUnit}
    (hs : s.own = {}) (hwalk : walk.run s = (visited, t)) :
    (visitUnit u walk).run s =
      (match t.own.imports.apply (visited.get u) with
        | .kept => visited
        | .replaced new => .replaced new, t) := by
  have hreset : (setImports {}).run s = ((), s) := by
    cases s
    subst hs
    rfl
  unfold visitUnit
  rw [Walk.run_bind, hreset, Walk.run_bind, hwalk, Walk.run_bind, Walk.run_own]
  cases t.own.imports.apply (visited.get u) <;> rfl

/-- What becomes of a unit: its types are rewritten, and the import edits that the progress holds
in the end are made. -/
theorem run_visitor (u : CompilationUnit) :
    (m.visitor u.path).run {} u =
      (match (m.progress u).imports.apply ((m.rewriteUnit u).get u) with
        | .kept => m.rewriteUnit u
        | .replaced new => .replaced new, m.progress u) := by
  let walk : Migrating (Revision CompilationUnit) := do
    Walk.reveal Node.unit
      ((← (m.visitor u.path).visitStatements u.types).map fun types => { u with types })
  have hwalk : walk.run ⟨⟨[{ node := .unit u }]⟩, {}⟩ =
      (m.rewriteUnit u, ⟨⟨[{ Frame.putAll { node := .unit u } [] with
        node := .unit ((m.rewriteUnit u).get u) }]⟩, m.progress u⟩) := by
    unfold walk
    rw [Walk.run_bind, run_visitStatements]
    exact Walk.run_reveal Node.unit u rfl _ _ _
  have hrun := run_visitUnit u walk rfl hwalk
  have hvisitor : (m.visitor u.path).run {} u =
      (((visitUnit u walk).run ⟨⟨[{ node := .unit u }]⟩, {}⟩).1,
        ((visitUnit u walk).run ⟨⟨[{ node := .unit u }]⟩, {}⟩).2.own) := rfl
  rw [hvisitor, hrun]

theorem migrate_eq (u : CompilationUnit) :
    m.migrate u =
      (match (m.progress u).imports.apply ((m.rewriteUnit u).get u) with
        | .kept => m.rewriteUnit u
        | .replaced new => .replaced new, (m.progress u).diagnostics) := by
  unfold migrate
  rw [run_visitor]

end RuleMigration

end JavaMigration.Recipe
