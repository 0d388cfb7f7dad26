import JavaMigration.Proofs.Recipe.Traversal

/-!
# The types of a tree and what becomes of them

Each type of a unit stands at a site, below a chain of other nodes. How closing the field of a
type ends depends on the site alone (`outcome`), and the verdicts that a run records can be read
off the sites.
-/

namespace JavaMigration.Source

/-! ## The types of a tree -/

mutual

/-- The types in a statement, each with the nodes above it, in the order in which their visits
end. -/
def Statement.sites (above : List Node) : Statement → List (List Node × TypeDecl)
  | .type d => d.sites above
  | .method d => d.sites above
  | .vars _ => []
  | .call _ => []
  | .raw _ => []

def TypeDecl.sites (above : List Node) : TypeDecl → List (List Node × TypeDecl)
  | ⟨id, lead, annotations, modifiers, kind, kindLead, name, header, body, type⟩ =>
    let d : TypeDecl :=
      ⟨id, lead, annotations, modifiers, kind, kindLead, name, header, body, type⟩
    body.sites (.type d :: above) ++ [(above, d)]

def MethodDecl.sites (above : List Node) : MethodDecl → List (List Node × TypeDecl)
  | ⟨id, lead, annotations, modifiers, returnType, name, parameters, throws, body, close⟩ =>
    let d : MethodDecl :=
      ⟨id, lead, annotations, modifiers, returnType, name, parameters, throws, body, close⟩
    match body with
    | none => []
    | some body => body.sites (.method d :: above)

def Block.sites (above : List Node) : Block → List (List Node × TypeDecl)
  | ⟨lead, statements, close⟩ => sitesOf (.block ⟨lead, statements, close⟩ :: above) statements

def sitesOf (above : List Node) : List Statement → List (List Node × TypeDecl)
  | [] => []
  | s :: r => s.sites above ++ sitesOf above r

end

/-- The types of a unit, at any depth. -/
def CompilationUnit.sites (u : CompilationUnit) : List (List Node × TypeDecl) :=
  sitesOf [.unit u] u.types

theorem TypeDecl.sites_eq (above : List Node) (d : TypeDecl) :
    d.sites above = d.body.sites (.type d :: above) ++ [(above, d)] := by
  cases d; rfl

theorem Block.sites_eq (above : List Node) (b : Block) :
    b.sites above = sitesOf (.block b :: above) b.statements := by
  cases b; rfl

theorem sitesOf_type (above : List Node) (d : TypeDecl) (rest : List Statement) :
    sitesOf above (.type d :: rest) =
      sitesOf (.block d.body :: .type d :: above) d.body.statements ++
        (above, d) :: sitesOf above rest := by
  show d.sites above ++ sitesOf above rest = _
  rw [TypeDecl.sites_eq, Block.sites_eq, List.append_assoc, List.singleton_append]

theorem sitesOf_method (above : List Node) {d : MethodDecl} {b : Block} (h : d.body = some b)
    (rest : List Statement) :
    sitesOf above (.method d :: rest) =
      sitesOf (.block b :: .method d :: above) b.statements ++ sitesOf above rest := by
  cases d; subst h; cases b; rfl

theorem sitesOf_signature (above : List Node) {d : MethodDecl} (h : d.body = none)
    (rest : List Statement) : sitesOf above (.method d :: rest) = sitesOf above rest := by
  cases d; subst h; rfl

end JavaMigration.Source

namespace JavaMigration.Recipe

open Java Source Match Edit

namespace RuleMigration

variable (m : RuleMigration)

/-! ## What the visit of a type comes to -/

/-- The visit of a type up to the point where its field is closed; nothing if there is none. -/
def attempt (path : String) (d : TypeDecl) :
    Migrating (Option (Except ApplyFault (TypeDecl × List String))) := do
  let visited ← Walk.reveal .type
    ((← (m.visitor path).visitBlock d.body).map fun body => { d with body })
  let field ← Walk.poll Finding.field? fieldKey
  let method ← Walk.poll Finding.afterMethod? afterMethodKey
  match field with
  | none => return none
  | some field => return some (m.closeField (visited.get d) field method (← Walk.cursor))

/-- How closing the field of a type ends, where `above` are the nodes above the type. -/
def outcome (above : List Node) (d : TypeDecl) :
    Option (Except ApplyFault (TypeDecl × List String)) :=
  ((m.attempt "" d).run ⟨Cursor.ofPath (.type d :: above), {}⟩).1

/-- The import edits of a type in which a field was closed. -/
def imports? : Option (Except ApplyFault (TypeDecl × List String)) → Option (List String)
  | some (.ok (_, imports)) => some imports
  | _ => none

def fault? : Option (Except ApplyFault (TypeDecl × List String)) → Option ApplyFault
  | some (.error fault) => some fault
  | _ => none

/-- The report of a type that fails. -/
def diagnosticAt (path : String) (site : List Node × TypeDecl) : Option Diagnostic :=
  (fault? (m.outcome site.1 site.2)).map fun fault => ⟨path, site.2.name.name, fault.message⟩

/-- The members of a type have been visited, and its findings are in its mailbox. -/
theorem run_members (path : String) (d : TypeDecl) (frames : List (Frame Finding)) (p : Progress) :
    let above := frames.map (·.node)
    let visited := (m.rewriteBlock (.type d :: above) d.body).map fun body => { d with body }
    (do Walk.reveal Node.type ((← (m.visitor path).visitBlock d.body).map fun body =>
          { d with body }) : Migrating (Revision TypeDecl)).run
        ⟨⟨{ node := .type d } :: frames⟩, p⟩ =
      (visited, ⟨⟨{ Frame.putAll { node := .type d } (m.findingsInBlock d.body) with
        node := .type (visited.get d) } :: frames⟩,
        m.record path p (m.verdictsInBlock (.type d :: above) d.body)⟩) := by
  intro above visited
  have hkind : (Node.type d).kind = .type := rfl
  rw [Walk.run_bind, run_visitBlock, sessionAfter,
    deliver_cons_self (f := { node := .type d }) hkind]
  exact Walk.run_reveal Node.type d (Frame.node_putAll _ _) _ _ _

/-- Neither mail nor progress matters for how closing a field ends. -/
theorem run_attempt (path : String) (d : TypeDecl) (frames : List (Frame Finding)) (p : Progress) :
    ((m.attempt path d).run ⟨⟨{ node := .type d } :: frames⟩, p⟩).1 =
      m.closing (frames.map (·.node)) (m.findingsInBlock d.body)
        (((m.rewriteBlock (.type d :: frames.map (·.node)) d.body).map
          fun body => { d with body }).get d) := by
  unfold attempt
  rw [← bind_assoc, Walk.run_bind, run_members, Walk.run_bind, Walk.run_poll, Walk.run_bind,
    Walk.run_poll, lookup_putAll_nil, lookup_filter_ne (by decide), lookup_putAll_nil]
  unfold closing fieldFound methodFound
  cases (latest fieldKey (m.findingsInBlock d.body)).bind Finding.field? with
  | none => rfl
  | some field => exact congrArg some (m.closeField_congr (Cursor.path_ofPath _).symm _ _ _)

theorem outcome_eq (above : List Node) (d : TypeDecl) :
    m.outcome above d = m.closing above (m.findingsInBlock d.body)
      (((m.rewriteBlock (.type d :: above) d.body).map fun body => { d with body }).get d) := by
  have hrun := m.run_attempt "" d (above.map fun node => { node }) {}
  have hpath : (above.map fun node => ({ node } : Frame Finding)).map (·.node) = above := by
    rw [List.map_map]
    exact List.map_id' above
  rw [hpath] at hrun
  exact hrun

theorem get_map_body (d : TypeDecl) (r : Revision Block) :
    (r.map fun body => { d with body }).get d = { d with body := r.get d.body } := by
  cases d; cases r <;> rfl

theorem rewriteType_outcome (above : List Node) (d : TypeDecl) :
    m.rewriteType above d =
      settle ((m.rewriteBlock (.type d :: above) d.body).map fun body => { d with body })
        (m.outcome above d) := by
  rw [rewriteType_eq, outcome_eq]

theorem verdictsOnType_outcome (above : List Node) (d : TypeDecl) :
    m.verdictsOnType above d =
      withVerdict d (m.verdictsInBlock (.type d :: above) d.body) (m.outcome above d) := by
  rw [outcome_eq]
  cases d; rfl

/-! ## Verdicts by site -/

mutual

/-- The reports are those of the failing types, an inner one before the one around it. -/
theorem diagnostics_verdicts (m : RuleMigration) (path : String) (above : List Node) :
    ∀ s : Statement, (m.verdicts above s).filterMap (Verdict.diagnostic? path) =
      (s.sites above).filterMap (m.diagnosticAt path)
  | .type d => diagnostics_verdictsOnType m path above d
  | .method d => diagnostics_verdictsInMethod m path above d
  | .vars _ => rfl
  | .call _ => rfl
  | .raw _ => rfl

theorem diagnostics_verdictsOnType (m : RuleMigration) (path : String) (above : List Node) :
    ∀ d : TypeDecl, (m.verdictsOnType above d).filterMap (Verdict.diagnostic? path) =
      (d.sites above).filterMap (m.diagnosticAt path)
  | ⟨id, lead, annotations, modifiers, kind, kindLead, name, header, body, type⟩ => by
    let d : TypeDecl :=
      ⟨id, lead, annotations, modifiers, kind, kindLead, name, header, body, type⟩
    rw [verdictsOnType_outcome, TypeDecl.sites_eq, List.filterMap_append,
      ← diagnostics_verdictsInBlock m path (.type d :: above) body]
    have hsite : [(above, d)].filterMap (m.diagnosticAt path) =
        ((fault? (m.outcome above d)).map fun fault =>
          (⟨path, d.name.name, fault.message⟩ : Diagnostic)).toList := by
      cases h : fault? (m.outcome above d) <;> simp [diagnosticAt, h]
    rw [hsite]
    match m.outcome above d with
    | none => exact (List.append_nil _).symm
    | some (.ok _) =>
      rw [withVerdict, List.filterMap_append]
      rfl
    | some (.error fault) =>
      rw [withVerdict, List.filterMap_append, diagnostics_filter_isFailed]
      rfl

theorem diagnostics_verdictsInMethod (m : RuleMigration) (path : String) (above : List Node) :
    ∀ d : MethodDecl, (m.verdictsInMethod above d).filterMap (Verdict.diagnostic? path) =
      (d.sites above).filterMap (m.diagnosticAt path)
  | ⟨_, _, _, _, _, _, _, _, none, _⟩ => rfl
  | ⟨_, _, _, _, _, _, _, _, some body, _⟩ => diagnostics_verdictsInBlock m path _ body

theorem diagnostics_verdictsInBlock (m : RuleMigration) (path : String) (above : List Node) :
    ∀ b : Block, (m.verdictsInBlock above b).filterMap (Verdict.diagnostic? path) =
      (b.sites above).filterMap (m.diagnosticAt path)
  | ⟨_, statements, _⟩ => diagnostics_allVerdicts m path _ statements

theorem diagnostics_allVerdicts (m : RuleMigration) (path : String) (above : List Node) :
    ∀ ss : List Statement, (m.allVerdicts above ss).filterMap (Verdict.diagnostic? path) =
      (sitesOf above ss).filterMap (m.diagnosticAt path)
  | [] => rfl
  | s :: rest => by
    rw [allVerdicts_cons, sitesOf, List.filterMap_append, List.filterMap_append,
      diagnostics_verdicts m path above s, diagnostics_allVerdicts m path above rest]

end

/-- The reports of a run, an inner type before the one around it. -/
theorem diagnostics_progress (u : CompilationUnit) :
    (m.progress u).diagnostics = u.sites.filterMap (m.diagnosticAt u.path) := by
  unfold progress CompilationUnit.sites
  rw [record_eq, diagnostics_allVerdicts]
  rfl

end RuleMigration

end JavaMigration.Recipe
