import JavaMigration.Proofs.Edit.Synthesis
import JavaMigration.Recipe.RuleMigration

/-!
# The migration as a function of the tree

The visitor threads a cursor with mailboxes and a record of its progress through the tree. Here
the same migration is a recursion over the tree that knows only the nodes above: `findings` are
the messages a statement leaves for the type around it, `rewrite` is what becomes of it, and
`verdicts` says what was decided for the types in it.
-/

namespace JavaMigration.Recipe

open Java Source Match Edit

namespace RuleMigration

variable (m : RuleMigration)

/-! ## What a statement tells the type around it -/

/-- A declaration of the tracked type with the rule annotation in front. -/
def isRuleField (d : VariableDecl) : Bool :=
  m.tracked.matchesVariables d && d.annotations.any m.rule.matchesAnnotation

/-- The declaration without its rule annotations. -/
def unmarked (d : VariableDecl) : VariableDecl :=
  d.retainAnnotations fun a => !m.rule.matchesAnnotation a

theorem length_unmarked_iff (d : VariableDecl) :
    (m.unmarked d).annotations.length = d.annotations.length ↔
      d.annotations.any m.rule.matchesAnnotation = false := by
  have hlen : (m.unmarked d).annotations.length =
      (d.annotations.filter fun a => !m.rule.matchesAnnotation a).length := by
    unfold unmarked VariableDecl.retainAnnotations
    extract_lets kept
    have hkept : (kept.annotations).length =
      (d.annotations.filter fun a => !m.rule.matchesAnnotation a).length := rfl
    split
    · rw [← hkept]
      unfold VariableDecl.clearFirst
      split <;> simp_all
    · exact hkept
  rw [hlen, List.length_filter_eq_length_iff]
  simp

theorem declarators_unmarked (d : VariableDecl) : (m.unmarked d).declarators = d.declarators := by
  unfold unmarked VariableDecl.retainAnnotations
  extract_lets kept
  split
  · unfold VariableDecl.clearFirst
    split <;> rfl
  · rfl

def isAfterMethod (d : MethodDecl) : Bool := d.annotations.any m.after.matchesAnnotation

def fieldFindings (d : VariableDecl) : List (String × Finding) :=
  if m.isRuleField d then
    d.declarators.head?.toList.map fun v => (fieldKey, .field v.name)
  else []

def methodFinding (d : MethodDecl) : List (String × Finding) :=
  if m.isAfterMethod d then [(afterMethodKey, .afterMethod d.id)] else []

mutual

/-- The messages a statement leaves for the type around it, in the order of the visit. -/
def findings (m : RuleMigration) : Statement → List (String × Finding)
  | .type _ => []
  | .method d => m.findingsInMethod d
  | .vars d => m.fieldFindings d
  | .call _ => []
  | .raw _ => []

def findingsInMethod (m : RuleMigration) : MethodDecl → List (String × Finding)
  | ⟨id, lead, annotations, modifiers, returnType, name, parameters, throws, body, close⟩ =>
    (match body with
      | some body => m.findingsInBlock body
      | none => []) ++
      m.methodFinding ⟨id, lead, annotations, modifiers, returnType, name, parameters, throws,
        body, close⟩

def findingsInBlock (m : RuleMigration) : Block → List (String × Finding)
  | ⟨_, statements, _⟩ => m.allFindings statements

def allFindings (m : RuleMigration) : List Statement → List (String × Finding)
  | [] => []
  | s :: r => m.findings s ++ m.allFindings r

end

/-! ## What becomes of a statement -/

def rewriteVars (d : VariableDecl) : Revision VariableDecl :=
  if m.isRuleField d then .replaced (m.unmarked d) else .kept

/-- The field to close and the method to close it in, as the findings have them. -/
def fieldFound (found : List (String × Finding)) : Option Identifier :=
  (latest fieldKey found).bind Finding.field?

def methodFound (found : List (String × Finding)) : Option StatementId :=
  (latest afterMethodKey found).bind Finding.afterMethod?

/-- Closes the field that was found in a type, `visited` after the visit of its members. -/
def closing (above : List Node) (found : List (String × Finding)) (visited : TypeDecl) :
    Option (Except ApplyFault (TypeDecl × List String)) :=
  (fieldFound found).map fun field =>
    m.closeField visited field (methodFound found)
      (Cursor.ofPath (.type visited :: above) : Cursor Finding)

/-- What becomes of a type when everything in it has been visited. -/
def settle (visited : Revision TypeDecl) :
    Option (Except ApplyFault (TypeDecl × List String)) → Revision TypeDecl
  | none => visited
  | some (.ok (closed, _)) => .replaced closed
  | some (.error _) => .kept

mutual

/-- What becomes of a statement, where `above` are the nodes around it from the inside out. -/
def rewrite (m : RuleMigration) (above : List Node) : Statement → Revision Statement
  | .type d => (m.rewriteType above d).map .type
  | .method d => (m.rewriteMethod above d).map .method
  | .vars d => (m.rewriteVars d).map .vars
  | .call _ => .kept
  | .raw _ => .kept

def rewriteType (m : RuleMigration) (above : List Node) : TypeDecl → Revision TypeDecl
  | ⟨id, lead, annotations, modifiers, kind, kindLead, name, header, body, type⟩ =>
    let d : TypeDecl :=
      ⟨id, lead, annotations, modifiers, kind, kindLead, name, header, body, type⟩
    let visited := (m.rewriteBlock (.type d :: above) body).map fun body => { d with body }
    settle visited (m.closing above (m.findingsInBlock body) (visited.get d))

def rewriteMethod (m : RuleMigration) (above : List Node) : MethodDecl → Revision MethodDecl
  | ⟨id, lead, annotations, modifiers, returnType, name, parameters, throws, body, close⟩ =>
    let d : MethodDecl :=
      ⟨id, lead, annotations, modifiers, returnType, name, parameters, throws, body, close⟩
    match body with
    | none => .kept
    | some body =>
      (m.rewriteBlock (.method d :: above) body).map fun body => { d with body := some body }

def rewriteBlock (m : RuleMigration) (above : List Node) : Block → Revision Block
  | ⟨lead, statements, close⟩ =>
    let b : Block := ⟨lead, statements, close⟩
    (m.rewriteAll (.block b :: above) statements).map fun statements => { b with statements }

def rewriteAll (m : RuleMigration) (above : List Node) : List Statement → Revision (List Statement)
  | [] => .kept
  | s :: rest =>
    match m.rewrite above s, m.rewriteAll above rest with
    | .kept, .kept => .kept
    | first, more => .replaced (first.get s :: more.get rest)

end

/-! ## What is decided for types -/

/-- What was decided for a type in which a field is to be closed. -/
inductive Verdict where
  /-- The field is closed; the names are types to import for that. -/
  | closed (d : TypeDecl) (imports : List String)
  | failed (d : TypeDecl) (fault : ApplyFault)

def Verdict.isFailed : Verdict → Bool
  | closed .. => false
  | failed .. => true

/-- The verdicts on a type and the types in it. If the type fails, those in it are closed no
longer, while their own failures stand. -/
def withVerdict (d : TypeDecl) (inside : List Verdict) :
    Option (Except ApplyFault (TypeDecl × List String)) → List Verdict
  | none => inside
  | some (.ok (_, imports)) => inside ++ [.closed d imports]
  | some (.error fault) => inside.filter Verdict.isFailed ++ [.failed d fault]

mutual

/-- The verdicts on the types in a statement in the order in which their visits end. -/
def verdicts (m : RuleMigration) (above : List Node) : Statement → List Verdict
  | .type d => m.verdictsOnType above d
  | .method d => m.verdictsInMethod above d
  | .vars _ => []
  | .call _ => []
  | .raw _ => []

def verdictsOnType (m : RuleMigration) (above : List Node) : TypeDecl → List Verdict
  | ⟨id, lead, annotations, modifiers, kind, kindLead, name, header, body, type⟩ =>
    let d : TypeDecl :=
      ⟨id, lead, annotations, modifiers, kind, kindLead, name, header, body, type⟩
    let visited := (m.rewriteBlock (.type d :: above) body).map fun body => { d with body }
    withVerdict d (m.verdictsInBlock (.type d :: above) body)
      (m.closing above (m.findingsInBlock body) (visited.get d))

def verdictsInMethod (m : RuleMigration) (above : List Node) : MethodDecl → List Verdict
  | ⟨id, lead, annotations, modifiers, returnType, name, parameters, throws, body, close⟩ =>
    let d : MethodDecl :=
      ⟨id, lead, annotations, modifiers, returnType, name, parameters, throws, body, close⟩
    match body with
    | none => []
    | some body => m.verdictsInBlock (.method d :: above) body

def verdictsInBlock (m : RuleMigration) (above : List Node) : Block → List Verdict
  | ⟨lead, statements, close⟩ => m.allVerdicts (.block ⟨lead, statements, close⟩ :: above) statements

def allVerdicts (m : RuleMigration) (above : List Node) : List Statement → List Verdict
  | [] => []
  | s :: rest => m.verdicts above s ++ m.allVerdicts above rest

end

/-! ## The record of a visit -/

/-- The import edits a closed type asks for. -/
def request (edits : ImportEdits) (imports : List String) : ImportEdits :=
  (imports.foldl ImportEdits.add edits).remove m.config.ruleAnnotation

/-- Enters a verdict into the progress of a visitor over the file `path`. -/
def enter (path : String) (p : Progress) : Verdict → Progress
  | .closed _ imports => { p with imports := m.request p.imports imports }
  | .failed d fault =>
    { p with diagnostics := p.diagnostics ++ [⟨path, d.name.name, fault.message⟩] }

def record (path : String) (p : Progress) (vs : List Verdict) : Progress :=
  vs.foldl (m.enter path) p

theorem record_append (path : String) (p : Progress) (vs ws : List Verdict) :
    m.record path p (vs ++ ws) = m.record path (m.record path p vs) ws := List.foldl_append

def Verdict.imports? : Verdict → Option (List String)
  | closed _ imports => some imports
  | failed .. => none

def Verdict.diagnostic? (path : String) : Verdict → Option Diagnostic
  | closed .. => none
  | failed d fault => some ⟨path, d.name.name, fault.message⟩

theorem record_eq (path : String) (p : Progress) (vs : List Verdict) :
    m.record path p vs =
      { imports := (vs.filterMap Verdict.imports?).foldl m.request p.imports
        diagnostics := p.diagnostics ++ vs.filterMap (Verdict.diagnostic? path) } := by
  induction vs generalizing p with
  | nil => simp [record]
  | cons v vs ih =>
    have hcons : m.record path p (v :: vs) = m.record path (m.enter path p v) vs := rfl
    rw [hcons, ih]
    cases v with
    | closed d imports => rfl
    | failed d fault =>
      simp only [enter, Verdict.diagnostic?, Verdict.imports?, List.filterMap_cons,
        List.append_assoc, List.singleton_append]

theorem diagnostics_filter_isFailed (path : String) (vs : List Verdict) :
    (vs.filter Verdict.isFailed).filterMap (Verdict.diagnostic? path) =
      vs.filterMap (Verdict.diagnostic? path) := by
  rw [List.filterMap_filter]
  congr 1
  funext v
  cases v <;> rfl

theorem imports_filter_isFailed (vs : List Verdict) :
    (vs.filter Verdict.isFailed).filterMap Verdict.imports? = [] := by
  rw [List.filterMap_filter, List.filterMap_eq_nil_iff]
  intro v _
  cases v <;> rfl

/-- Failures leave the import edits alone and are recorded whatever else is. -/
theorem record_failures (path : String) (p : Progress) (vs : List Verdict) :
    m.record path p (vs.filter Verdict.isFailed) =
      { imports := p.imports, diagnostics := (m.record path p vs).diagnostics } := by
  rw [record_eq, record_eq m path p vs, imports_filter_isFailed, diagnostics_filter_isFailed,
    List.foldl_nil]

/-! ## Opening the recursion -/

theorem allFindings_cons (s : Statement) (rest : List Statement) :
    m.allFindings (s :: rest) = m.findings s ++ m.allFindings rest := rfl

theorem rewriteAll_cons (above : List Node) (s : Statement) (rest : List Statement) :
    m.rewriteAll above (s :: rest) =
      match m.rewrite above s, m.rewriteAll above rest with
      | .kept, .kept => .kept
      | first, more => .replaced (first.get s :: more.get rest) := rfl

theorem allVerdicts_cons (above : List Node) (s : Statement) (rest : List Statement) :
    m.allVerdicts above (s :: rest) = m.verdicts above s ++ m.allVerdicts above rest := rfl

theorem rewriteBlock_eq (above : List Node) (b : Block) :
    m.rewriteBlock above b =
      (m.rewriteAll (.block b :: above) b.statements).map fun statements => { b with statements } := by
  cases b; rfl

theorem rewriteMethod_eq (above : List Node) {d : MethodDecl} {b : Block} (h : d.body = some b) :
    m.rewriteMethod above d =
      (m.rewriteBlock (.method d :: above) b).map fun body => { d with body := some body } := by
  cases d; subst h; rfl

theorem annotations_rewriteMethod (above : List Node) (d : MethodDecl) :
    ((m.rewriteMethod above d).get d).annotations = d.annotations := by
  cases d with
  | mk _ _ _ _ _ _ _ _ body _ =>
    cases body with
    | none => rfl
    | some b =>
      rw [m.rewriteMethod_eq above rfl]
      cases m.rewriteBlock _ b <;> rfl

theorem rewriteType_eq (above : List Node) (d : TypeDecl) :
    m.rewriteType above d =
      let visited := (m.rewriteBlock (.type d :: above) d.body).map fun body => { d with body }
      settle visited (m.closing above (m.findingsInBlock d.body) (visited.get d)) := by
  cases d; rfl

/-! ## Settings for examples -/

/-- Settings with short names, which are quick to evaluate. -/
def shortConfig : Config where
  ruleAnnotation := "a.R"
  afterAnnotation := "a.T"
  trackedType := "b.S"
  closeMethod := "c"
  exceptionType := "e.E"
  methodName := "t"

end RuleMigration

end JavaMigration.Recipe
