import JavaMigration.Proofs.Edit.TemplateCode
import JavaMigration.Proofs.Recipe.Meaning
import JavaMigration.Proofs.Recipe.Settings

/-!
# The code that a recipe generates

For settings of which nothing is out of the ordinary the templates are read as one method, one
call in it and one type. The recipe is then given by the settings alone, and what it does can be
computed without reading its templates again.
-/

namespace JavaMigration.Edit

open Source

/-- Whether the code of a template is read as the template, of which `reads` tells the shape. -/
def Template.isRead (t : Template) (reads : Shape → Bool) : Bool :=
  match Template.build t.code t.imports with
  | .ok u => reads u.shape && u.placeholders == t.placeholders
  | .error _ => false

theorem build_of_isRead {t : Template} {reads : Shape → Bool} (h : t.isRead reads)
    (hlayout : t.layout = .indented) (hreads : ∀ s, reads s → s = t.shape) :
    Template.build t.code t.imports = .ok t := by
  unfold Template.isRead at h
  split at h
  · next u hbuild =>
    obtain ⟨hshape, hplaceholders⟩ := Bool.and_eq_true_iff.mp h
    have hsame := hreads u.shape hshape
    obtain ⟨shape, -, rfl⟩ := build_ok hbuild
    rw [hbuild]
    cases t
    simp_all
  · cases h

end JavaMigration.Edit

namespace JavaMigration.Recipe

open Java Source Match Edit

namespace RuleMigration

/-! ## The generated code -/

/-- The name of an imported type as generated code has it. -/
def importedType (lead : Space) (name : String) : Identifier where
  lead
  name := simpleName name
  type := some (.ofClass name)

/-- The call that closes what stands for the placeholder. -/
def closeCall (c : Config) (lead : Space) : Call where
  id := 0
  lead
  receiver := some (.name { name := "__p0__" })
  dot := .empty
  name := { name := c.closeMethod }
  arguments := "()"
  close := .empty

/-- The method that closes what stands for the placeholder. -/
def closeMethodOf (c : Config) : MethodDecl where
  id := 0
  lead := ⟨"\n"⟩
  annotations := [⟨.empty, importedType .empty c.afterAnnotation, none⟩]
  modifiers := []
  returnType := { lead := ⟨"\n"⟩, name := "void", type := some (.primitive "void") }
  name := { lead := .single, name := c.methodName }
  parameters := "()"
  throws := some ⟨.single, [importedType .single c.exceptionType]⟩
  body := some ⟨.single, [.call (closeCall c .empty)], ⟨"\n"⟩⟩
  close := .empty

def isCloseMethod (c : Config) : Shape → Bool
  | .members [.method ⟨id, lead, annotations, modifiers, returnType, name, parameters, throws,
      some ⟨bodyLead, [.call call], bodyClose⟩, close⟩] =>
    let d := closeMethodOf c
    id == d.id && lead == d.lead && annotations == d.annotations && modifiers == d.modifiers &&
      returnType == d.returnType && name == d.name && parameters == d.parameters &&
      throws == d.throws && bodyLead == .single && call == closeCall c .empty &&
      bodyClose == ⟨"\n"⟩ && close == d.close
  | _ => false

def isCloseCall (c : Config) : Shape → Bool
  | .statements [.call call] => call == closeCall c ⟨"\n"⟩
  | _ => false

def isThrownType (c : Config) : Shape → Bool
  | .typeReference type => type == importedType .empty c.exceptionType
  | _ => false

theorem eq_of_isCloseMethod {c : Config} {s : Shape} (h : isCloseMethod c s) :
    s = .members [.method (closeMethodOf c)] := by
  unfold isCloseMethod at h
  split at h
  · simp only [Bool.and_eq_true, beq_iff_eq] at h
    obtain ⟨⟨⟨⟨⟨⟨⟨⟨⟨⟨⟨rfl, rfl⟩, rfl⟩, rfl⟩, rfl⟩, rfl⟩, rfl⟩, rfl⟩, rfl⟩, rfl⟩, rfl⟩, rfl⟩ := h
    rfl
  · cases h

theorem eq_of_isCloseCall {c : Config} {s : Shape} (h : isCloseCall c s) :
    s = .statements [.call (closeCall c ⟨"\n"⟩)] := by
  unfold isCloseCall at h
  split at h
  · rw [beq_iff_eq.mp h]
  · cases h

theorem eq_of_isThrownType {c : Config} {s : Shape} (h : isThrownType c s) :
    s = .typeReference (importedType .empty c.exceptionType) := by
  unfold isThrownType at h
  split at h
  · rw [beq_iff_eq.mp h]
  · cases h

/-! ## The recipe -/

/-- The recipe for settings whose templates read as their code is meant. -/
def ordinary (c : Config) : RuleMigration where
  config := c
  rule := .ofSignature c.ruleAnnotation
  after := .ofSignature c.afterAnnotation
  tracked := ⟨c.trackedType⟩
  newMethod := {
    code := newMethodCode c
    imports := [c.afterAnnotation, c.exceptionType, c.trackedType]
    placeholders := [⟨"__p0__", some c.trackedType⟩]
    shape := .members [.method (closeMethodOf c)]
    layout := .indented }
  closeStatement := {
    code := closeCode c
    imports := [c.trackedType]
    placeholders := [⟨"__p0__", some c.trackedType⟩]
    shape := .statements [.call (closeCall c ⟨"\n"⟩)]
    layout := .indented }
  thrown := {
    code := simpleName c.exceptionType
    imports := [c.exceptionType]
    placeholders := []
    shape := .typeReference (importedType .empty c.exceptionType)
    layout := .indented }

/-- Settings whose templates read as their code is meant. -/
structure Ordinary (c : Config) : Prop where
  fault : c.fault? = none
  newMethod : (ordinary c).newMethod.isRead (isCloseMethod c)
  closeStatement : (ordinary c).closeStatement.isRead (isCloseCall c)
  thrown : (ordinary c).thrown.isRead (isThrownType c)

theorem Ordinary.ofConfig_eq {c : Config} (h : Ordinary c) : ofConfig c = .ok (ordinary c) := by
  have hmethod := build_of_isRead h.newMethod rfl fun _ => eq_of_isCloseMethod
  have hclose := build_of_isRead h.closeStatement rfl fun _ => eq_of_isCloseCall
  have hthrown := build_of_isRead h.thrown rfl fun _ => eq_of_isThrownType
  unfold ofConfig buildTemplate
  unfold ordinary at hmethod hclose hthrown ⊢
  dsimp only at hmethod hclose hthrown
  simp only [h.fault, hmethod, hclose, hthrown, Except.mapError, bind, Except.bind, pure, Except.pure]

/-- The templates do not depend on the rule annotation. -/
theorem Ordinary.withRule {c : Config} (hc : Ordinary c) {rule : String}
    (hfault : ({ c with ruleAnnotation := rule } : Config).fault? = none) :
    Ordinary { c with ruleAnnotation := rule } where
  fault := hfault
  newMethod := hc.newMethod
  closeStatement := hc.closeStatement
  thrown := hc.thrown

/-- Nor do they depend on the dependency to upgrade. -/
theorem Ordinary.withDependency {c : Config} (hc : Ordinary c)
    (dependency : Option DependencyConfig) : Ordinary { c with dependency } where
  fault := hc.fault
  newMethod := hc.newMethod
  closeStatement := hc.closeStatement
  thrown := hc.thrown

set_option maxRecDepth 100000 in
theorem ordinary_default : Ordinary {} where
  fault := by decide +kernel
  newMethod := by decide +kernel
  closeStatement := by decide +kernel
  thrown := by decide +kernel

set_option maxRecDepth 100000 in
theorem ordinary_short : Ordinary shortConfig where
  fault := by decide +kernel
  newMethod := by decide +kernel
  closeStatement := by decide +kernel
  thrown := by decide +kernel

/-! ## Recipes at work -/

/-- Whether the recipe for some settings and the unit read from a source pass a test. -/
def passes (c : Config) (source : String) (test : RuleMigration → CompilationUnit → Bool) : Bool :=
  match ofConfig c, parse? {} "A.java" source with
  | .ok m, some u => test m u
  | _, _ => false

theorem exists_of_passes {c : Config} {source : String}
    {test : RuleMigration → CompilationUnit → Bool} (h : passes c source test) :
    ∃ m u, ofConfig c = .ok m ∧ parse? {} "A.java" source = some u ∧ test m u := by
  unfold passes at h
  split at h
  · next m u hm hu => exact ⟨m, u, hm, hu, h⟩
  · cases h

theorem Ordinary.passes {c : Config} {source : String}
    {test : RuleMigration → CompilationUnit → Bool} (hc : Ordinary c)
    (h : (parse? {} "A.java" source).any (test (ordinary c))) : passes c source test := by
  unfold RuleMigration.passes
  rw [hc.ofConfig_eq]
  cases hu : parse? {} "A.java" source with
  | none =>
    rw [hu] at h
    cases h
  | some u =>
    rw [hu] at h
    exact h

end RuleMigration

end JavaMigration.Recipe
