import JavaMigration.Proofs.Edit.TemplateCode
import JavaMigration.Proofs.Recipe.Again
import JavaMigration.Proofs.Recipe.Failure
import JavaMigration.Proofs.Recipe.Gate

/-!
# A second run changes nothing

With plain names in the settings, the generated code reads as intended: a method under one
annotation, and a call. No variable in it has an annotation, so a second run finds what the first
one left: the types that fail, and nothing to do (`run_again`). Other names are accepted too, and
put anything into the generated code (`odd_names_unsettle`).
-/

namespace JavaMigration.Recipe

open Java Source Match Edit

namespace RuleMigration

variable {c : Config} {m : RuleMigration}

/-! ## The generated code -/

theorem at_not_mem_closeMethod (hc : c.Plain) : '@' ∉ c.closeMethod.toList :=
  not_mem_of_isIdentifier hc.close (by decide) (by decide)

/-- The generated method begins with its one annotation and its name. -/
theorem toList_newMethodCode (hc : c.Plain) :
    ∃ back, '@' ∉ back ∧ (newMethodCode c).toList =
      '@' :: ((simpleName c.afterAnnotation).toList ++ '\n' ::
        ("void".toList ++ ' ' :: (c.methodName.toList ++ '(' :: back))) := by
  have hexception : '@' ∉ (simpleName c.exceptionType).toList := fun h =>
    hc.exception ((simpleName_mem_pieces c.exceptionType).2 h)
  refine ⟨(") throws " ++ simpleName c.exceptionType ++ " \x7b#\x7bany(" ++ c.trackedType ++
    ")\x7d." ++ c.closeMethod ++ "();\n\x7d").toList, ?_, ?_⟩
  · simp [hexception, hc.tracked, at_not_mem_closeMethod hc]
  · simp [newMethodCode]

/-- Settings with plain names make a recipe whose code declares no annotated variable. -/
theorem generatesPlain (hm : ofConfig c = .ok m) (hc : c.Plain) : m.GeneratesPlain := by
  have hmade := madeFrom_of_ofConfig hm
  constructor
  · intro field new hnew
    obtain ⟨back, hback, hcode⟩ := toList_newMethodCode hc
    have himports : ∀ name ∈ [c.afterAnnotation, c.exceptionType, c.trackedType],
        '@' ∉ name.toList := by
      simp [hc.at_not_mem_after, hc.exception, hc.tracked]
    exact unannotated_members hmade.newMethod hcode hc.simpleName_after hc.method hback
      himports hnew
  · intro field new hnew
    refine unannotated_statements hmade.closeStatement ?_ ?_ hnew
    · simp [closeCode, hc.tracked, at_not_mem_closeMethod hc]
    · simp [hc.tracked]

/-! ## Running again -/

/-- Running a recipe on its own result keeps the result and reports the same again. -/
theorem run_again (hm : ofConfig c = .ok m) (hc : c.Plain) (u : CompilationUnit) :
    m.run ((m.run u).1.get u) = (.kept, (m.run u).2) := by
  have hmade := madeFrom_of_ofConfig hm
  rw [run_eq_migrate hmade hc.rule u, run_eq_migrate hmade hc.rule]
  exact migrate_again (generatesPlain hm hc) u

theorem plain_shortConfig : shortConfig.Plain where
  rule := ofSignature_short
  after := by decide
  tracked := by decide
  exception := by decide
  close := by decide
  method := by decide

set_option maxRecDepth 100000 in
theorem passes_field : passes shortConfig fieldSource fun m u => !(m.run u).1.isKept :=
  ordinary_short.passes (by decide +kernel)

theorem changed_field_is_settled :
    ∃ (m : RuleMigration) (u : CompilationUnit),
      ofConfig shortConfig = .ok m ∧ parse? {} "A.java" fieldSource = some u ∧
      (m.run u).1.isKept = false ∧ m.run ((m.run u).1.get u) = (.kept, (m.run u).2) := by
  obtain ⟨m, u, hm, hu, hchanges⟩ := exists_of_passes passes_field
  have hchanged : (m.run u).1.isKept = false := by simpa using hchanges
  exact ⟨m, u, hm, hu, hchanged, run_again hm plain_shortConfig u⟩

/-! ## Other names -/

/-- The settings are accepted and name methods by Java identifiers, but a second run on some unit
that was read from source, its variables typed anew, changes or reports something else. -/
def Unsettled (c : Config) : Prop :=
  ∃ (m : RuleMigration) (source : String) (parsed : CompilationUnit) (f : Typing),
    ofConfig c = .ok m ∧ isIdentifier c.closeMethod.toList ∧ isIdentifier c.methodName.toList ∧
    parse? {} "A.java" source = some parsed ∧
    let u := parsed.retype f
    m.run ((m.run u).1.get u) ≠ (.kept, (m.run u).2)

/-- Whether a second run changes or reports something else. -/
def differsAgain (f : Typing) (m : RuleMigration) (parsed : CompilationUnit) : Bool :=
  let u := parsed.retype f
  let again := m.run ((m.run u).1.get u)
  !again.1.isKept || again.2 != (m.run u).2

theorem unsettled_of_passes {source : String} {f : Typing}
    (hclose : isIdentifier c.closeMethod.toList) (hmethod : isIdentifier c.methodName.toList)
    (h : passes c source (differsAgain f)) : Unsettled c := by
  obtain ⟨m, parsed, hm, hparsed, hdiffers⟩ := exists_of_passes h
  refine ⟨m, source, parsed, f, hm, hclose, hmethod, hparsed, ?_⟩
  intro u hsame
  have hagain : (!(m.run ((m.run u).1.get u)).1.isKept ||
    (m.run ((m.run u).1.get u)).2 != (m.run u).2) = true := hdiffers
  rw [hsame] at hagain
  simp [Revision.isKept] at hagain

/-- The rule annotation has a part that is not compared. -/
def partlyCompared : Config := { shortConfig with ruleAnnotation := "a./*(*/R" }

def partlyComparedSource : String :=
  "import a./*(*/R; class A \x7b @a./*<*/R b.S s; \x7d class B \x7b @a./*<*/R b.S q; \x7d"

/-- The after annotation puts another rule field into the generated code. -/
def fieldInAfter : Config := { shortConfig with afterAnnotation := "a.R; // .R S f;" }

/-- The exception puts another rule field into the generated code. -/
def fieldInException : Config :=
  { shortConfig with
    afterAnnotation := "a.R"
    exceptionType := "e.E; // .E; @R S f; \x7d class Z \x7b" }

def importedFieldSource : String := "import a.R; import b.S; class A \x7b @R S s; \x7d"

set_option maxRecDepth 100000 in
theorem passes_odd :
    passes partlyCompared partlyComparedSource
        (differsAgain fun i => if i.name = "q" then none else i.type) ∧
      passes fieldInAfter importedFieldSource (differsAgain (·.type)) ∧
      passes fieldInException importedFieldSource (differsAgain (·.type)) :=
  ⟨(ordinary_short.withRule (by decide)).passes (by decide +kernel), by decide +kernel,
    by decide +kernel⟩

/-- Names that are not plain are accepted and make a difference. -/
theorem odd_names_unsettle :
    Unsettled partlyCompared ∧ Unsettled fieldInAfter ∧ Unsettled fieldInException := by
  obtain ⟨hpartly, hafter, hexception⟩ := passes_odd
  exact ⟨unsettled_of_passes (by decide) (by decide) hpartly,
    unsettled_of_passes (by decide) (by decide) hafter,
    unsettled_of_passes (by decide) (by decide) hexception⟩

end RuleMigration

end JavaMigration.Recipe
