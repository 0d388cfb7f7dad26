import JavaMigration.Proofs.Edit.Wrapper
import JavaMigration.Proofs.Java.Exact
import JavaMigration.Proofs.Java.SameDepth

/-!
# What a template keeps of its code

A template of members or statements holds its code up to the first closing brace that the code does
not open, and the whole code exactly if its braces match and its declarations are printed as they
were read (`build_keeps_code_iff`). Behind an unmatched brace code may stand that is Java only in
the class around it, and is lost (`code_behind_brace_is_lost`).
-/

namespace JavaMigration.Edit

open Java Source

/-- The members or statements of a shape. -/
def Shape.body? : Shape → Option (List Statement)
  | .typeReference _ => none
  | .members ss => some ss
  | .statements ss => some ss

/-- The members or statements of a template were read from its code, with tokens for the
placeholders, up to the first closing brace that the code does not open. -/
theorem exists_of_build {code : String} {imports : List String} {t : Template}
    {ss : List Statement} (himports : ∀ name ∈ imports, IsTarget name.toList)
    (hbuild : Template.build code imports = .ok t) (hbody : t.shape.body? = some ss) :
    ∃ env items ls close, lex ("\n" ++ (placeholdersOf code).1 ++ "\n") = some (ls, close) ∧
      (∀ s ∈ items, s.Valid) ∧ braceDepth 0 (lexemesOf items) = some 0 ∧
      lexemesOf items = upToUnmatched 0 ls ∧ ss = statementsOf env 0 items := by
  have hshape := shape_of_build hbuild
  cases h : t.shape with
  | typeReference ident =>
    rw [h] at hbody
    cases hbody
  | members members =>
    rw [h] at hshape hbody
    cases hbody
    exact exists_of_members himports (wrapped_of_members hshape)
  | statements statements =>
    rw [h] at hshape hbody
    cases hbody
    obtain ⟨members, hwrapped, rfl⟩ := wrapped_of_statements hshape
    exact exists_of_statements himports hwrapped

/-- A template of members or statements prints the lexemes of its code, with tokens for the
placeholders, up to the first closing brace that the code does not open. It prints all of them
exactly if the braces of the code match, nothing stands before the commas of its declarators and
`throws` clauses, and no enum in it has a semicolon behind a member; then only the space at the end
is missing. -/
theorem build_keeps_code_iff {code : String} {imports : List String} {t : Template}
    {ss : List Statement} (himports : ∀ name ∈ imports, IsTarget name.toList)
    (hbuild : Template.build code imports = .ok t) (hbody : t.shape.body? = some ss) :
    ∃ ls close items, lex ("\n" ++ (placeholdersOf code).1 ++ "\n") = some (ls, close) ∧
      (∀ s ∈ items, s.Valid) ∧ lexemesOf items = upToUnmatched 0 ls ∧
      (∃ env, ss = statementsOf env 0 items) ∧
      printStatements ss = printLexemes (printedItems items) ∧
      (printedItems items = ls ↔ braceDepth 0 ls = some 0 ∧ allExact items) ∧
      (printedItems items = ls →
        printStatements ss ++ close.text = "\n" ++ (placeholdersOf code).1 ++ "\n") := by
  obtain ⟨env, items, ls, close, hlex, hvalid, hdepth, hlexemes, rfl⟩ :=
    exists_of_build himports hbuild hbody
  have hprint :=
    printStatements_statementsOf (fun s hs => (hvalid s hs).shaped.print_statementOf) env 0
  have hplain : ∀ l ∈ lexemesOf items, l.Plain := fun l hl =>
    plain_of_lex hlex l ((upToUnmatched_isPrefix 0 ls).subset (hlexemes ▸ hl))
  refine ⟨ls, close, items, hlex, hvalid, hlexemes, ⟨env, rfl⟩, hprint, ⟨fun hall => ?_, ?_⟩,
    fun hall => ?_⟩
  · have hmatched : braceDepth 0 ls = some 0 := by
      rw [← hall, sameDepth_of_valid hvalid hplain, hdepth]
    rw [upToUnmatched_of_matched hmatched] at hlexemes
    exact ⟨hmatched, (printedItems_eq_iff hvalid).mp (hall.trans hlexemes.symm)⟩
  · rintro ⟨hmatched, hexact⟩
    rw [upToUnmatched_of_matched hmatched] at hlexemes
    exact ((printedItems_eq_iff hvalid).mpr hexact).trans hlexemes
  · rw [hprint, hall]
    exact lex_lossless hlex

/-- The text of the members or statements of a template. -/
def bodyText? (code : String) (imports : List String) : Option String :=
  ((Template.build code imports).toOption.bind (·.shape.body?)).map printStatements

theorem exists_of_bodyText? {code text : String} {imports : List String}
    (h : bodyText? code imports = some text) :
    ∃ t ss, Template.build code imports = .ok t ∧ t.shape.body? = some ss ∧
      printStatements ss = text := by
  obtain ⟨ss, hss, htext⟩ := Option.map_eq_some_iff.mp h
  obtain ⟨t, ht, hbody⟩ := Option.bind_eq_some_iff.mp hss
  cases hbuild : Template.build code imports with
  | error fault =>
    rw [hbuild] at ht
    cases ht
  | ok t' =>
    rw [hbuild] at ht
    cases ht
    exact ⟨t, ss, rfl, hbody, htext⟩

/-- A declaration and a call, with a comment behind them. -/
def callCode : String := "List<String> names = #\x7b\x7d;\n  \x7b use(names); \x7d // done"

set_option maxRecDepth 100000 in
theorem bodyText?_callCode : bodyText? callCode ["java.util.List"] =
    some "\nList<String> names = __p0__;\n  \x7b use(names); \x7d" := by decide +kernel

theorem callCode_is_kept : ∃ t ss, Template.build callCode ["java.util.List"] = .ok t ∧
    t.shape.body? = some ss ∧
    printStatements ss = "\nList<String> names = __p0__;\n  \x7b use(names); \x7d" ∧
    ∃ ls close items, lex ("\n" ++ (placeholdersOf callCode).1 ++ "\n") = some (ls, close) ∧
      (∀ s ∈ items, s.Valid) ∧ lexemesOf items = upToUnmatched 0 ls ∧
      (∃ env, ss = statementsOf env 0 items) ∧
      printStatements ss = printLexemes (printedItems items) ∧
      (printedItems items = ls ↔ braceDepth 0 ls = some 0 ∧ allExact items) ∧
      (printedItems items = ls →
        printStatements ss ++ close.text = "\n" ++ (placeholdersOf callCode).1 ++ "\n") := by
  obtain ⟨t, ss, hbuild, hbody, htext⟩ := exists_of_bodyText? bodyText?_callCode
  exact ⟨t, ss, hbuild, hbody, htext, build_keeps_code_iff (by decide) hbuild hbody⟩

/-- Code that closes the class around it and begins another. -/
def closingCode : String := "int a; \x7d class B \x7b int b;"

set_option maxRecDepth 100000 in
theorem bodyText?_closingCode : bodyText? closingCode [] = some "\nint a;" := by decide +kernel

/-- The texts of the lexemes of a source. -/
def lexemeTexts (source : String) : Option (List String) := (lex source).map (·.1.map (·.text))

/-- What stands behind the brace is read as a class of its own and belongs to no template. -/
theorem code_behind_brace_is_lost : ∃ t ss, Template.build closingCode [] = .ok t ∧
    t.shape.body? = some ss ∧ lexemeTexts (printStatements ss) = some ["int", "a", ";"] ∧
    lexemeTexts (placeholdersOf closingCode).1 =
      some ["int", "a", ";", "\x7d", "class", "B", "\x7b", "int", "b", ";"] := by
  obtain ⟨t, ss, hbuild, hbody, htext⟩ := exists_of_bodyText? bodyText?_closingCode
  exact ⟨t, ss, hbuild, hbody, by rw [htext]; decide +kernel, by decide +kernel⟩

end JavaMigration.Edit
