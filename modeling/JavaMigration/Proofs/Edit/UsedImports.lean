import JavaMigration.Edit.Imports
import JavaMigration.Proofs.Java.Printed
import JavaMigration.Proofs.Java.Visible

/-!
# Imports that are in use

The import of a type is not removed while its simple name stands as a word where a search over the
tree looks (`removeImport_of_hasWord`). An annotation behind the type parameters of a method is
elsewhere: an import that is only used there is removed (`removeImport_of_hidden`).
-/

namespace JavaMigration.Edit

open Text Java Source

/-! ## The words of a source -/

/-- The visible lexemes of a top-level item. -/
def visibleTop : Syntax → List Lexeme
  | .node .typeDecl cs => visible (.node .typeDecl cs)
  | s => s.lexemes

/-- The lexemes of a source outside its package declaration and imports, and outside annotations
behind the type parameters of its methods. -/
def visibleLexemes (items : List Syntax) : List Lexeme :=
  (items.filter fun s => !isHeader s).flatMap visibleTop

variable {w : String}

/-- A word that is visible in a unit is in one of its pieces. -/
theorem showsAny_topLevelOf {ls : List Lexeme} {items : List Syntax} (hls : Separated ls)
    (hin : ∀ s ∈ items, s.In ls) (hw : w ∉ declarationKeys) (env : Environment)
    (h : HasWord w (visibleLexemes items)) : showsAny w (piecesOf (topLevelOf env items)) := by
  have hlist : ∀ (ss : List Syntax) (f : Nat → Syntax → Statement),
      (∀ id, ∀ s ∈ ss, HasWord w (visibleTop s) → showsAny w (f id s).pieces) →
        HasWord w (ss.flatMap visibleTop) → showsAny w (piecesOf (ss.mapIdx f)) := by
    intro ss
    induction ss with
    | nil => exact fun _ _ hword => absurd hword not_hasWord_nil
    | cons s ss ih =>
      intro f hf hword
      rw [List.flatMap_cons] at hword
      rw [List.mapIdx_cons, piecesOf, showsAny_append, Bool.or_eq_true]
      exact hword.of_append.imp (hf 0 s List.mem_cons_self)
        (ih _ fun id t ht => hf (id + 1) t (List.mem_cons_of_mem _ ht))
  rw [topLevelOf_eq]
  refine hlist _ _ (fun id s hs hword => ?_) h
  have hsin := hin s (List.mem_of_mem_filter hs)
  unfold visibleTop at hword
  split
  · exact hsin.1.shaped.showsAny_statementOf hls hsin hw hword env id
  · next hne =>
    split at hword
    · next cs => exact absurd rfl (hne cs)
    · rw [← lexemesOf_singleton] at hword
      exact showsAny_rawOf id ⟨hls.within (lexemesOf_singleton _ ▸ hsin.2), hword⟩

/-- A piece that shows the simple name of a type refers to it. -/
theorem refersTo_of_shows {name : String} {p : Piece} (h : p.shows (simpleName name)) :
    refersTo name p := by
  cases p with
  | imported i => exact h
  | identifier i => exact Bool.or_eq_true_iff.mpr (.inr h)
  | text s => exact h

/-! ## Removing -/

/-- An import is kept while the simple name of its target is a visible word. -/
theorem removeImport_of_hasWord {classpath : Classpath} {path source name : String}
    {u : CompilationUnit} {items : List Syntax} {close : Space}
    (hparse : parse? classpath path source = some u)
    (hread : readUnit source = some (items, close)) (hname : simpleName name ∉ declarationKeys)
    (hword : HasWord (simpleName name) (visibleLexemes items)) : removeImport u name = .kept := by
  unfold parse? at hparse
  rw [hread] at hparse
  cases hparse
  obtain ⟨ls, hlex, hin⟩ := exists_lexemes hread
  have hshown := showsAny_topLevelOf (separated_of_lex hlex) hin hname
    { resolver := resolverOf items classpath } hword
  obtain ⟨p, hp, hshows⟩ := List.any_eq_true.mp hshown
  have hfound : (unitOf (resolverOf items classpath) path items close).anyPiece (refersTo name) :=
    List.any_eq_true.mpr ⟨p, List.mem_append_right _ hp, refersTo_of_shows hshows⟩
  unfold removeImport
  split
  · rfl
  · rw [if_pos hfound]

/-- A class that uses an import on a parameter, next to where a use is not seen. -/
def usedSource : String :=
  "import org.junit.Rule;\nclass A \x7b <T> @Rule T m(@Rule T t) \x7b return t; \x7d \x7d\n"

set_option maxRecDepth 100000 in
theorem hasWord_usedSource :
    (parse? (.ofList ["org.junit.Rule"]) "A.java" usedSource).any (·.imports.length == 1) ∧
      (readUnit usedSource).any fun read =>
        HasWord (simpleName "org.junit.Rule") (visibleLexemes read.1) := by
  decide +kernel

theorem used_import_is_kept :
    ∃ u items close, parse? (.ofList ["org.junit.Rule"]) "A.java" usedSource = some u ∧
      readUnit usedSource = some (items, close) ∧ u.imports.length = 1 ∧
      simpleName "org.junit.Rule" ∉ declarationKeys ∧
      HasWord (simpleName "org.junit.Rule") (visibleLexemes items) ∧
      removeImport u "org.junit.Rule" = .kept := by
  obtain ⟨hunit, hwords⟩ := hasWord_usedSource
  obtain ⟨u, hparse, himports⟩ := (Option.any_eq_true _ _).mp hunit
  obtain ⟨⟨items, close⟩, hread, hword⟩ := (Option.any_eq_true _ _).mp hwords
  have hname : simpleName "org.junit.Rule" ∉ declarationKeys := by decide
  have hword := of_decide_eq_true hword
  exact ⟨u, items, close, hparse, hread, beq_iff_eq.mp himports, hname, hword,
    removeImport_of_hasWord hparse hread hname hword⟩

/-- A class that uses an import only behind the type parameters of a method. -/
def hiddenSource : String :=
  "import org.junit.Rule;\nclass A \x7b <T> @Rule T m() \x7b return null; \x7d \x7d\n"

set_option maxRecDepth 100000 in
theorem hasWord_hiddenSource :
    ((parse? (.ofList ["org.junit.Rule"]) "A.java" hiddenSource).any fun u =>
      !(removeImport u "org.junit.Rule").isKept &&
        ((removeImport u "org.junit.Rule").get u).print ==
          "class A \x7b <T> @Rule T m() \x7b return null; \x7d \x7d\n") ∧
      (readUnit hiddenSource).any fun read =>
        HasWord (simpleName "org.junit.Rule") (lexemesOf (read.1.filter fun s => !isHeader s)) := by
  decide +kernel

/-- The name is a word behind the imports, but the import is removed. -/
theorem removeImport_of_hidden :
    ∃ u items close, parse? (.ofList ["org.junit.Rule"]) "A.java" hiddenSource = some u ∧
      readUnit hiddenSource = some (items, close) ∧
      HasWord (simpleName "org.junit.Rule") (lexemesOf (items.filter fun s => !isHeader s)) ∧
      (removeImport u "org.junit.Rule").isKept = false ∧
      ((removeImport u "org.junit.Rule").get u).print =
        "class A \x7b <T> @Rule T m() \x7b return null; \x7d \x7d\n" := by
  obtain ⟨hunit, hwords⟩ := hasWord_hiddenSource
  obtain ⟨u, hparse, htest⟩ := (Option.any_eq_true _ _).mp hunit
  obtain ⟨⟨items, close⟩, hread, hword⟩ := (Option.any_eq_true _ _).mp hwords
  rw [Bool.and_eq_true, Bool.not_eq_true', beq_iff_eq] at htest
  exact ⟨u, items, close, hparse, hread, of_decide_eq_true hword, htest.1, htest.2⟩

end JavaMigration.Edit
