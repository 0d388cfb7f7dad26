import JavaMigration.Proofs.Recipe.Completeness
import JavaMigration.Proofs.Recipe.NewNames

/-!
# Names that mean the same again

Generated code names types by their simple names, and the imports that are added bind these names
in the whole unit. When the result of a migration is read again, all its references have the types
they had if and only if each type that was asked for has its simple name to itself, or had it
before (`references_resolve_again_iff`). That an import on demand would do is no reason that the
name is free (`other_import_takes_generated_name`).
-/

namespace JavaMigration.Recipe

open Java Source Match Edit

namespace RuleMigration

/-! ## Reading the result again -/

/-- What a migration leads to is read back as it stands: the same imports, the same declared types
and the same references, whatever these resolve to now. -/
structure ReadsBack (r r' : Resolver) (v w : CompilationUnit) : Prop where
  package : r'.package = r.package
  declared : r'.declared = r.declared
  imports : w.imports.map Import.bare = v.imports.map Import.bare
  names : (referencesOf w.types).map (·.name) = (referencesOf v.types).map (·.name)

/-- The simple name of a type stood for it in the source already, or else stands for it because the
result imports it, and is at the head of no reference but those to the type. -/
def Secured (r : Resolver) (v : CompilationUnit) (name : String) : Prop :=
  r.resolveSimple (simpleName name) = some name ∨
    importedAs (simpleName name) v.imports = some name ∧
      ∀ ref ∈ referencesOf v.types, headOf ref.name = simpleName name → ref = importedReference name

/-- The scope `r` of a unit that was read, and the scope `r'` of the result `v` of migrating it with
imports for some types. -/
structure Rescoped (names : List String) (r r' : Resolver) (u v : CompilationUnit) : Prop where
  resolved : Resolved r u.types
  accounts : Accounts names (referencesOf u.types) (referencesOf v.types)
  words : ∀ name ∈ names, IsTypeWord (simpleName name)
  fallback : r'.fallback = r.fallback
  before : r.imports = namesBound u.imports
  after : r'.imports = namesBound v.imports
  imported : ∀ ref ∈ referencesOf v.types,
    importedAs (headOf ref.name) v.imports = importedAs (headOf ref.name) u.imports ∨
      ∃ full ∈ names, simpleName full = headOf ref.name ∧
        importedAs (headOf ref.name) v.imports = some full

theorem resolve_void (r : Resolver) : r.resolve "void" = some (.primitive "void") := by
  have herase : erase "void" = "void" := by decide
  have hflat : dimensions "void" = 0 := by decide
  have hname : r.resolveName "void" = some (.primitive "void") := by
    rw [resolveName_simple r (by decide), if_neg (by decide), if_pos (by decide)]
  rw [Resolver.resolve, herase, hflat, hname]
  rfl

theorem headOf_void : headOf "void" = "void" := by decide

namespace Rescoped

variable {names : List String} {r r' : Resolver} {u v : CompilationUnit} {name : String}
  {ref : Reference}

theorem resolveSimple_of_imported (h : Rescoped names r r' u v) {simple full : String}
    (himported : importedAs simple v.imports = some full) : r'.resolveSimple simple = some full := by
  rw [resolveSimple_eq, h.after, show (namesBound v.imports).lookup simple = some full from himported]
  rfl

/-- The head of a reference stands for what it stood for, or for an imported type. -/
theorem resolveSimple_cases (h : Rescoped names r r' u v) (href : ref ∈ referencesOf v.types) :
    r'.resolveSimple (headOf ref.name) = r.resolveSimple (headOf ref.name) ∨
      ∃ full ∈ names, simpleName full = headOf ref.name ∧
        importedAs (headOf ref.name) v.imports = some full := by
  refine (h.imported ref href).imp_left fun hsame => ?_
  unfold importedAs at hsame
  rw [resolveSimple_eq, resolveSimple_eq, h.after, h.before, h.fallback, hsame]

/-- The simple name of an imported type is at the head of a reference. -/
theorem resolveSimple_simpleName_cases (h : Rescoped names r r' u v) (hname : name ∈ names) :
    r'.resolveSimple (simpleName name) = r.resolveSimple (simpleName name) ∨
      ∃ full ∈ names, simpleName full = simpleName name ∧
        importedAs (simpleName name) v.imports = some full := by
  have hhead : headOf (importedReference name).name = simpleName name := (h.words name hname).headOf_eq
  have hcases := h.resolveSimple_cases (h.accounts.present name hname)
  rwa [hhead] at hcases

/-- The reference to an imported type has the type of its name exactly if the name stands for it. -/
theorem type_importedReference_iff (h : Rescoped names r r' u v) (hname : name ∈ names) :
    (importedReference name).type = r'.resolve (importedReference name).name ↔
      r'.resolveSimple (simpleName name) = some name := by
  show (some name).map JavaType.ofClass = r'.resolve (simpleName name) ↔ _
  rw [(h.words name hname).resolve_eq, (Option.map_injective IsTypeWord.ofClass_injective).eq_iff,
    eq_comm]

/-- The names of secured types stand for them. -/
theorem resolveSimple_of_secured (h : Rescoped names r r' u v)
    (hsecured : ∀ name ∈ names, Secured r v name) (hname : name ∈ names) :
    r'.resolveSimple (simpleName name) = some name := by
  rcases hsecured name hname with hbefore | ⟨himported, -⟩
  · rcases h.resolveSimple_simpleName_cases hname with hsame | ⟨full, hfull, hsimple, himported⟩
    · exact hsame.trans hbefore
    · -- another type of that name was imported, and it is secured as well
      rw [h.resolveSimple_of_imported himported]
      rcases hsecured full hfull with hother | ⟨-, honly⟩
      · rw [hsimple, hbefore] at hother
        exact hother.symm
      · have hhead : headOf (importedReference name).name = simpleName full :=
          (h.words name hname).headOf_eq.trans hsimple.symm
        have heq := honly _ (h.accounts.present name hname) hhead
        exact congrArg some (JavaType.ofClass.inj (Option.some.inj (congrArg Reference.type heq))).symm
  · exact h.resolveSimple_of_imported himported

/-- If all types are secured, every reference of the result resolves to the type it has. -/
theorem resolve_of_secured (h : Rescoped names r r' u v)
    (hsecured : ∀ name ∈ names, Secured r v name) (href : ref ∈ referencesOf v.types) :
    ref.type = r'.resolve ref.name := by
  have himported : ∀ name ∈ names,
      (importedReference name).type = r'.resolve (importedReference name).name := fun name hname =>
    (h.type_importedReference_iff hname).mpr (h.resolveSimple_of_secured hsecured hname)
  rcases h.accounts.known ref href with hold | rfl | ⟨name, hname, rfl⟩
  · rw [h.resolved ref hold]
    rcases h.resolveSimple_cases href with hsame | ⟨full, hfull, hsimple, hbound⟩
    · exact (resolve_congr hsame).symm
    · rcases hsecured full hfull with hbefore | ⟨-, honly⟩
      · refine (resolve_congr ?_).symm
        rw [h.resolveSimple_of_imported hbound, ← hsimple, hbefore]
      · obtain rfl := honly ref href hsimple.symm
        rw [← himported full hfull, h.resolved _ hold]
  · exact (resolve_void r').symm
  · exact himported name hname

/-- A reference that was there before and keeps its type begins with a name that stands for what it
stood for. -/
theorem resolveSimple_of_old (h : Rescoped names r r' u v) (hname : name ∈ names)
    (hold : ref ∈ referencesOf u.types) (hhead : headOf ref.name = simpleName name)
    (htype : ref.type = r'.resolve ref.name) (hmeant : r'.resolveSimple (simpleName name) = some name) :
    r.resolveSimple (simpleName name) = some name := by
  have hword : IsTypeWord (headOf ref.name) := hhead ▸ h.words name hname
  have hkept : r'.resolve ref.name = r.resolve ref.name := htype.symm.trans (h.resolved ref hold)
  rw [← hhead] at hmeant ⊢
  exact hword.resolveSimple_of_resolve_eq hkept hmeant

/-- A type is secured if every reference of the result resolves to the type it has. -/
theorem secured_of_resolve (h : Rescoped names r r' u v)
    (hresolve : ∀ ref ∈ referencesOf v.types, ref.type = r'.resolve ref.name) (hname : name ∈ names) :
    Secured r v name := by
  have hresolves : ∀ name ∈ names, r'.resolveSimple (simpleName name) = some name := fun name hname =>
    (h.type_importedReference_iff hname).mp (hresolve _ (h.accounts.present name hname))
  by_cases hbefore : r.resolveSimple (simpleName name) = some name
  · exact .inl hbefore
  rcases h.resolveSimple_simpleName_cases hname with hsame | ⟨full, -, -, hbound⟩
  · exact .inl (hsame ▸ hresolves name hname)
  · have hfull := h.resolveSimple_of_imported hbound
    rw [hresolves name hname, Option.some_inj] at hfull
    subst hfull
    refine .inr ⟨hbound, fun ref href hhead => ?_⟩
    rcases h.accounts.known ref href with hold | rfl | ⟨other, hother, rfl⟩
    · exact absurd
        (h.resolveSimple_of_old hname hold hhead (hresolve ref href) (hresolves name hname)) hbefore
    · have hreserved := (h.words name hname).reserved.2.2
      rw [← hhead, show headOf voidReference.name = "void" from headOf_void] at hreserved
      cases hreserved
    · have hsame : simpleName other = simpleName name :=
        (h.words other hother).headOf_eq.symm.trans hhead
      have heq := hresolves other hother
      rw [hsame, hresolves name hname] at heq
      rw [Option.some.inj heq]

end Rescoped

/-! ## The result of a run -/

section Run

variable {c : Config} {classpath : Classpath} {path source : String} {u w : CompilationUnit}
  {r r' : Resolver}

/-- References of the same names are the same if they all have the types of the names. -/
theorem references_eq_iff {refs refs' : List Reference} (h : ∀ ref ∈ refs', ref.type = r.resolve ref.name)
    (hnames : refs'.map (·.name) = refs.map (·.name)) :
    refs' = refs ↔ ∀ ref ∈ refs, ref.type = r.resolve ref.name := by
  have hread : ∀ refs : List Reference, (∀ ref ∈ refs, ref.type = r.resolve ref.name) →
      refs = (refs.map (·.name)).map fun name => ⟨name, r.resolve name⟩ := by
    intro refs hrefs
    rw [List.map_map]
    conv_lhs => rw [← List.map_id refs]
    exact List.map_congr_left fun ref href => by
      cases ref
      exact congrArg (Reference.mk _) (hrefs _ href)
  constructor
  · rintro rfl
    exact h
  · intro hrefs
    rw [hread refs' h, hread refs hrefs, hnames]

theorem rescoped_migrate (hc : c.Importable) (hparse : parse? classpath path source = some u)
    (hscope : scopeOf? classpath source = some r)
    (hagain : parse? classpath path (((ordinary c).migrate u).1.get u).print = some w)
    (hscope' : scopeOf? classpath (((ordinary c).migrate u).1.get u).print = some r')
    (hsame : ReadsBack r r' (((ordinary c).migrate u).1.get u) w) :
    Rescoped ((ordinary c).addedTypes u) r r' u (((ordinary c).migrate u).1.get u) := by
  obtain ⟨himports, hpackages, hclasspath, hresolved⟩ := resolved_of_parse? hparse hscope
  obtain ⟨himports', hpackages', hclasspath', -⟩ := resolved_of_parse? hagain hscope'
  have hrebinds := rebinds_migrate hc u
  have honDemand : r'.onDemand = r.onDemand := by
    rw [hpackages', packagesOf_congr hsame.imports, hrebinds.packages, imports_rewriteUnit, hpackages]
  refine ⟨hresolved, accounts_migrate hc u, fun name hname => (isImportable_addedTypes hc hname).word,
    fallback_congr hsame.package hsame.declared honDemand (hclasspath'.trans hclasspath.symm), himports,
    himports'.trans (namesBound_congr hsame.imports), fun ref href => ?_⟩
  rw [← imports_rewriteUnit (ordinary c) u]
  exact hrebinds.imported ref (hrebinds.references ▸ href)

/-- The references of a migrated unit are those of the unit, the `void` of new methods and the
types that were asked for; when the result is read again they have the same types exactly if all
the types that were asked for are secured. -/
theorem references_resolve_again_iff (hordinary : Ordinary c) (hplain : c.Plain) (hc : c.Importable)
    {m : RuleMigration} (hm : ofConfig c = .ok m) (hparse : parse? classpath path source = some u)
    (hscope : scopeOf? classpath source = some r)
    (hagain : parse? classpath path ((m.run u).1.get u).print = some w)
    (hscope' : scopeOf? classpath ((m.run u).1.get u).print = some r')
    (hsame : ReadsBack r r' ((m.run u).1.get u) w) :
    let v := (m.run u).1.get u
    Accounts (m.addedTypes u) (referencesOf u.types) (referencesOf v.types) ∧
      (∀ name ∈ m.addedTypes u, name = c.afterAnnotation ∨ name = c.exceptionType) ∧
      (referencesOf w.types = referencesOf v.types ↔ ∀ name ∈ m.addedTypes u, Secured r v name) := by
  have hrun := run_eq_migrate (madeFrom_of_ofConfig hm) hplain.rule u
  rw [hrun] at hagain hscope' hsame ⊢
  obtain rfl : m = ordinary c := Except.ok.inj (hm.symm.trans hordinary.ofConfig_eq)
  have h := rescoped_migrate hc hparse hscope hagain hscope' hsame
  obtain ⟨-, -, -, hresolved⟩ := resolved_of_parse? hagain hscope'
  refine ⟨h.accounts, fun name hname => mem_addedTypes hc hname, ?_⟩
  rw [references_eq_iff hresolved hsame.names]
  exact ⟨fun hresolve name hname => h.secured_of_resolve hresolve hname,
    fun hsecured ref href => h.resolve_of_secured hsecured href⟩

end Run

set_option maxRecDepth 100000 in
theorem importable_default : ({} : Config).Importable where
  rule := ⟨by decide, ⟨by decide, by decide, by decide, by decide, by decide⟩, by decide, by decide⟩
  after := ⟨by decide, ⟨by decide, by decide, by decide, by decide, by decide⟩, by decide, by decide⟩
  exception := ⟨by decide, ⟨by decide, by decide, by decide, by decide, by decide⟩, by decide, by decide⟩
  afterApart := by decide
  exceptionApart := by decide

/-! ## Reading again, computed -/

instance (r r' : Resolver) (v w : CompilationUnit) : Decidable (ReadsBack r r' v w) :=
  decidable_of_iff (r'.package = r.package ∧ r'.declared = r.declared ∧
      w.imports.map Import.bare = v.imports.map Import.bare ∧
      (referencesOf w.types).map (·.name) = (referencesOf v.types).map (·.name))
    ⟨fun ⟨h₁, h₂, h₃, h₄⟩ => ⟨h₁, h₂, h₃, h₄⟩, fun ⟨h₁, h₂, h₃, h₄⟩ => ⟨h₁, h₂, h₃, h₄⟩⟩

instance (r : Resolver) (v : CompilationUnit) (name : String) : Decidable (Secured r v name) :=
  inferInstanceAs (Decidable (_ ∨ _ ∧ ∀ ref ∈ referencesOf v.types, _ → _))

/-- Whether a source and the result of running a recipe on it are both read, and pass a test with
their scopes. -/
def rereads (m : RuleMigration) (source : String)
    (test : Resolver → Resolver → CompilationUnit → CompilationUnit → Bool) : Bool :=
  match readUnit source with
  | none => false
  | some (items, close) =>
    let r := resolverOf items (.ofList m.classpath)
    let u := unitOf r "A.java" items close
    match readUnit ((m.run u).1.get u).print with
    | none => false
    | some (items, close) =>
      let r' := resolverOf items (.ofList m.classpath)
      test r r' u (unitOf r' "A.java" items close)

theorem exists_of_rereads {m : RuleMigration} {source : String}
    {test : Resolver → Resolver → CompilationUnit → CompilationUnit → Bool}
    (h : rereads m source test) :
    ∃ u r w r', parse? (.ofList m.classpath) "A.java" source = some u ∧
      scopeOf? (.ofList m.classpath) source = some r ∧
      parse? (.ofList m.classpath) "A.java" ((m.run u).1.get u).print = some w ∧
      scopeOf? (.ofList m.classpath) ((m.run u).1.get u).print = some r' ∧ test r r' u w := by
  unfold rereads at h
  split at h
  · cases h
  · next items close hread =>
    dsimp only at h
    split at h
    · cases h
    · next items' close' hread' =>
      refine ⟨_, _, _, _, ?_, ?_, ?_, ?_, h⟩
      · rw [parse?, hread]; rfl
      · rw [scopeOf?, hread]; rfl
      · rw [parse?, hread']; rfl
      · rw [scopeOf?, hread']; rfl

/-! ## The default recipe -/

/-- For the default recipe: the references of the result are those of the unit, the `void` of new
methods, and the after annotation and the exception by their simple names. Read again, they all
have the types they had exactly if the types that were asked for are secured. -/
theorem generated_names_are_hygienic_iff {m : RuleMigration} (hm : ofConfig {} = .ok m)
    {classpath : Classpath} {path source : String} {u w : CompilationUnit} {r r' : Resolver}
    (hparse : parse? classpath path source = some u) (hscope : scopeOf? classpath source = some r)
    (hagain : parse? classpath path ((m.run u).1.get u).print = some w)
    (hscope' : scopeOf? classpath ((m.run u).1.get u).print = some r')
    (hsame : ReadsBack r r' ((m.run u).1.get u) w) :
    let v := (m.run u).1.get u
    Accounts (m.addedTypes u) (referencesOf u.types) (referencesOf v.types) ∧
      (∀ name ∈ m.addedTypes u,
        name = "org.junit.jupiter.api.AfterEach" ∨ name = "java.io.IOException") ∧
      (referencesOf w.types = referencesOf v.types ↔ ∀ name ∈ m.addedTypes u, Secured r v name) :=
  references_resolve_again_iff ordinary_default plain_default importable_default hm hparse hscope
    hagain hscope' hsame

set_option maxRecDepth 100000 in
theorem rereads_rule :
    rereads (ordinary {}) ruleSource fun r r' u w =>
      let v := ((ordinary {}).run u).1.get u
      decide (ReadsBack r r' v w) && !((ordinary {}).addedTypes u).isEmpty &&
        ((ordinary {}).addedTypes u).all fun name => decide (Secured r v name) := by
  decide +kernel

/-- A new method and its imports, which are read again as they were meant. -/
theorem new_method_is_hygienic :
    ∃ (m : RuleMigration) (u w : CompilationUnit), ofConfig {} = .ok m ∧
      parse? (.ofList m.classpath) "A.java" ruleSource = some u ∧
      parse? (.ofList m.classpath) "A.java" ((m.run u).1.get u).print = some w ∧
      m.addedTypes u ≠ [] ∧ referencesOf w.types = referencesOf ((m.run u).1.get u).types := by
  obtain ⟨u, r, w, r', hparse, hscope, hagain, hscope', htest⟩ := exists_of_rereads rereads_rule
  simp only [Bool.and_eq_true, decide_eq_true_eq, List.all_eq_true] at htest
  obtain ⟨⟨hsame, hadded⟩, hsecured⟩ := htest
  have hm := ordinary_default.ofConfig_eq
  obtain ⟨-, -, hiff⟩ := generated_names_are_hygienic_iff hm hparse hscope hagain hscope' hsame
  exact ⟨ordinary {}, u, w, hm, hparse, hagain, by simpa using hadded, hiff.mpr hsecured⟩

/-- A class with one rule field, in a file that imports the package of the after annotation on
demand, and another type by its simple name. -/
def otherImportSource : String :=
  "import org.junit.jupiter.api.*;\nimport other.AfterEach;\n" ++
    "class A \x7b @org.junit.Rule okhttp3.mockwebserver.MockWebServer s; \x7d"

/-- The types of the annotations in front of the methods of a unit's one class. -/
def methodAnnotations (u : CompilationUnit) : List (List (Option JavaType)) :=
  u.typeDecls.flatMap fun d => d.body.statements.filterMap fun
    | .method a => some (a.annotations.map (·.name.type))
    | _ => none

set_option maxRecDepth 100000 in
theorem rereads_otherImport :
    rereads (ordinary {}) otherImportSource fun r r' u w =>
      let v := ((ordinary {}).run u).1.get u
      decide (ReadsBack r r' v w) && methodAnnotations u == [] &&
        methodAnnotations v == [[some (.ofClass "org.junit.jupiter.api.AfterEach")]] &&
        methodAnnotations w == [[some (.ofClass "other.AfterEach")]] := by
  decide +kernel

/-- The one method of the result was generated under the after annotation, and is read again under
another one, which the file imports by the same simple name. -/
theorem other_import_takes_generated_name :
    ∃ (m : RuleMigration) (u w : CompilationUnit) (r r' : Resolver), ofConfig {} = .ok m ∧
      parse? (.ofList m.classpath) "A.java" otherImportSource = some u ∧
      parse? (.ofList m.classpath) "A.java" ((m.run u).1.get u).print = some w ∧
      ReadsBack r r' ((m.run u).1.get u) w ∧ methodAnnotations u = [] ∧
      methodAnnotations ((m.run u).1.get u) =
        [[some (.ofClass "org.junit.jupiter.api.AfterEach")]] ∧
      methodAnnotations w = [[some (.ofClass "other.AfterEach")]] := by
  obtain ⟨u, r, w, r', hparse, -, hagain, -, htest⟩ := exists_of_rereads rereads_otherImport
  simp only [Bool.and_eq_true, decide_eq_true_eq, beq_iff_eq] at htest
  obtain ⟨⟨⟨hsame, hbefore⟩, hmeant⟩, hread⟩ := htest
  exact ⟨ordinary {}, u, w, r, r', ordinary_default.ofConfig_eq, hparse, hagain, hsame, hbefore,
    hmeant, hread⟩

end RuleMigration

end JavaMigration.Recipe
