import JavaMigration.Proofs.Java.Built
import JavaMigration.Proofs.Java.Heads
import JavaMigration.Proofs.Java.Printed
import JavaMigration.Proofs.Source.References

/-!
# How a unit resolves its names

The resolver of a source looks a simple name up in the imports of the unit (`importedAs`) and then
in places that the imports on demand have a part in, and every reference of a unit that was read
has the type that this resolver gives it (`resolved_of_parse?`).
-/

namespace JavaMigration.Source

/-- An import without its identity and without the space before it. -/
def Import.bare (i : Import) : Import := { i with id := 0, lead := .empty }

/-- The target of an import that is not static. -/
def Import.plainTarget? (i : Import) : Option String := if i.isStatic then none else some i.target

/-- The package that an import takes all types of, if it is one on demand. -/
def Import.onDemand? (i : Import) : Option String :=
  if i.isStatic then none else Text.stripEnd? i.target ".*"

/-- The simple name that an import binds, with the type it stands for. -/
def Import.single? (i : Import) : Option (String × String) :=
  if i.isStatic || (Text.stripEnd? i.target ".*").isSome then none
  else (Text.splitLast '.' i.target).map fun p => (p.2, i.target)

/-- The packages imported on demand, in source order. -/
def packagesOf (imports : List Import) : List String := imports.filterMap Import.onDemand?

/-- The simple names that imports bind, the latest first. -/
def namesBound (imports : List Import) : List (String × String) :=
  (imports.filterMap Import.single?).reverse

/-- The type that imports make a simple name stand for. -/
def importedAs (simple : String) (imports : List Import) : Option String :=
  (namesBound imports).lookup simple

theorem filterMap_of_bare_eq {α : Type} {f : Import → Option α} (hf : ∀ i : Import, f i.bare = f i)
    {is js : List Import} (h : is.map Import.bare = js.map Import.bare) :
    is.filterMap f = js.filterMap f := by
  have hbare : ∀ is : List Import, (is.map Import.bare).filterMap f = is.filterMap f := by
    intro is
    rw [List.filterMap_map]
    exact List.filterMap_congr fun i _ => hf i
  rw [← hbare is, ← hbare js, h]

/-- The identity of an import and the space before it are of no account to the names. -/
theorem packagesOf_congr {is js : List Import} (h : is.map Import.bare = js.map Import.bare) :
    packagesOf is = packagesOf js := filterMap_of_bare_eq (fun _ => rfl) h

theorem namesBound_congr {is js : List Import} (h : is.map Import.bare = js.map Import.bare) :
    namesBound is = namesBound js :=
  congrArg List.reverse (filterMap_of_bare_eq (fun _ => rfl) h)

end JavaMigration.Source

namespace JavaMigration.Java

open Source

/-! ## The resolver of a source -/

theorem addImport_eq (r : Resolver) {i : Import} (h : i.isStatic = false) :
    r.addImport i.target =
      { r with
        imports := i.single?.toList ++ r.imports
        onDemand := r.onDemand ++ i.onDemand?.toList } := by
  unfold Resolver.addImport Import.single? Import.onDemand?
  rw [h]
  cases Text.stripEnd? i.target ".*" with
  | some package => simp
  | none => cases Text.splitLast '.' i.target <;> simp

theorem foldl_addImport (imports : List Import) (r : Resolver) :
    (imports.filterMap Import.plainTarget?).foldl Resolver.addImport r =
      { r with
        imports := namesBound imports ++ r.imports
        onDemand := r.onDemand ++ packagesOf imports } := by
  induction imports generalizing r with
  | nil => simp [namesBound, packagesOf]
  | cons i rest ih =>
    unfold namesBound packagesOf at ih ⊢
    cases hi : i.isStatic with
    | true =>
      have htarget : i.plainTarget? = none := by simp [Import.plainTarget?, hi]
      have hsingle : i.single? = none := by simp [Import.single?, hi]
      have hpackage : i.onDemand? = none := by simp [Import.onDemand?, hi]
      rw [List.filterMap_cons_none htarget, ih, List.filterMap_cons_none hsingle,
        List.filterMap_cons_none hpackage]
    | false =>
      have htarget : i.plainTarget? = some i.target := by simp [Import.plainTarget?, hi]
      rw [List.filterMap_cons_some htarget, List.foldl_cons, ih, addImport_eq r hi]
      cases hs : i.single? <;> cases hd : i.onDemand? <;> simp [hs, hd]

/-- Declaring types changes nothing but what is declared. -/
theorem foldl_declare (names : List String) (r : Resolver) :
    ∃ declared, names.foldl Resolver.declare r = { r with declared } := by
  induction names generalizing r with
  | nil => exact ⟨r.declared, rfl⟩
  | cons name rest ih =>
    obtain ⟨declared, hdeclared⟩ := ih (r.declare name)
    exact ⟨declared, by rw [List.foldl_cons, hdeclared]; rfl⟩

/-- The imports of the resolver are those of the unit. -/
theorem resolverOf_eq (items : List Syntax) (classpath : Classpath) :
    (resolverOf items classpath).imports = namesBound (importsOf items) ∧
      (resolverOf items classpath).onDemand = packagesOf (importsOf items) ∧
      (resolverOf items classpath).classpath = classpath := by
  unfold resolverOf
  extract_lets package targets resolver
  have htargets : targets = (importsOf items).filterMap Import.plainTarget? := by
    let target? (parts : List Syntax) : Option String :=
      if (importOf parts).1 then none else some (importOf parts).2
    have hread : (importsOf items).map Import.plainTarget? =
        (items.filterMap importParts).map target? := map_importsOf fun _ _ _ => rfl
    have htarget : (importsOf items).filterMap Import.plainTarget? =
        (items.filterMap importParts).filterMap target? := by
      have hid : ∀ {α : Type} (f : α → Option String) (as : List α),
          as.filterMap f = (as.map f).filterMap id := fun f as => by
        rw [List.filterMap_map, Function.id_comp]
      rw [hid, hread, ← hid]
    rw [htarget, List.filterMap_filterMap]
    unfold targets
    congr 1
    funext s
    cases s with
    | leaf l => rfl
    | node p parts =>
      cases p with
      | importDecl =>
        dsimp only [importParts, Option.bind_some, target?]
        cases importOf parts with
        | mk isStatic target => cases isStatic <;> rfl
      | _ => rfl
  obtain ⟨declared, hdeclared⟩ :=
    foldl_declare (declaredNames "" items) (targets.foldl Resolver.addImport resolver)
  rw [hdeclared, htargets, foldl_addImport]
  exact ⟨List.append_nil _, List.nil_append _, rfl⟩

/-- What a simple name stands for where no import is of that name. -/
def Resolver.fallback (r : Resolver) (simple : String) : Option String :=
  { r with imports := [] }.resolveSimple simple

theorem resolveSimple_eq (r : Resolver) (simple : String) :
    r.resolveSimple simple = (r.imports.lookup simple).or (r.fallback simple) := by
  unfold Resolver.fallback Resolver.resolveSimple
  cases r.imports.lookup simple <;> rfl

/-- Resolvers that differ in their imports of single types only have the same fallback. -/
theorem fallback_congr {r r' : Resolver} (hpackage : r'.package = r.package)
    (hdeclared : r'.declared = r.declared) (honDemand : r'.onDemand = r.onDemand)
    (hclasspath : r'.classpath = r.classpath) : r'.fallback = r.fallback := by
  cases r; cases r'
  subst hpackage hdeclared honDemand hclasspath
  rfl

/-! ## References of a unit that was read -/

section Reading

-- what a name resolves to is of no account here, and costly to evaluate
attribute [local irreducible] Resolver.resolve

/-- Every reference in the statements has the type that the resolver gives it. -/
def Resolved (r : Resolver) (ss : List Statement) : Prop :=
  ∀ ref ∈ referencesOf ss, ref.type = r.resolve ref.name

variable {r : Resolver}

theorem resolved_iff {ss : List Statement} :
    Resolved r ss ↔ ∀ s ∈ ss, ∀ ref ∈ s.references, ref.type = r.resolve ref.name := by
  constructor
  · exact fun h s hs ref href => h ref (mem_referencesOf_iff.mpr ⟨s, hs, href⟩)
  · intro h ref href
    obtain ⟨s, hs, href⟩ := mem_referencesOf_iff.mp href
    exact h s hs ref href

theorem resolved_leadingOf (modifiers : List Syntax) :
    ∀ ref ∈ annotationReferences (leadingOf r modifiers).1, ref.type = r.resolve ref.name := by
  induction modifiers with
  | nil => exact List.forall_mem_nil _
  | cons s rest ih =>
    unfold leadingOf
    cases ha : annotation? r s with
    | none => exact List.forall_mem_nil _
    | some a =>
      refine List.forall_mem_cons.mpr ⟨?_, ih⟩
      unfold annotation? at ha
      split at ha
      · cases ha
        rfl
      · cases ha

theorem resolved_throwsOf (throwing : List Syntax) :
    ∀ ref ∈ thrownReferences (throwsOf r throwing), ref.type = r.resolve ref.name := by
  intro ref href
  obtain ⟨i, hi, rfl⟩ := List.mem_map.mp href
  unfold throwsOf at hi
  split at hi
  · simp only [Option.map_some, Option.toList_some, List.flatten_cons, List.flatten_nil,
      List.append_nil] at hi
    obtain ⟨s, -, hs⟩ := List.mem_filterMap.mp hi
    split at hs
    · cases hs
      rfl
    · cases hs
  · cases hi

theorem resolved_head {d : MethodDecl}
    (hannotations : ∀ ref ∈ annotationReferences d.annotations, ref.type = r.resolve ref.name)
    (hresult : d.returnType.type = r.resolve d.returnType.name)
    (hthrows : ∀ ref ∈ thrownReferences d.throws, ref.type = r.resolve ref.name) :
    ∀ ref ∈ d.headReferences, ref.type = r.resolve ref.name :=
  List.forall_mem_append.mpr ⟨hannotations, List.forall_mem_cons.mpr ⟨hresult, hthrows⟩⟩

/-- Every reference of a statement that was built from a syntax tree has the type that the
resolver gives it. -/
theorem Shaped.resolved {s : Syntax} (h : Shaped s) :
    ∀ env id, env.resolver = r →
      ∀ ref ∈ (statementOf env id s).references, ref.type = r.resolve ref.name := by
  induction h with
  | type _ _ _ _ _ ih =>
    rintro env id rfl
    rw [statementOf, Statement.references_type]
    refine List.forall_mem_append.mpr ⟨resolved_leadingOf _, resolved_iff.mpr fun t ht => ?_⟩
    obtain ⟨c, hc, env', id', henv, rfl⟩ := mem_statementsOf ht
    exact ih c hc env' id' henv
  | enum _ _ _ _ _ _ ih =>
    rintro env id rfl
    rw [statementOf, Statement.references_type]
    refine List.forall_mem_append.mpr ⟨resolved_leadingOf _, resolved_iff.mpr fun t ht => ?_⟩
    rcases List.mem_append.mp ht with ht | ht
    · split at ht
      · cases ht
      · rw [List.mem_singleton.mp ht]
        exact List.forall_mem_nil _
    · obtain ⟨c, hc, env', id', lead, henv, rfl⟩ := mem_enumMembersOf ht
      rw [Statement.references_withLead]
      exact ih c hc env' id' henv
  | vars _ _ _ _ =>
    rintro env id rfl
    refine List.forall_mem_append.mpr ⟨resolved_leadingOf _, List.forall_mem_singleton.mpr ?_⟩
    unfold variablesOf
    dsimp only
    split <;> rfl
  | signature _ _ _ _ _ =>
    rintro env id rfl
    rw [statementOf, Statement.references_signature rfl]
    refine resolved_head (resolved_leadingOf _) ?_ (resolved_throwsOf _)
    dsimp only
    split <;> rfl
  | method _ _ _ _ _ _ _ _ ih =>
    rintro env id rfl
    rw [statementOf, Statement.references_method rfl]
    refine List.forall_mem_append.mpr
      ⟨resolved_head (resolved_leadingOf _) ?_ (resolved_throwsOf _), resolved_iff.mpr fun t ht => ?_⟩
    · dsimp only
      split <;> rfl
    · obtain ⟨c, hc, env', id', henv, rfl⟩ := mem_statementsOf ht
      exact ih c hc env' id' henv
  | expression =>
    rintro env id rfl
    rw [statementOf_expression]
    split <;> exact List.forall_mem_nil _
  | raw h =>
    rintro env id rfl
    rw [h]
    exact List.forall_mem_nil _

end Reading

/-- The names that a source has in scope; `none` if it is no Java. -/
def scopeOf? (classpath : Classpath) (source : String) : Option Resolver :=
  (readUnit source).map fun (items, _) => resolverOf items classpath

/-- A unit that was read has the imports of its scope, and every reference in it the type that its
scope gives the name. -/
theorem resolved_of_parse? {classpath : Classpath} {path source : String} {u : CompilationUnit}
    (h : parse? classpath path source = some u) (hscope : scopeOf? classpath source = some r) :
    r.imports = namesBound u.imports ∧ r.onDemand = packagesOf u.imports ∧
      r.classpath = classpath ∧ Resolved r u.types := by
  unfold parse? at h
  obtain ⟨⟨items, close⟩, hread, rfl⟩ := Option.map_eq_some_iff.mp h
  unfold scopeOf? at hscope
  rw [hread] at hscope
  cases hscope
  obtain ⟨himports, honDemand, hclasspath⟩ := resolverOf_eq items classpath
  refine ⟨himports, honDemand, hclasspath, resolved_iff.mpr fun t ht => ?_⟩
  rcases mem_topLevelOf ht with ⟨cs, id, hcs, rfl⟩ | ⟨id, cs, rfl⟩
  · exact (readUnit_valid hread _ hcs).shaped.resolved _ id rfl
  · exact nofun

end JavaMigration.Java
