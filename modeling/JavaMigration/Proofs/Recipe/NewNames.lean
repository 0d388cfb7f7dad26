import JavaMigration.Proofs.Edit.ImportedNames
import JavaMigration.Proofs.Recipe.Again
import JavaMigration.Proofs.Recipe.Failure
import JavaMigration.Proofs.Recipe.Generated

/-!
# The names that a migration brings

Generated code names the after annotation and the exception by their simple names. Every reference
in what a migration makes of a unit is one of the unit's own, the `void` of a new method, or the
simple name of a type that the migration asks to import, and each such type is named
(`accounts_migrate`).
-/

namespace JavaMigration.Text

/-! ## Replacing what is not there -/

theorem replaceFrom_of_not_mem {c : Char} {s : List Char} (h : c ∉ s) (needle new : List Char) :
    replaceFrom (c :: needle) new 0 s = s := by
  induction s with
  | nil => rfl
  | cons d s ih =>
    rw [List.mem_cons, not_or] at h
    rw [replaceFrom, if_neg (by simp [List.isPrefixOf, h.1]), ih h.2]

end JavaMigration.Text

namespace JavaMigration.Edit

open Java Source

/-- Filling in for a placeholder leaves a text without underscores as it is. -/
theorem fillText_of_not_mem {text : String} (h : '_' ∉ text.toList) (node : Node) :
    Bindings.fillText [("__p0__", node)] text = text := by
  show Text.replace text "__p0__" (sourceOf node) = text
  unfold Text.replace
  rw [if_neg (by decide), show "__p0__".toList = '_' :: ['_', 'p', '0', '_', '_'] from by decide,
    Text.replaceFrom_of_not_mem h, String.ofList_toList]

theorem fillIdentifier_of_not_mem {i : Identifier} (h : '_' ∉ i.name.toList) (node : Node) :
    Bindings.fillIdentifier [("__p0__", node)] i = i := by
  have hne : i.name ≠ "__p0__" := fun heq => h (by rw [heq]; decide)
  unfold Bindings.fillIdentifier
  rw [List.lookup_cons, beq_false_of_ne hne, List.lookup_nil, fillText_of_not_mem h]

end JavaMigration.Edit

namespace JavaMigration.Recipe

open Java Source Match Edit

/-- The qualified name of a type that can be imported and then named by its simple name: that is a
word of its own, which only a type can have, and has nothing of a placeholder in it. -/
structure IsImportable (name : String) : Prop where
  single : Text.stripEnd? name ".*" = none
  word : IsTypeWord (simpleName name)
  named : (simpleName name).toList.head?.any Text.isNameChar
  plain : '_' ∉ (simpleName name).toList

/-- Settings whose types can be imported, none of which is the type of the fields. -/
structure Config.Importable (c : Config) : Prop where
  rule : IsImportable c.ruleAnnotation
  after : IsImportable c.afterAnnotation
  exception : IsImportable c.exceptionType
  afterApart : c.afterAnnotation ≠ c.trackedType
  exceptionApart : c.exceptionType ≠ c.trackedType

namespace RuleMigration

/-! ## Accounts -/

/-- How generated code refers to an imported type. -/
def importedReference (name : String) : Reference := ⟨simpleName name, some (.ofClass name)⟩

def voidReference : Reference := ⟨"void", some (.primitive "void")⟩

/-- The new references are old ones, `void`, or those of some imported types, all of which are
there. -/
structure Accounts (names : List String) (old new : List Reference) : Prop where
  known : ∀ ref ∈ new, ref ∈ old ∨ ref = voidReference ∨ ∃ name ∈ names, ref = importedReference name
  present : ∀ name ∈ names, importedReference name ∈ new

namespace Accounts

variable {names more : List String} {old new later : List Reference}

theorem refl (refs : List Reference) : Accounts [] refs refs := ⟨fun _ h => .inl h, nofun⟩

theorem of_subset (h : new ⊆ old) : Accounts [] old new := ⟨fun _ href => .inl (h href), nofun⟩

theorem importing (refs : List Reference) (name : String) :
    Accounts [name] refs (refs ++ [importedReference name]) where
  known ref href := by
    rcases List.mem_append.mp href with hold | hnew
    · exact .inl hold
    · exact .inr (.inr ⟨name, List.mem_cons_self, List.mem_singleton.mp hnew⟩)
  present other hother := by
    rw [List.mem_singleton.mp hother]
    exact List.mem_append_right _ List.mem_cons_self

theorem void (refs : List Reference) : Accounts [] refs (refs ++ [voidReference]) where
  known ref href := by
    rcases List.mem_append.mp href with hold | hnew
    · exact .inl hold
    · exact .inr (.inl (List.mem_singleton.mp hnew))
  present := nofun

/-- A reference that is known stays known if there are more old ones and more imported types. -/
theorem known_of_subset (h : Accounts names old new) (hold : old ⊆ later) (hnames : names ⊆ more)
    {ref : Reference} (href : ref ∈ new) :
    ref ∈ later ∨ ref = voidReference ∨ ∃ name ∈ more, ref = importedReference name := by
  rcases h.known ref href with hkept | hvoid | ⟨name, hname, rfl⟩
  · exact .inl (hold hkept)
  · exact .inr (.inl hvoid)
  · exact .inr (.inr ⟨name, hnames hname, rfl⟩)

theorem append {old' new' : List Reference} (h : Accounts names old new)
    (h' : Accounts more old' new') : Accounts (names ++ more) (old ++ old') (new ++ new') where
  known ref href := by
    rcases List.mem_append.mp href with href | href
    · exact h.known_of_subset (List.subset_append_left _ _) (List.subset_append_left _ _) href
    · exact h'.known_of_subset (List.subset_append_right _ _) (List.subset_append_right _ _) href
  present name hname := by
    rcases List.mem_append.mp hname with hname | hname
    · exact List.mem_append_left _ (h.present name hname)
    · exact List.mem_append_right _ (h'.present name hname)

/-- References that keep what is there already can be accounted for on top of each other. -/
theorem trans (h : Accounts names old new) (h' : Accounts more new later) (hkept : new ⊆ later) :
    Accounts (names ++ more) old later where
  known ref href := by
    rcases h'.known ref href with hnew | hvoid | ⟨name, hname, rfl⟩
    · exact h.known_of_subset (List.Subset.refl _) (List.subset_append_left _ _) hnew
    · exact .inr (.inl hvoid)
    · exact .inr (.inr ⟨name, List.mem_append_right _ hname, rfl⟩)
  present name hname := by
    rcases List.mem_append.mp hname with hname | hname
    · exact hkept (h.present name hname)
    · exact h'.present name hname

/-- What stands around the references needs no account. -/
theorem inside (h : Accounts names old new) (front back : List Reference) :
    Accounts names (front ++ old ++ back) (front ++ new ++ back) := by
  simpa using ((refl front).append h).append (refl back)

theorem congr (h : Accounts names old new) (hnames : ∀ name, name ∈ more ↔ name ∈ names) :
    Accounts more old new where
  known _ href := h.known_of_subset (List.Subset.refl _) (fun name => (hnames name).mpr) href
  present name hname := h.present name ((hnames name).mp hname)

end Accounts

/-! ## Generated code -/

variable {c : Config}

theorem references_fillMethod (b : Bindings) {d : MethodDecl} {body : Block}
    (hbody : d.body = some body) :
    (Statement.method (b.fillMethod d)).references =
      annotationReferences (d.annotations.map b.fillAnnotation) ++
        (b.fillIdentifier d.returnType).reference :: thrownReferences (d.throws.map b.fillThrows) ++
          referencesOf (b.fillStatements body.statements) := by
  cases d; subst hbody; cases body; rfl

theorem referencesOf_closeMethod (hc : c.Importable) {field : Identifier} {new : List Statement}
    (hnew : (ordinary c).newMethod.asMembers? [.identifier field] = some new) :
    referencesOf new =
      [importedReference c.afterAnnotation, voidReference, importedReference c.exceptionType] := by
  let bindings : Bindings := [("__p0__", .identifier field)]
  have hfill : ∀ i : Identifier, '_' ∉ i.name.toList → bindings.fillIdentifier i = i := fun i hi =>
    fillIdentifier_of_not_mem hi _
  have hmethod : new = [.method (bindings.fillMethod (closeMethodOf c))] :=
    (Option.some.inj hnew).symm
  have hafter := hfill (importedType .empty c.afterAnnotation) hc.after.plain
  have hexception := hfill (importedType .single c.exceptionType) hc.exception.plain
  have hvoid := hfill (closeMethodOf c).returnType (show '_' ∉ "void".toList by decide)
  rw [hmethod, referencesOf_cons, references_fillMethod bindings rfl, hvoid]
  unfold closeMethodOf annotationReferences thrownReferences
  simp only [List.map_cons, List.map_nil, Option.map_some, Bindings.fillAnnotation,
    Bindings.fillThrows, hafter, hexception]
  rfl

theorem referencesOf_closeStatement {field : Identifier} {new : List Statement}
    (hnew : (ordinary c).closeStatement.asStatements? [.identifier field] = some new) :
    referencesOf new = [] := by
  cases hnew
  rfl

theorem referencesOf_extendedBy {before after : Block} {new : List Statement}
    (h : before.ExtendedBy new after) :
    referencesOf after.statements = referencesOf before.statements ++ referencesOf new := by
  obtain ⟨added, close, rfl, hbare, -, -⟩ := h
  dsimp only
  rw [referencesOf_append, referencesOf_of_bare_eq hbare]

theorem thrownReferences_addThrown (throws : Option Throws) (type : Identifier) :
    thrownReferences (some (Template.addThrown throws type)) =
      thrownReferences throws ++ [type.reference] := by
  cases throws <;> simp [thrownReferences, Template.addThrown, Identifier.reference]

/-- Closing a field in a method accounts for what the method throws then. -/
theorem accounts_declaresThrown {throws new : Option Throws} {imports : List String}
    (h : (ordinary c).DeclaresThrown throws new imports) :
    Accounts imports (thrownReferences throws) (thrownReferences new) ∧
      thrownReferences throws ⊆ thrownReferences new ∧ ∀ name ∈ imports, name = c.exceptionType := by
  obtain ⟨rfl, rfl⟩ | ⟨type, htype, rfl, rfl⟩ := h
  · exact ⟨.refl _, List.Subset.refl _, nofun⟩
  · have hreference : type.reference = importedReference c.exceptionType := by
      cases htype
      rfl
    rw [thrownReferences_addThrown, hreference]
    exact ⟨.importing _ _, List.subset_append_left _ _, fun name => List.mem_singleton.mp⟩

/-- A new method accounts for its own references. -/
theorem accounts_newMethod (c : Config) (refs : List Reference) :
    Accounts [c.afterAnnotation, c.exceptionType] refs
      (refs ++ [importedReference c.afterAnnotation, voidReference,
        importedReference c.exceptionType]) := by
  have hhead := (Accounts.importing refs c.afterAnnotation).trans (.void _)
    (List.subset_append_left _ _)
  have hall := hhead.trans (.importing _ c.exceptionType) (List.subset_append_left _ _)
  simpa using hall

theorem imports_newMethod (hc : c.Importable) :
    (ordinary c).newMethod.imports.filter (· != (ordinary c).config.trackedType) =
      [c.afterAnnotation, c.exceptionType] := by
  show [c.afterAnnotation, c.exceptionType, c.trackedType].filter (· != c.trackedType) = _
  simp [hc.afterApart, hc.exceptionApart]

/-- Closing a field in a type keeps its references and accounts for the new ones. -/
theorem accounts_closeField (hc : c.Importable) {μ : Type} {d e : TypeDecl} {field : Identifier}
    {method : Option StatementId} {cursor : Cursor μ} {imports : List String}
    (hcursor : cursor.path.head? = some (.type d))
    (hclose : (ordinary c).closeField d field method cursor = .ok (e, imports)) :
    Accounts imports (Statement.type d).references (Statement.type e).references ∧
      (Statement.type d).references ⊆ (Statement.type e).references ∧
      ∀ name ∈ imports, name = c.afterAnnotation ∨ name = c.exceptionType := by
  rw [Statement.references_type, Statement.references_type]
  obtain ⟨rfl, rfl⟩ | ⟨new, body, hnew, hbody, -, rfl, rfl⟩ |
    ⟨front, a, back, old, new, body, throws, hsplit, hold, hnew, hbody, -, hthrows, rfl⟩ :=
      closeField_ok hcursor hclose
  · exact ⟨.refl _, List.Subset.refl _, nofun⟩
  · rw [imports_newMethod hc]
    dsimp only
    rw [referencesOf_extendedBy hbody, referencesOf_closeMethod hc hnew, ← List.append_assoc]
    exact ⟨accounts_newMethod c _, List.subset_append_left _ _, by simp⟩
  · obtain ⟨haccounts, hkept, hnames⟩ := accounts_declaresThrown hthrows
    let before := annotationReferences d.annotations ++ referencesOf front ++
      annotationReferences a.annotations ++ [a.returnType.reference]
    let behind := referencesOf old.statements ++ referencesOf back
    have hbefore : annotationReferences d.annotations ++ referencesOf d.body.statements =
        before ++ thrownReferences a.throws ++ behind := by
      rw [hsplit, referencesOf_append, referencesOf_cons, Statement.references_method hold]
      simp [before, behind, MethodDecl.headReferences]
    have hafter : annotationReferences d.annotations ++
        referencesOf (front ++ .method { a with body := some body, throws } :: back) =
          before ++ thrownReferences throws ++ behind := by
      rw [referencesOf_append, referencesOf_cons, Statement.references_method rfl,
        referencesOf_extendedBy hbody, referencesOf_closeStatement hnew]
      simp [before, behind, MethodDecl.headReferences]
    rw [hbefore, hafter]
    exact ⟨haccounts.inside before behind,
      append_subset_append (append_subset_append (List.Subset.refl _) hkept) (List.Subset.refl _),
      fun name hname => .inr (hnames name hname)⟩

/-! ## Requests -/

section Requests

variable {m : RuleMigration}

/-- What requests add is what they ask for, and they remove the rule annotation only. -/
theorem foldl_request (requests : List (List String)) (e : ImportEdits) :
    (∀ name, name ∈ (requests.foldl m.request e).additions ↔
        name ∈ e.additions ∨ name ∈ requests.flatten) ∧
      ∀ name ∈ (requests.foldl m.request e).removals,
        name ∈ e.removals ∨ name = m.config.ruleAnnotation := by
  induction requests generalizing e with
  | nil => exact ⟨by simp, fun _ hname => .inl hname⟩
  | cons names requests ih =>
    obtain ⟨hadditions, hremovals⟩ := ih (m.request e names)
    obtain ⟨_, hkept, -⟩ := exists_foldl_add names e
    rw [List.foldl_cons]
    constructor
    · intro name
      rw [hadditions, request, additions_remove, mem_foldl_add_iff, List.flatten_cons, List.mem_append,
        or_assoc]
    · intro name hname
      rcases hremovals name hname with hold | hrule
      · rw [request] at hold
        rcases mem_removals_remove hold with hold | hrule
        · rw [hkept] at hold
          exact .inl hold
        · exact .inr hrule
      · exact .inr hrule

end Requests

/-! ## The result of a migration -/

theorem references_unmarked (m : RuleMigration) (d : VariableDecl) :
    (m.unmarked d).references ⊆ d.references := by
  unfold unmarked VariableDecl.retainAnnotations
  extract_lets kept
  have hkept : kept.references ⊆ d.references :=
    append_subset_append (List.map_subset _ (List.filter_subset_self _)) (List.Subset.refl _)
  have hclear : kept.clearFirst.references = kept.references := by
    unfold VariableDecl.clearFirst
    split
    · next heq => simp [VariableDecl.references, annotationReferences, heq]
    · rfl
    · rfl
  split
  · rw [hclear]
    exact hkept
  · exact hkept

theorem requestAt_self {m : RuleMigration} {above : List Node}
    (hunder : m.underFailure above = false) (d : TypeDecl) :
    [(above, d)].filterMap m.requestAt = (imports? (m.outcome above d)).toList := by
  cases hi : imports? (m.outcome above d) <;> simp [requestAt, hunder, hi]

theorem accounts_rewriteType (hc : c.Importable) {above : List Node} {d : TypeDecl}
    (hunder : (ordinary c).underFailure above = false)
    (hvisited : (ordinary c).underFailure (.type d :: above) = false →
      Accounts ((d.body.sites (.type d :: above)).filterMap (ordinary c).requestAt).flatten
        (referencesOf d.body.statements)
        (referencesOf ((ordinary c).visitedType above d).body.statements)) :
    Accounts ((d.sites above).filterMap (ordinary c).requestAt).flatten (Statement.type d).references
      (Statement.type (((ordinary c).rewriteType above d).get d)).references := by
  have hfails : (ordinary c).underFailure (.type d :: above) =
      (fault? ((ordinary c).outcome above d)).isSome := by
    rw [underFailure, hunder, Bool.or_false]
  have hmembers : (fault? ((ordinary c).outcome above d)).isSome = false →
      Accounts ((d.body.sites (.type d :: above)).filterMap (ordinary c).requestAt).flatten
        (Statement.type d).references
        (Statement.type ((ordinary c).visitedType above d)).references := fun h => by
    have hin := (hvisited (hfails.trans h)).inside (annotationReferences d.annotations) []
    rw [List.append_nil, List.append_nil] at hin
    rw [Statement.references_type, Statement.references_type]
    exact hin
  rw [TypeDecl.sites_eq, List.filterMap_append, List.flatten_append, requestAt_self hunder]
  obtain ⟨hout, hget⟩ | ⟨fault, hout, hget⟩ | ⟨field, imports, e, hout, -, hclose, hget⟩ :=
    (ordinary c).rewriteType_cases above d
  · rw [hout] at hmembers
    rw [hout, hget]
    exact (List.append_nil _).symm ▸ hmembers rfl
  · have hnone := (ordinary c).requests_underFailure
      (underFailure_sitesOfBlock (ordinary c) (by rw [hfails, hout]; rfl) d.body)
    rw [hnone, hout, hget]
    exact .refl _
  · obtain ⟨haccounts, hkept, -⟩ := accounts_closeField hc (by rw [Cursor.path_ofPath]; rfl) hclose
    rw [hout] at hmembers
    rw [hout, hget]
    exact (hmembers rfl).trans (by simpa [imports?] using haccounts) hkept

/-- A migration accounts for every reference in what it makes of some statements, by what the types
in them ask to import. -/
theorem accounts_rewriteAll (hc : c.Importable) (ss : List Statement) (above : List Node)
    (hunder : (ordinary c).underFailure above = false) :
    Accounts ((sitesOf above ss).filterMap (ordinary c).requestAt).flatten (referencesOf ss)
      (referencesOf (((ordinary c).rewriteAll above ss).get ss)) := by
  induction ss using statements_induction generalizing above with
  | nil => exact .refl _
  | type d rest hbody hrest =>
    have hvisited : (ordinary c).underFailure (.type d :: above) = false →
        Accounts ((d.body.sites (.type d :: above)).filterMap (ordinary c).requestAt).flatten
          (referencesOf d.body.statements)
          (referencesOf ((ordinary c).visitedType above d).body.statements) := fun hin => by
      have hmembers := hbody (.block d.body :: .type d :: above) hin
      rw [← statements_rewriteBlock] at hmembers
      rw [Block.sites_eq]
      exact hmembers
    have hget : ((ordinary c).rewrite above (.type d)).get (.type d) =
        .type (((ordinary c).rewriteType above d).get d) := Revision.get_map
    have hsites : sitesOf above (.type d :: rest) = d.sites above ++ sitesOf above rest := rfl
    rw [get_rewriteAll_cons, hget, hsites, List.filterMap_append, List.flatten_append]
    exact (accounts_rewriteType hc hunder hvisited).append (hrest above hunder)
  | method d b rest hb hbody hrest =>
    have hmembers := hbody (.block b :: .method d :: above) hunder
    rw [← statements_rewriteBlock] at hmembers
    have hsites : sitesOf above (.method d :: rest) =
        sitesOf (.block b :: .method d :: above) b.statements ++ sitesOf above rest := by
      cases d; subst hb; cases b; rfl
    rw [get_rewriteAll_cons, get_rewrite_method hb, hsites, List.filterMap_append,
      List.flatten_append, referencesOf_cons, referencesOf_cons, Statement.references_method hb,
      Statement.references_method rfl]
    have hin := hmembers.inside d.headReferences []
    rw [List.append_nil, List.append_nil] at hin
    exact hin.append (hrest above hunder)
  | signature d rest hb hrest =>
    have hsites : sitesOf above (.method d :: rest) = sitesOf above rest := by
      cases d; subst hb; rfl
    rw [get_rewriteAll_cons, get_rewrite_signature hb, hsites]
    exact (Accounts.refl _).append (hrest above hunder)
  | vars d rest hrest =>
    have hget : ((ordinary c).rewrite above (.vars d)).get (.vars d) =
        .vars (((ordinary c).rewriteVars d).get d) := Revision.get_map
    have hd : (((ordinary c).rewriteVars d).get d).references ⊆ d.references := by
      unfold rewriteVars
      split
      · exact references_unmarked _ d
      · exact List.Subset.refl _
    rw [get_rewriteAll_cons, hget]
    exact (Accounts.of_subset hd).append (hrest above hunder)
  | call k rest hrest =>
    rw [get_rewriteAll_cons]
    exact hrest above hunder
  | raw k rest hrest =>
    rw [get_rewriteAll_cons]
    exact hrest above hunder

/-- A type asks to import the after annotation and the exception, if anything. -/
theorem requestAt_names (hc : c.Importable) {site : List Node × TypeDecl} {names : List String}
    (h : (ordinary c).requestAt site = some names) :
    ∀ name ∈ names, name = c.afterAnnotation ∨ name = c.exceptionType := by
  unfold requestAt at h
  split at h
  · cases h
  · obtain ⟨hout, -⟩ | ⟨fault, hout, -⟩ | ⟨field, imports, e, hout, -, hclose, -⟩ :=
      (ordinary c).rewriteType_cases site.1 site.2
    · rw [hout] at h
      cases h
    · rw [hout] at h
      cases h
    · rw [hout] at h
      cases h
      exact (accounts_closeField hc (by rw [Cursor.path_ofPath]; rfl) hclose).2.2

/-- The types that a migration of a unit asks to import. -/
def addedTypes (m : RuleMigration) (u : CompilationUnit) : List String :=
  ((m.visitor u.path).run {} u).2.imports.additions

theorem addedTypes_eq (m : RuleMigration) (u : CompilationUnit) :
    m.addedTypes u = (m.progress u).imports.additions := by
  rw [addedTypes, run_visitor]

theorem mem_addedTypes_iff {m : RuleMigration} {u : CompilationUnit} {name : String} :
    name ∈ m.addedTypes u ↔ name ∈ (u.sites.filterMap m.requestAt).flatten := by
  rw [addedTypes_eq, imports_progress, (foldl_request _ _).1]
  simp

theorem mem_addedTypes (hc : c.Importable) {u : CompilationUnit} {name : String}
    (h : name ∈ (ordinary c).addedTypes u) : name = c.afterAnnotation ∨ name = c.exceptionType := by
  obtain ⟨names, hnames, hname⟩ := List.mem_flatten.mp (mem_addedTypes_iff.mp h)
  obtain ⟨site, -, hsite⟩ := List.mem_filterMap.mp hnames
  exact requestAt_names hc hsite name hname

theorem isImportable_addedTypes (hc : c.Importable) {u : CompilationUnit} {name : String}
    (h : name ∈ (ordinary c).addedTypes u) : IsImportable name := by
  rcases mem_addedTypes hc h with rfl | rfl
  · exact hc.after
  · exact hc.exception

theorem get_migrate (m : RuleMigration) (u : CompilationUnit) :
    (m.migrate u).1.get u =
      ((m.progress u).imports.apply ((m.rewriteUnit u).get u)).get ((m.rewriteUnit u).get u) := by
  rw [migrate_eq]
  cases (m.progress u).imports.apply ((m.rewriteUnit u).get u) <;> rfl

theorem imports_rewriteUnit (m : RuleMigration) (u : CompilationUnit) :
    ((m.rewriteUnit u).get u).imports = u.imports := by
  unfold rewriteUnit
  cases m.rewriteAll [.unit u] u.types <;> rfl

/-- The result of a migration imports what is at the head of a reference as the unit did before, or
as a type that the migration asked for. -/
theorem rebinds_migrate (hc : c.Importable) (u : CompilationUnit) :
    Rebinds ((ordinary c).addedTypes u) (((ordinary c).rewriteUnit u).get u)
      (((ordinary c).migrate u).1.get u) := by
  rw [get_migrate, addedTypes_eq]
  refine rebinds_apply (fun name hname => ?_) (fun name hname => ?_) _
  · rw [← addedTypes_eq] at hname
    exact (isImportable_addedTypes hc hname).single
  · rw [imports_progress] at hname
    rcases (foldl_request _ _).2 name hname with hnone | rfl
    · cases hnone
    · exact ⟨hc.rule.single, hc.rule.named⟩

/-- Every reference in the result of a migration is one of the unit's own, `void`, or the simple
name of a type that the migration asked to import; and each such type is named. -/
theorem accounts_migrate (hc : c.Importable) (u : CompilationUnit) :
    Accounts ((ordinary c).addedTypes u) (referencesOf u.types)
      (referencesOf (((ordinary c).migrate u).1.get u).types) := by
  rw [(rebinds_migrate hc u).references, types_rewriteUnit]
  exact (accounts_rewriteAll hc u.types [.unit u] rfl).congr fun _ => mem_addedTypes_iff

end RuleMigration

end JavaMigration.Recipe
