import JavaMigration.Proofs.Java.Erasure
import JavaMigration.Proofs.Java.Resolution
import JavaMigration.Proofs.Java.Variables

/-!
# The names of declared types

A declared type gets its name in two places: the resolver of a source knows it under the names that
are declared before the tree is built, and the tree gives it the type of the place where it stands.
Both are the same (`declared_types_resolve`), but for a name that an import binds, and for a type
that is called `var` or like a primitive type.
-/

namespace JavaMigration.Source

open Java

/-! ## Types with their source names -/

mutual

/-- The types in a statement with their source names, in source order. Those within methods are left
out. -/
def Statement.memberTypes (outer : String) : Statement → List (String × TypeDecl)
  | .type d => d.memberTypes outer
  | _ => []

def TypeDecl.memberTypes (outer : String) : TypeDecl → List (String × TypeDecl)
  | ⟨id, lead, annotations, modifiers, kind, kindLead, name, header, body, type⟩ =>
    (nestedName outer name.name,
        ⟨id, lead, annotations, modifiers, kind, kindLead, name, header, body, type⟩) ::
      body.memberTypes (nestedName outer name.name)

def Block.memberTypes (outer : String) : Block → List (String × TypeDecl)
  | ⟨_, statements, _⟩ => memberTypesOf outer statements

def memberTypesOf (outer : String) : List Statement → List (String × TypeDecl)
  | [] => []
  | s :: r => s.memberTypes outer ++ memberTypesOf outer r

end

theorem Statement.memberTypes_type (outer : String) (d : TypeDecl) :
    (Statement.type d).memberTypes outer =
      (nestedName outer d.name.name, d) ::
        memberTypesOf (nestedName outer d.name.name) d.body.statements := by
  cases d with
  | mk _ _ _ _ _ _ _ _ body _ => cases body; rfl

theorem mem_memberTypesOf_iff {outer : String} {ss : List Statement} {p : String × TypeDecl} :
    p ∈ memberTypesOf outer ss ↔ ∃ s ∈ ss, p ∈ s.memberTypes outer := by
  induction ss with
  | nil => simp [memberTypesOf]
  | cons s ss ih => simp [memberTypesOf, ih]

/-- The space of a statement is of no account to the names and types in it. -/
theorem exists_of_mem_memberTypes_withLead {outer : String} {s : Statement} {lead : Space}
    {p : String × TypeDecl} (h : p ∈ (s.withLead lead).memberTypes outer) :
    ∃ d, (p.1, d) ∈ s.memberTypes outer ∧ p.2.name = d.name ∧ p.2.type = d.type := by
  cases s with
  | type d =>
    rw [Statement.withLead, Statement.memberTypes_type] at h
    rw [Statement.memberTypes_type]
    rcases List.mem_cons.mp h with rfl | h
    · exact ⟨d, List.mem_cons_self, rfl, rfl⟩
    · exact ⟨p.2, List.mem_cons_of_mem _ h, rfl, rfl⟩
  | _ => cases h

end JavaMigration.Source

namespace JavaMigration.Java

open Source Text

/-! ## What is declared -/

section Declaring

variable (r : Resolver) (names : List String)

theorem qualify_append (front back : String) :
    r.qualify (front ++ back) = r.qualify front ++ back := by
  unfold Resolver.qualify
  split
  · rfl
  · simp only [String.append_assoc]

theorem qualify_foldl_declare : (names.foldl Resolver.declare r).qualify = r.qualify := by
  obtain ⟨declared, hdeclared⟩ := foldl_declare names r
  rw [hdeclared]
  rfl

/-- A declaration takes its own name, and its last part if nothing is known of that. -/
theorem lookup_declare (name x : String) :
    (r.declare name).declared.lookup x =
      if x = name then some (r.qualify name)
      else
        (r.declared.lookup x).or
          (if simpleName name = x then some (r.qualify name) else none) := by
  unfold Resolver.declare
  dsimp only
  by_cases hname : x = name
  · rw [if_pos hname, hname, List.lookup_cons_self]
  · rw [if_neg hname, List.lookup_cons, beq_eq_false_iff_ne.mpr hname]
    dsimp only
    cases hknown : r.declared.lookup (simpleName name) with
    | some full =>
      rw [Option.isSome_some, if_pos rfl]
      split
      · next hsimple =>
        rw [← hsimple, hknown]
        rfl
      · rw [Option.or_none]
    | none =>
      rw [Option.isSome_none, if_neg Bool.false_ne_true]
      by_cases hsimple : simpleName name = x
      · rw [if_pos hsimple, ← hsimple, hknown, List.lookup_cons_self]
        rfl
      · rw [if_neg hsimple, List.lookup_cons, beq_eq_false_iff_ne.mpr (Ne.symm hsimple),
          Option.or_none]

/-- Of all declarations one of that very name is found, and otherwise what was known of the name
before, and then the first declaration whose last part it is. -/
theorem lookup_foldl_declare (x : String) :
    (names.foldl Resolver.declare r).declared.lookup x =
      if x ∈ names then some (r.qualify x)
      else (r.declared.lookup x).or ((names.find? (simpleName · == x)).map r.qualify) := by
  induction names generalizing r with
  | nil => simp
  | cons name rest ih =>
    have hqualify : (r.declare name).qualify = r.qualify := rfl
    rw [List.foldl_cons, ih, lookup_declare, hqualify]
    by_cases hrest : x ∈ rest
    · rw [if_pos hrest, if_pos (List.mem_cons_of_mem _ hrest)]
    · by_cases hname : x = name
      · rw [if_neg hrest, if_pos hname, if_pos (hname ▸ List.mem_cons_self), hname]
        rfl
      · have hnot : x ∉ name :: rest := by simp [hname, hrest]
        rw [if_neg hrest, if_neg hname, if_neg hnot, Option.or_assoc, List.find?_cons]
        by_cases hsimple : simpleName name = x
        · rw [if_pos hsimple, beq_iff_eq.mpr hsimple]
          rfl
        · rw [if_neg hsimple, beq_eq_false_iff_ne.mpr hsimple]
          rfl

/-- If nothing was known before, a declared name or the last part of one is found: the declaration
of that very name, or else the first one that ends with it. -/
theorem exists_of_lookup_foldl_declare {r : Resolver} {names : List String} {x : String}
    (hdeclared : r.declared = []) (hx : x ∈ names.map simpleName) :
    ∃ name ∈ names,
      (if x ∈ names then name = x else names.find? (simpleName · == x) = some name) ∧
        (names.foldl Resolver.declare r).declared.lookup x = some (r.qualify name) := by
  rw [lookup_foldl_declare, hdeclared, List.lookup_nil, Option.none_or]
  split
  · next hmem => exact ⟨x, hmem, rfl, rfl⟩
  · obtain ⟨full, hfull, hsimple⟩ := List.mem_map.mp hx
    have hsome : (names.find? (simpleName · == x)).isSome :=
      List.find?_isSome.mpr ⟨full, hfull, beq_iff_eq.mpr hsimple⟩
    obtain ⟨name, hname⟩ := Option.isSome_iff_exists.mp hsome
    exact ⟨name, List.mem_of_find?_eq_some hname, hname, by rw [hname]; rfl⟩

end Declaring

/-! ## Resolving what is declared -/

section Resolving

variable {r : Resolver}

/-- A dotted name is its first part, or that and a rest behind its first dot. -/
theorem splitFirst_dotted {path top : String} {names : List (List Char)}
    (hpath : path.toList = dotted (top.toList :: names)) (htop : isIdentifier top.toList) :
    (path = top ∧ splitFirst '.' path = none) ∨
      ∃ rest, path = top ++ "." ++ rest ∧ splitFirst '.' path = some (top, rest) := by
  have hdot : '.' ∉ top.toList := fun hmem => (plain_of_isIdentifier htop '.' hmem).2 (by decide)
  cases names with
  | nil =>
    obtain rfl : path = top := String.toList_inj.mp (by rw [hpath, dotted]; simp)
    refine .inl ⟨rfl, ?_⟩
    unfold splitFirst
    cases hcut : cutFirst '.' path.toList with
    | none => rfl
    | some parts => exact absurd (by simp [cutFirst_eq hcut]) hdot
  | cons n rest =>
    have hdots : path.toList = top.toList ++ '.' :: dotted (n :: rest) := hpath
    refine .inr ⟨String.ofList (dotted (n :: rest)), ?_, ?_⟩
    · rw [← String.toList_inj, hdots]
      simp
    · rw [splitFirst, hdots, cutFirst_append hdot, Option.map_some, String.ofList_toList]

/-- An identifier that may name a class has the type that it stands for. -/
theorem resolve_identifier {x : String} (hx : isIdentifier x.toList)
    (hreserved : x ∉ "var" :: primitives) : r.resolve x = (r.resolveSimple x).map .ofClass := by
  have hword : x.toList = dotted [x.toList] := by simp [dotted]
  have hbare : IsBareName x.toList :=
    hword ▸ isBareName_dotted (List.cons_ne_nil _ []) (List.forall_mem_singleton.mpr hx)
  have hsimple : splitFirst '.' x = none := by
    obtain ⟨-, hnone⟩ | ⟨rest, hrest, -⟩ := splitFirst_dotted hword hx
    · exact hnone
    · have hlength := congrArg String.length hrest
      rw [String.length_append, String.length_append, show ".".length = 1 from rfl] at hlength
      omega
  have hempty : x.isEmpty = false := Bool.eq_false_iff.mpr fun h =>
    hbare.ne_nil (by rw [String.isEmpty_iff.mp h]; rfl)
  have hresolve := hbare.resolve_eq r
  rw [String.ofList_toList, resolveName_simple r hsimple] at hresolve
  rw [List.mem_cons, not_or] at hreserved
  rw [hresolve, hempty, beq_eq_false_iff_ne.mpr hreserved.1, if_neg (by decide),
    if_neg (by simpa using hreserved.2)]

/-- A dotted name whose first part stands for the declared type of that name has the qualified name
as its type. -/
theorem resolve_dotted {path top : String} {names : List (List Char)}
    (hpath : path.toList = dotted (top.toList :: names)) (htop : isIdentifier top.toList)
    (hnames : ∀ n ∈ names, isIdentifier n) (hsimple : r.resolveSimple top = some (r.qualify top))
    (hreserved : path ∉ "var" :: primitives) :
    r.resolve path = some (.ofClass (r.qualify path)) := by
  obtain ⟨rfl, -⟩ | ⟨rest, hwhole, hsplit⟩ := splitFirst_dotted hpath htop
  · rw [resolve_identifier htop hreserved, hsimple]
    rfl
  · have hbare : IsBareName path.toList :=
      hpath ▸ isBareName_dotted (List.cons_ne_nil _ _) (List.forall_mem_cons.mpr ⟨htop, hnames⟩)
    have hresolve := hbare.resolve_eq r
    rw [String.ofList_toList] at hresolve
    rw [hresolve, resolveName_dotted r hsplit, hsimple, Option.elim_some, hwhole, qualify_append,
      qualify_append]

theorem firstName_dotted {path top : String} {names : List (List Char)}
    (hpath : path.toList = dotted (top.toList :: names)) (htop : isIdentifier top.toList) :
    firstName path = top := by
  unfold firstName
  obtain ⟨rfl, hnone⟩ | ⟨rest, -, hsplit⟩ := splitFirst_dotted hpath htop
  · rw [hnone]
    rfl
  · rw [hsplit]
    rfl

end Resolving

/-! ## Declarations of a source -/

/-- The names of the package declarations, in source order. -/
def packageNames (items : List Syntax) : List String :=
  items.filterMap fun
    | .node .packageDecl parts => some (packageNameOf parts)
    | _ => none

/-- The name with which a type is declared. -/
def Syntax.typeName? : Syntax → Option String
  | .node .typeDecl [_, _, .leaf name, _, _] => some name.text
  | _ => none

theorem package_resolverOf (items : List Syntax) (classpath : Classpath) :
    (resolverOf items classpath).package = (packageNames items).head?.getD "" := by
  have himports : ∀ (targets : List String) (r : Resolver),
      (targets.foldl Resolver.addImport r).package = r.package := by
    intro targets
    induction targets with
    | nil => exact fun _ => rfl
    | cons target rest ih =>
      intro r
      rw [List.foldl_cons, ih]
      unfold Resolver.addImport
      split
      · rfl
      · split <;> rfl
  unfold resolverOf
  extract_lets package targets resolver
  obtain ⟨declared, hdeclared⟩ :=
    foldl_declare (declaredNames "" items) (targets.foldl Resolver.addImport resolver)
  rw [hdeclared, packageNames, List.head?_filterMap]
  exact himports targets resolver

theorem name_packageOfItems (items : List Syntax) :
    (packageOfItems items).map (·.name) = (packageNames items).getLast? := by
  unfold packageOfItems packageNames
  rw [← List.getLast?_map, List.map_filterMap]
  congr 1
  refine List.filterMap_congr fun s _ => ?_
  cases s with
  | leaf l => rfl
  | node p cs => cases p <;> rfl

theorem lookup_declared_resolverOf {items : List Syntax} {x : String}
    (h : x ∈ declaredNames "" items) (classpath : Classpath) :
    (resolverOf items classpath).declared.lookup x =
      some ((resolverOf items classpath).qualify x) := by
  unfold resolverOf
  rw [lookup_foldl_declare, if_pos h, qualify_foldl_declare]

theorem mem_declaredNames_of_typeName? {items : List Syntax} {s : Syntax} {name : String}
    (hs : s ∈ items) (h : s.typeName? = some name) : name ∈ declaredNames "" items := by
  induction items with
  | nil => cases hs
  | cons t rest ih =>
    rw [declaredNames]
    rcases List.mem_cons.mp hs with rfl | hs
    · refine List.mem_append_left _ ?_
      unfold Syntax.typeName? at h
      split at h
      · cases h
        exact List.mem_cons_self
      · cases h
    · exact List.mem_append_right _ (ih hs)

theorem kind_typeName {m key header body : Syntax} {name : Lexeme}
    (h : Conforms (Phrase.rule .typeDecl) [m, key, .leaf name, header, body]) :
    name.kind = .word := by
  rw [show Phrase.rule .typeDecl = .seq [Phrase.modifiers, .choice [
    .seq ["class", .name, Phrase.classHeader, Phrase.classBody],
    .seq ["interface", .name, Phrase.interfaceHeader, Phrase.interfaceBody],
    .seq ["enum", .name, Phrase.enumHeader, Phrase.enumBody]]] from rfl] at h
  simp only [Conforms.seq_phrase_iff, Conforms.seq_singleton_iff, Conforms.choice_cons_iff,
    Conforms.choice_nil_iff, Conforms.seq_token_iff, Conforms.seq_name_iff, or_false] at h
  obtain ⟨_, -, _, hrest, heq⟩ := h
  rcases hrest with ⟨_, -, _, ⟨n, hn, _, -, rfl⟩, rfl⟩ | ⟨_, -, _, ⟨n, hn, _, -, rfl⟩, rfl⟩ |
    ⟨_, -, _, ⟨n, hn, _, -, rfl⟩, rfl⟩
  all_goals
    cases heq
    exact hn

variable {ls : List Lexeme}

/-- The name of a type in a source is an identifier. -/
theorem isIdentifier_typeName (hls : Separated ls) {m key header body : Syntax} {name : Lexeme}
    (h : (Syntax.node .typeDecl [m, key, .leaf name, header, body]).In ls) :
    isIdentifier name.text.toList := by
  have hname := (h.child (s := .leaf name) (by simp)).2
  exact (hls.bounded name (hname.subset (List.mem_singleton_self name))).word (kind_typeName h.1)

/-! ## The walk over a source -/

/-- A type of a source: it stands in `owner` at the end of a chain of nested types which begins with
the one called `first`, and its type is the one of its source name. -/
structure StandsAt (r : Resolver) (owner : String) (first : Option String) (p : String × TypeDecl) :
    Prop where
  path : ∃ name names, first = some name ∧ (∀ n ∈ name :: names, isIdentifier n.toList) ∧
    p.1 = (name :: names).foldl nestedName owner
  type : p.2.type = some (.ofClass (r.qualify p.1))
  name_type : p.2.name.type = p.2.type

theorem StandsAt.nested {r : Resolver} {owner name : String} {first : Option String}
    {p : String × TypeDecl} (h : StandsAt r (nestedName owner name) first p)
    (hname : isIdentifier name.toList) : StandsAt r owner (some name) p := by
  obtain ⟨⟨inner, names, -, hnames, hpath⟩, htype, hname_type⟩ := h
  exact ⟨⟨name, inner :: names, rfl, List.forall_mem_cons.mpr ⟨hname, hnames⟩, hpath⟩, htype,
    hname_type⟩

/-- What is built from a list of declarations stands in the type around them. -/
theorem standsAt_statementsOf (env : Environment) {id : StatementId} {items : List Syntax}
    (h : ∀ s ∈ items, ∀ env id, ∀ p ∈ (statementOf env id s).memberTypes env.owner,
      StandsAt env.resolver env.owner s.typeName? p) :
    ∀ t ∈ statementsOf env id items, ∀ p ∈ t.memberTypes env.owner,
      ∃ first, StandsAt env.resolver env.owner first p := by
  intro t ht p hp
  obtain ⟨s, hs, vars, id', rfl⟩ := exists_bind_of_mem_statementsOf ht
  have hstands := h s hs (env.bind vars) id' p
  rw [Environment.owner_bind, Environment.resolver_bind] at hstands
  exact ⟨_, hstands hp⟩

theorem standsAt_enumMembersOf (env : Environment) {id : StatementId} {before : Option String}
    {items : List Syntax}
    (h : ∀ s ∈ items, ∀ env id, ∀ p ∈ (statementOf env id s).memberTypes env.owner,
      StandsAt env.resolver env.owner s.typeName? p) :
    ∀ t ∈ enumMembersOf env id before items, ∀ p ∈ t.memberTypes env.owner,
      ∃ first, StandsAt env.resolver env.owner first p := by
  intro t ht p hp
  obtain ⟨s, hs, vars, id', lead, rfl⟩ := exists_bind_of_mem_enumMembersOf ht
  obtain ⟨d, hd, hname, htype⟩ := exists_of_mem_memberTypes_withLead hp
  have hstands := h s hs (env.bind vars) id' (p.1, d)
  rw [Environment.owner_bind, Environment.resolver_bind] at hstands
  have hbuilt := hstands hd
  exact ⟨_, hbuilt.path, htype.trans hbuilt.type, by rw [hname, htype, hbuilt.name_type]⟩

/-- A type stands where its declaration does, and so do the types in its body. -/
theorem standsAt_type {env : Environment} {name : String} {d : TypeDecl}
    (hname : isIdentifier name.toList) (hdecl : d.name.name = name)
    (htype : d.type = some (.ofClass (env.resolver.qualify (nestedName env.owner name))))
    (hname_type : d.name.type = d.type)
    (hbody : ∀ t ∈ d.body.statements, ∀ p ∈ t.memberTypes (nestedName env.owner name),
      ∃ first, StandsAt env.resolver (nestedName env.owner name) first p) :
    ∀ p ∈ (Statement.type d).memberTypes env.owner,
      StandsAt env.resolver env.owner (some name) p := by
  intro p hp
  rw [Statement.memberTypes_type, hdecl] at hp
  rcases List.mem_cons.mp hp with rfl | hp
  · exact ⟨⟨name, [], rfl, List.forall_mem_singleton.mpr hname, rfl⟩, htype, hname_type⟩
  · obtain ⟨t, ht, hp⟩ := mem_memberTypesOf_iff.mp hp
    obtain ⟨first, hstands⟩ := hbody t ht p hp
    exact hstands.nested hname

theorem Shaped.standsAt (hls : Separated ls) {s : Syntax} (h : Shaped s) (hin : s.In ls) :
    ∀ env id, ∀ p ∈ (statementOf env id s).memberTypes env.owner,
      StandsAt env.resolver env.owner s.typeName? p := by
  induction h with
  | @type m b i modifiers items key name first last header _ _ _ _ _ ih =>
    intro env id
    let head : List Syntax := [.node m modifiers, .leaf key, .leaf name, header]
    have hitems : ∀ s ∈ items, s.In ls := Syntax.In.items head (i := i) hin (by simp)
    refine standsAt_type (isIdentifier_typeName hls hin) rfl rfl rfl ?_
    exact standsAt_statementsOf ({ env with owner := nestedName env.owner name.text }.enter _)
      fun s hs => ih s hs (hitems s hs)
  | @enum m b c i modifiers constants items key name first last header _ _ _ _ _ _ ih =>
    intro env id
    let head : List Syntax := [.node m modifiers, .leaf key, .leaf name, header]
    have hitems : ∀ s ∈ items, s.In ls := Syntax.In.items head (i := i) hin (by simp)
    refine standsAt_type (isIdentifier_typeName hls hin) rfl rfl rfl fun t ht p hp => ?_
    rcases List.mem_append.mp ht with ht | ht
    · split at ht
      · cases ht
      · rw [List.mem_singleton.mp ht] at hp
        cases hp
    · exact standsAt_enumMembersOf ({ env with owner := nestedName env.owner name.text }.enter _)
        (fun s hs => ih s hs (hitems s hs)) t ht p hp
  | vars => exact fun _ _ => List.forall_mem_nil _
  | signature => exact fun _ _ => List.forall_mem_nil _
  | method => exact fun _ _ => List.forall_mem_nil _
  | expression =>
    intro env id
    rw [statementOf_expression]
    split <;> exact List.forall_mem_nil _
  | raw h =>
    intro env id
    rw [h]
    exact List.forall_mem_nil _

/-! ## Units -/

theorem toList_foldl_nestedName {outer : String} (h : outer ≠ "") (names : List String) :
    (names.foldl nestedName outer).toList = dotted (outer.toList :: names.map String.toList) := by
  induction names generalizing outer with
  | nil => simp [dotted]
  | cons n rest ih =>
    have hnested : nestedName outer n = outer ++ "." ++ n :=
      if_neg fun hempty => h (String.isEmpty_iff.mp hempty)
    have hne : nestedName outer n ≠ "" := by
      rw [hnested]
      simp
    rw [List.foldl_cons, ih hne, hnested]
    simp [dotted]

/-- The types of a unit that was read, each of which begins with a name that is declared at top
level. -/
theorem standsAt_topLevelOf {source : String} {items : List Syntax} {close : Space}
    (hread : readUnit source = some (items, close)) (r : Resolver) :
    ∀ p ∈ memberTypesOf "" (topLevelOf { resolver := r } items),
      ∃ top ∈ declaredNames "" items, StandsAt r "" (some top) p := by
  intro p hp
  obtain ⟨ls, hlex, hitems⟩ := exists_lexemes hread
  obtain ⟨t, ht, hp⟩ := mem_memberTypesOf_iff.mp hp
  rcases mem_topLevelOf ht with ⟨cs, id, hcs, rfl⟩ | ⟨id, cs, rfl⟩
  · have hin := hitems _ hcs
    have hstands := hin.1.shaped.standsAt (separated_of_lex hlex) hin { resolver := r } id p hp
    obtain ⟨top, -, htop, -⟩ := hstands.path
    exact ⟨top, mem_declaredNames_of_typeName? hcs htop, htop ▸ hstands⟩
  · cases hp

/-- The source name of a type resolves to the type, unless an import binds its first part or it is
reserved. -/
theorem StandsAt.resolve_eq {items : List Syntax} {classpath : Classpath} {top : String}
    {p : String × TypeDecl} (h : StandsAt (resolverOf items classpath) "" (some top) p)
    (htop : top ∈ declaredNames "" items)
    (himported : importedAs (firstName p.1) (importsOf items) = none)
    (hreserved : p.1 ∉ "var" :: primitives) :
    (resolverOf items classpath).resolve p.1 = p.2.type := by
  obtain ⟨_, names, heq, hnames, hpath⟩ := h.path
  cases heq
  obtain ⟨hidentifier, hnames⟩ := List.forall_mem_cons.mp hnames
  have hne : top ≠ "" := by
    rintro rfl
    cases hidentifier
  have hdots : p.1.toList = dotted (top.toList :: names.map String.toList) := by
    rw [hpath, ← toList_foldl_nestedName hne]
    rfl
  -- the first part is declared at top level, and only imports come before that
  have hsimple : (resolverOf items classpath).resolveSimple top =
      some ((resolverOf items classpath).qualify top) := by
    rw [firstName_dotted hdots hidentifier] at himported
    have hlookup : (resolverOf items classpath).imports.lookup top = none := by
      rw [(resolverOf_eq items classpath).1]
      exact himported
    rw [Resolver.resolveSimple, hlookup, lookup_declared_resolverOf htop]
    rfl
  rw [h.type]
  exact resolve_dotted hdots hidentifier (List.forall_mem_map.mpr hnames) hsimple hreserved

/-- In a unit that was read, methods apart, the type of every class, interface and enum is its
source name in the package of the source, and the source name resolves to that type if no import
binds its first part and it is not reserved. Of declarations in any order, an identifier that is not
reserved finds the type declared under that very name, wherever it stands, and otherwise the first
type whose name ends with it. -/
theorem declared_types_resolve :
    (∀ {classpath : Classpath} {path source : String} {u : CompilationUnit},
      parse? classpath path source = some u →
        ∃ items close, readUnit source = some (items, close) ∧
          u.package.map (·.name) = (packageNames items).getLast? ∧
          (resolverOf items classpath).package = (packageNames items).head?.getD "" ∧
          ∀ p ∈ memberTypesOf "" u.types,
            p.2.type = some (.ofClass ((resolverOf items classpath).qualify p.1)) ∧
              p.2.name.type = p.2.type ∧
              (importedAs (firstName p.1) u.imports = none → p.1 ∉ "var" :: primitives →
                (resolverOf items classpath).resolve p.1 = p.2.type)) ∧
      ∀ (r : Resolver) (names : List String) (x : String), r.declared = [] →
        r.imports.lookup x = none → isIdentifier x.toList → x ∉ "var" :: primitives →
        x ∈ names.map simpleName →
          ∃ name ∈ names,
            (if x ∈ names then name = x else names.find? (simpleName · == x) = some name) ∧
              (names.foldl Resolver.declare r).resolve x = some (.ofClass (r.qualify name)) := by
  constructor
  · intro classpath path source u h
    unfold parse? at h
    obtain ⟨⟨items, close⟩, hread, rfl⟩ := Option.map_eq_some_iff.mp h
    refine ⟨items, close, hread, name_packageOfItems items, package_resolverOf items classpath,
      fun p hp => ?_⟩
    obtain ⟨top, htop, hstands⟩ := standsAt_topLevelOf hread _ p hp
    exact ⟨hstands.type, hstands.name_type, hstands.resolve_eq htop⟩
  · intro r names x hdeclared himports hx hreserved hmem
    obtain ⟨name, hname, hfound, hlookup⟩ := exists_of_lookup_foldl_declare hdeclared hmem
    obtain ⟨declared, heq⟩ := foldl_declare names r
    have himported : (names.foldl Resolver.declare r).imports.lookup x = none := by
      rw [heq]
      exact himports
    refine ⟨name, hname, hfound, ?_⟩
    rw [resolve_identifier hx hreserved, Resolver.resolveSimple, himported, hlookup]
    rfl

/-- A type in another has the name of a top-level type that comes later. -/
def repeatedNameSource : String :=
  "package p; class A \x7b class B \x7b enum C \x7b X; class D \x7b \x7d \x7d \x7d \x7d " ++
    "interface B \x7b \x7d"

set_option maxRecDepth 100000 in
theorem declared_types_repeatedNameSource :
    (∃ u, parse? {} "A.java" repeatedNameSource = some u ∧
      (memberTypesOf "" u.types).map (fun p => (p.1, p.2.type)) =
        [("A", some (.ofClass "p.A")), ("A.B", some (.ofClass "p.A.B")),
          ("A.B.C", some (.ofClass "p.A.B.C")), ("A.B.C.D", some (.ofClass "p.A.B.C.D")),
          ("B", some (.ofClass "p.B"))] ∧
      ∃ items close, readUnit repeatedNameSource = some (items, close) ∧
        ∀ p ∈ memberTypesOf "" u.types, (resolverOf items {}).resolve p.1 = p.2.type) ∧
      let r : Resolver := { package := "p", classpath := {} }
      (["A", "A.B", "C", "C.B", "B"].foldl Resolver.declare r).resolve "B" =
          some (.ofClass "p.B") ∧
        (["A", "A.B", "C", "C.B"].foldl Resolver.declare r).resolve "B" =
          some (.ofClass "p.A.B") := by
  refine ⟨?_, ?_, ?_⟩
  · have hchecked : (parse? {} "A.java" repeatedNameSource).any fun u =>
        (memberTypesOf "" u.types).map (fun p => (p.1, p.2.type)) ==
          [("A", some (.ofClass "p.A")), ("A.B", some (.ofClass "p.A.B")),
            ("A.B.C", some (.ofClass "p.A.B.C")), ("A.B.C.D", some (.ofClass "p.A.B.C.D")),
            ("B", some (.ofClass "p.B"))] &&
          (memberTypesOf "" u.types).all fun p =>
            importedAs (firstName p.1) u.imports == none && decide (p.1 ∉ "var" :: primitives) := by
      decide +kernel
    obtain ⟨u, hparse, hchecked⟩ := (Option.any_eq_true _ _).mp hchecked
    obtain ⟨htypes, hnames⟩ := Bool.and_eq_true_iff.mp hchecked
    obtain ⟨items, close, hread, -, -, hresolve⟩ := declared_types_resolve.1 hparse
    refine ⟨u, hparse, beq_iff_eq.mp htypes, items, close, hread, fun p hp => ?_⟩
    obtain ⟨himported, hreserved⟩ := Bool.and_eq_true_iff.mp (List.all_eq_true.mp hnames p hp)
    exact (hresolve p hp).2.2 (beq_iff_eq.mp himported) (of_decide_eq_true hreserved)
  · obtain ⟨name, -, hname, hresolve⟩ := declared_types_resolve.2
      { package := "p", classpath := {} } ["A", "A.B", "C", "C.B", "B"] "B"
      rfl rfl (by decide) (by decide) (by decide)
    rw [if_pos (by decide)] at hname
    rw [hresolve, hname]
    decide
  · obtain ⟨name, -, hname, hresolve⟩ := declared_types_resolve.2
      { package := "p", classpath := {} } ["A", "A.B", "C", "C.B"] "B"
      rfl rfl (by decide) (by decide) (by decide)
    rw [if_neg (by decide)] at hname
    obtain rfl : name = "A.B" := by
      have hfound : ["A", "A.B", "C", "C.B"].find? (simpleName · == "B") = some "A.B" := by decide
      exact Option.some.inj (hname.symm.trans hfound)
    rw [hresolve]
    decide

set_option maxRecDepth 100000 in
/-- A class may be called `var`, but nothing of that name is resolved. -/
theorem class_named_var_does_not_resolve :
    ∃ u items close, parse? {} "A.java" "class var \x7b var x; \x7d" = some u ∧
      readUnit "class var \x7b var x; \x7d" = some (items, close) ∧
      importedAs (firstName "var") u.imports = none ∧
      (memberTypesOf "" u.types).map (fun p => (p.1, p.2.type)) =
        [("var", some (.ofClass "var"))] ∧
      (resolverOf items {}).resolve "var" = none := by
  have hboth : ((parse? {} "A.java" "class var \x7b var x; \x7d").any fun u =>
        importedAs (firstName "var") u.imports == none &&
          (memberTypesOf "" u.types).map (fun p => (p.1, p.2.type)) ==
            [("var", some (.ofClass "var"))]) ∧
      (readUnit "class var \x7b var x; \x7d").any fun read =>
        (resolverOf read.1 {}).resolve "var" == none := by
    decide +kernel
  obtain ⟨u, hparse, hboth'⟩ := (Option.any_eq_true _ _).mp hboth.1
  obtain ⟨himported, htypes⟩ := Bool.and_eq_true_iff.mp hboth'
  obtain ⟨⟨items, close⟩, hread, hnone⟩ := (Option.any_eq_true _ _).mp hboth.2
  exact ⟨u, items, close, hparse, hread, beq_iff_eq.mp himported, beq_iff_eq.mp htypes,
    beq_iff_eq.mp hnone⟩

end JavaMigration.Java
