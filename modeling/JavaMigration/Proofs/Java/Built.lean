import Mathlib.Data.List.Nodup
import JavaMigration.Proofs.Java.Shape
import JavaMigration.Proofs.Source.Bare
import JavaMigration.Proofs.Source.Regular

/-!
# Trees built from source

A unit that was read from source is regular (`regular_of_parse?`), by induction over the forms of
its syntax trees.
-/

namespace JavaMigration.Java

open Source

theorem statementOf_expression (env : Environment) (id : StatementId) (e o : Phrase)
    (operand : List Syntax) (close : Lexeme) :
    statementOf env id (.node .expressionStatement [.node e [.node o operand], .leaf close]) =
      match callOf env id operand close with
      | some call => .call call
      | none => rawOf id [.node e [.node o operand], .leaf close] := rfl

/-! ## Identities -/

theorem id_of_callOf {env : Environment} {id : StatementId} {operand : List Syntax}
    {close : Lexeme} {call : Call} (h : callOf env id operand close = some call) :
    call.id = id := by
  unfold callOf at h
  split at h
  · cases h; rfl
  · split at h
    · cases h
    · cases h; rfl
  · cases h

theorem Shaped.id_statementOf {s : Syntax} (h : Shaped s) (env : Environment) (id : StatementId) :
    (statementOf env id s).id = id := by
  cases h with
  | type => rfl
  | enum => rfl
  | vars => rfl
  | signature => rfl
  | method => rfl
  | expression =>
    rw [statementOf_expression]
    split
    · next hcall => exact id_of_callOf hcall
    · rfl
  | raw h => rw [h]; rfl

theorem map_id_statementsOf {items : List Syntax} (h : ∀ s ∈ items, Shaped s) (env : Environment)
    (id : StatementId) :
    (statementsOf env id items).map Statement.id = List.range' id items.length := by
  induction items generalizing env id with
  | nil => rfl
  | cons s items ih =>
    obtain ⟨hs, hitems⟩ := List.forall_mem_cons.mp h
    rw [statementsOf, List.map_cons, hs.id_statementOf, ih hitems, List.length_cons,
      List.range'_succ]

/-- The space of a member of an enum, where `before` are the semicolons in front of it. -/
def memberLead (before : Option String) (own : Space) (rest : List Syntax) : Space :=
  match before with
  | some text => ⟨text ++ own.text⟩
  | none => if rest.any isSemicolon then .empty else own

theorem enumMembersOf_node (env : Environment) (id : StatementId) (before : Option String)
    (p : Phrase) (cs rest : List Syntax) :
    enumMembersOf env id before (.node p cs :: rest) =
      (statementOf env id (.node p cs)).withLead
          (memberLead before (statementOf env id (.node p cs)).lead rest) ::
        enumMembersOf (env.bind (bindingsOf (statementOf env id (.node p cs)))) (id + 1) (some "")
          rest := rfl

/-- The members of an enum are numbered one after another, whatever semicolons stand between. -/
theorem map_id_enumMembersOf {items : List Syntax} (h : ∀ s ∈ items, Shaped s) (env : Environment)
    (id : StatementId) (before : Option String) :
    ∃ n, (enumMembersOf env id before items).map Statement.id = List.range' id n := by
  induction items generalizing env id before with
  | nil => exact ⟨0, rfl⟩
  | cons s items ih =>
    obtain ⟨hs, hitems⟩ := List.forall_mem_cons.mp h
    cases s with
    | leaf l => exact ih hitems _ _ _
    | node p cs =>
      obtain ⟨n, hn⟩ := ih hitems (env.bind (bindingsOf (statementOf env id (.node p cs))))
        (id + 1) (some "")
      refine ⟨n + 1, ?_⟩
      rw [enumMembersOf_node, List.map_cons, Statement.id_withLead, hs.id_statementOf, hn,
        List.range'_succ]

/-! ## Regularity -/

theorem regular_rawOf (id : StatementId) (cs : List Syntax) : (rawOf id cs).Regular := trivial

/-- Binding variables leaves the resolver as it is. -/
theorem Environment.resolver_bind (env : Environment) (vars : Scope) :
    (env.bind vars).resolver = env.resolver := by
  unfold Environment.bind
  split <;> rfl

theorem Environment.owner_bind (env : Environment) (vars : Scope) :
    (env.bind vars).owner = env.owner := by
  unfold Environment.bind
  split <;> rfl

theorem Environment.bind_nil (env : Environment) : env.bind [] = env := by
  obtain ⟨resolver, scopes, owner⟩ := env
  cases scopes <;> rfl

theorem Environment.bind_bind (env : Environment) (vars more : Scope) :
    (env.bind vars).bind more = env.bind (vars ++ more) := by
  obtain ⟨resolver, scopes, owner⟩ := env
  cases scopes with
  | nil => rfl
  | cons s outer => simp [bind]

/-- A statement of a list is built from one of the syntax trees, under variables that those before
it declare. -/
theorem exists_bind_of_mem_statementsOf {env : Environment} {id : StatementId} {items : List Syntax}
    {t : Statement} (h : t ∈ statementsOf env id items) :
    ∃ s ∈ items, ∃ vars id', t = statementOf (env.bind vars) id' s := by
  induction items generalizing env id with
  | nil => cases h
  | cons s items ih =>
    rw [statementsOf] at h
    rcases List.mem_cons.mp h with rfl | h
    · exact ⟨s, List.mem_cons_self, [], id, by rw [env.bind_nil]⟩
    · obtain ⟨s', hs', vars, id', ht⟩ := ih h
      exact ⟨s', List.mem_cons_of_mem _ hs', _, id', by rw [ht, env.bind_bind]⟩

theorem exists_bind_of_mem_enumMembersOf {env : Environment} {id : StatementId}
    {before : Option String} {items : List Syntax} {t : Statement}
    (h : t ∈ enumMembersOf env id before items) :
    ∃ s ∈ items, ∃ vars id' lead, t = (statementOf (env.bind vars) id' s).withLead lead := by
  induction items generalizing env id before with
  | nil => cases h
  | cons s items ih =>
    cases s with
    | leaf l =>
      obtain ⟨s', hs', hbuilt⟩ := ih h
      exact ⟨s', List.mem_cons_of_mem _ hs', hbuilt⟩
    | node p cs =>
      rw [enumMembersOf_node] at h
      rcases List.mem_cons.mp h with rfl | h
      · exact ⟨_, List.mem_cons_self, [], id, _, by rw [env.bind_nil]⟩
      · obtain ⟨s', hs', vars, id', lead, ht⟩ := ih h
        exact ⟨s', List.mem_cons_of_mem _ hs', _, id', lead, by rw [ht, env.bind_bind]⟩

theorem mem_statementsOf {env : Environment} {id : StatementId} {items : List Syntax}
    {t : Statement} (h : t ∈ statementsOf env id items) :
    ∃ s ∈ items, ∃ env' id', env'.resolver = env.resolver ∧ t = statementOf env' id' s := by
  obtain ⟨s, hs, vars, id', ht⟩ := exists_bind_of_mem_statementsOf h
  exact ⟨s, hs, env.bind vars, id', env.resolver_bind vars, ht⟩

theorem mem_enumMembersOf {env : Environment} {id : StatementId} {before : Option String}
    {items : List Syntax} {t : Statement} (h : t ∈ enumMembersOf env id before items) :
    ∃ s ∈ items, ∃ env' id' lead, env'.resolver = env.resolver ∧
      t = (statementOf env' id' s).withLead lead := by
  obtain ⟨s, hs, vars, id', lead, ht⟩ := exists_bind_of_mem_enumMembersOf h
  exact ⟨s, hs, env.bind vars, id', lead, env.resolver_bind vars, ht⟩

theorem throughLastSemicolon_isPrefix (members : List Syntax) :
    throughLastSemicolon members <+: members :=
  List.reverse_suffix.mp (List.reverse_reverse _ ▸ List.dropWhile_suffix _)

theorem regular_braced (env : Environment) (b i : Phrase) (first last : Lexeme)
    {items : List Syntax} (hitems : ∀ s ∈ items, Shaped s)
    (ih : ∀ s ∈ items, ∀ env id, (statementOf env id s).Regular) :
    (blockOf env (.node b [.leaf first, .node i items, .leaf last])).Regular := by
  have heq : blockOf env (.node b [.leaf first, .node i items, .leaf last]) =
      ⟨first.lead, statementsOf env 0 items, last.lead⟩ := rfl
  rw [heq, Block.regular_iff]
  constructor
  · unfold Block.ids
    rw [map_id_statementsOf hitems]
    exact List.nodup_range'
  · intro t ht
    obtain ⟨s, hs, env, id, -, rfl⟩ := mem_statementsOf ht
    exact ih s hs env id

theorem regular_enum (env : Environment) (b c i : Phrase) (first last : Lexeme)
    (constants : List Syntax) {items : List Syntax} (hitems : ∀ s ∈ items, Shaped s)
    (ih : ∀ s ∈ items, ∀ env id, (statementOf env id s).Regular) :
    (blockOf env (.node b [.leaf first, .node c constants, .node i items, .leaf last])).Regular := by
  unfold blockOf
  extract_lets head behind
  rw [Block.regular_iff]
  constructor
  · unfold Block.ids
    obtain ⟨n, hn⟩ := map_id_enumMembersOf hitems env 1 none
    rw [List.map_append, hn]
    split
    · exact List.nodup_range'
    · exact List.nodup_range' (s := 0) (n := n + 1)
  · intro t ht
    rcases List.mem_append.mp ht with ht | ht
    · split at ht
      · cases ht
      · rw [List.mem_singleton.mp ht]
        exact regular_rawOf _ _
    · obtain ⟨s, hs, env, id, lead, -, rfl⟩ := mem_enumMembersOf ht
      exact (ih s hs env id).withLead lead

theorem CommaList.filterMap_ne_nil {P : Syntax → Prop} {α : Type} {f : Syntax → Option α}
    {cs : List Syntax} (h : CommaList P cs) (hf : ∀ s, P s → (f s).isSome) :
    cs.filterMap f ≠ [] := by
  have hhead : ∀ s rest, P s → (s :: rest).filterMap f ≠ [] := by
    intro s rest hs
    obtain ⟨a, ha⟩ := Option.isSome_iff_exists.mp (hf s hs)
    rw [List.filterMap_cons_some ha]
    exact List.cons_ne_nil _ _
  cases h with
  | single h => exact hhead _ _ h
  | cons h => exact hhead _ _ h

theorem isSome_declaratorOf (resolver : Resolver) (type : Syntax) {s : Syntax}
    (h : s.IsDeclarator) : (declaratorOf resolver type s).isSome := by
  unfold Syntax.IsDeclarator at h
  split at h
  · rfl
  · cases h

theorem isMethod_statementOf {s : Syntax} (hs : Shaped s) (h : s.isMethod = false)
    (env : Environment) (id : StatementId) : (statementOf env id s).isMethod = false := by
  cases hs with
  | type => rfl
  | enum => rfl
  | vars => rfl
  | signature => cases h
  | method => cases h
  | expression =>
    rw [statementOf_expression]
    split <;> rfl
  | raw h => rw [h]; rfl

/-- What is built from a well-formed syntax tree is regular. -/
theorem Shaped.regular {s : Syntax} (h : Shaped s) :
    ∀ env id, (statementOf env id s).Regular := by
  induction h with
  | @type m b i _ _ _ _ first last _ _ _ _ _ hitems ih =>
    exact fun env id => TypeDecl.regular_iff.mpr (regular_braced _ b i first last hitems ih)
  | @enum m b c i _ constants _ _ _ first last _ _ _ _ _ _ hitems ih =>
    exact fun env id => TypeDecl.regular_iff.mpr (regular_enum _ b c i first last constants hitems ih)
  | vars _ _ hdeclarators =>
    exact fun env id => hdeclarators.filterMap_ne_nil fun s hs => isSome_declaratorOf _ _ hs
  | signature => exact fun env id => trivial
  | method _ _ _ _ _ _ hflat hitems ih =>
    intro env id
    refine (MethodDecl.regular_of_some rfl).mpr ⟨regular_braced _ _ _ _ _ hitems ih, ?_⟩
    intro t ht
    obtain ⟨s, hs, env, id, -, rfl⟩ := mem_statementsOf ht
    exact isMethod_statementOf (hitems s hs) (hflat s hs) env id
  | expression =>
    intro env id
    rw [statementOf_expression]
    split <;> trivial
  | raw h =>
    intro env id
    rw [h]
    trivial

/-! ## Units -/

/-- A unit is read from all the lexemes of its source. -/
theorem readPhrase_of_readUnit {source : String} {items : List Syntax} {close : Space}
    (h : readUnit source = some (items, close)) :
    ∃ ls depth, lex source = some (ls, close) ∧
      readPhrase Phrase.rule depth .unit ls = some ([.node .unit items], []) := by
  unfold readUnit at h
  split at h
  · cases h
  · next ls last hlex =>
    split at h
    · next hread =>
      cases h
      exact ⟨ls, _, hlex, hread⟩
    · cases h

theorem readUnit_valid {source : String} {items : List Syntax} {close : Space}
    (h : readUnit source = some (items, close)) : ∀ s ∈ items, s.Valid := by
  obtain ⟨ls, depth, -, hread⟩ := readPhrase_of_readUnit h
  obtain ⟨hconf, -⟩ := sound_readPhrase _ _ hread
  have hrule := hconf.valid _ List.mem_cons_self
  exact Conforms.valid hrule

theorem mem_topLevelOf {env : Environment} {items : List Syntax} {t : Statement}
    (h : t ∈ topLevelOf env items) :
    (∃ cs id, .node .typeDecl cs ∈ items ∧ t = statementOf env id (.node .typeDecl cs)) ∨
      ∃ id cs, t = rawOf id cs := by
  unfold topLevelOf at h
  obtain ⟨id, hid, rfl⟩ := List.mem_mapIdx.mp h
  split
  · next cs heq =>
    refine .inl ⟨cs, id, ?_, by rw [heq]⟩
    rw [← heq]
    exact List.mem_of_mem_filter (List.getElem_mem hid)
  · exact .inr ⟨_, _, rfl⟩

theorem isTopLevel_typeDecl {cs : List Syntax} (h : Shaped (.node .typeDecl cs))
    (env : Environment) (id : StatementId) :
    (statementOf env id (.node .typeDecl cs)).IsTopLevel := by
  cases h with
  | type => trivial
  | enum => trivial
  | raw h => rw [h]; trivial

/-- A unit that was read from source is regular. -/
theorem regular_of_parse? {classpath : Classpath} {path source : String} {u : CompilationUnit}
    (h : parse? classpath path source = some u) : u.Regular := by
  unfold parse? at h
  obtain ⟨⟨items, close⟩, hread, rfl⟩ := Option.map_eq_some_iff.mp h
  have hvalid := readUnit_valid hread
  constructor
  · rw [allRegular_iff]
    intro t ht
    rcases mem_topLevelOf ht with ⟨cs, id, hcs, rfl⟩ | ⟨id, cs, rfl⟩
    · exact (hvalid _ hcs).shaped.regular _ id
    · exact regular_rawOf id cs
  · intro t ht
    rcases mem_topLevelOf ht with ⟨cs, id, hcs, rfl⟩ | ⟨id, cs, rfl⟩
    · exact isTopLevel_typeDecl (hvalid _ hcs).shaped _ id
    · trivial

end JavaMigration.Java
