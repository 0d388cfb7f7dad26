import Mathlib.Data.List.Infix
import JavaMigration.Proofs.Java.Built
import JavaMigration.Proofs.Java.Parts
import JavaMigration.Proofs.Source.Declared

/-!
# Where variables are read

Every variable of a unit, at whatever depth, was read from a declaration that stands in the lexemes
of the source (`readFrom_of_parse?`), and knows the types it was read with.
-/

namespace JavaMigration.Java

open Source

/-! ## Syntax trees in lexemes -/

/-- The syntax tree is valid and stands somewhere in the lexemes. -/
def Syntax.In (ls : List Lexeme) (s : Syntax) : Prop := s.Valid ∧ s.lexemes <:+: ls

theorem lexemesOf_isInfix {cs ds : List Syntax} (h : cs <:+: ds) : lexemesOf cs <:+: lexemesOf ds := by
  obtain ⟨front, back, rfl⟩ := h
  exact ⟨lexemesOf front, lexemesOf back, by rw [lexemesOf_append, lexemesOf_append]⟩

theorem lexemes_infix_of_mem {s : Syntax} {cs : List Syntax} (h : s ∈ cs) :
    s.lexemes <:+: lexemesOf cs := by
  rw [← lexemesOf_singleton]
  exact lexemesOf_isInfix ((List.singleton_infix_iff s cs).mpr h)

theorem Syntax.In.child {ls : List Lexeme} {p : Phrase} {cs : List Syntax}
    (h : (Syntax.node p cs).In ls) {s : Syntax} (hs : s ∈ cs) : s.In ls :=
  ⟨Conforms.valid h.1 s hs, (lexemes_infix_of_mem hs).trans h.2⟩

/-- A list in the body of a declaration stands where the declaration stands. -/
theorem Syntax.In.items {ls : List Lexeme} (head : List Syntax) {p b i : Phrase} {ds items : List Syntax}
    (h : (Syntax.node p (head ++ [.node b ds])).In ls) (hitems : .node i items ∈ ds) :
    ∀ s ∈ items, s.In ls := fun _ hs =>
  ((h.child (List.mem_append_right _ (List.mem_singleton_self _))).child hitems).child hs

/-- The lexemes of a source, in which all its syntax trees stand. -/
theorem exists_lexemes {source : String} {items : List Syntax} {close : Space}
    (h : readUnit source = some (items, close)) :
    ∃ ls, lex source = some (ls, close) ∧ ∀ s ∈ items, s.In ls := by
  obtain ⟨ls, depth, hlex, hread⟩ := readPhrase_of_readUnit h
  obtain ⟨-, hls⟩ := sound_readPhrase _ _ hread
  rw [List.append_nil, lexemesOf_node, lexemesOf_nil, List.append_nil] at hls
  exact ⟨ls, hlex, fun s hs => ⟨readUnit_valid h s hs, hls ▸ lexemes_infix_of_mem hs⟩⟩

/-! ## Variables and their declarations -/

/-- The variable was read from a declaration in the lexemes, the space in front of it apart. -/
inductive ReadFrom (ls : List Lexeme) : VariableDecl → Prop
  | vars {m : Phrase} {modifiers declarators : List Syntax} {type : Syntax} {close : Lexeme}
      (resolver : Resolver) (id : StatementId) (lead : Space)
      (hin : (Syntax.node .vars
        [.node m modifiers, type, .node .declarators declarators, .leaf close]).In ls)
      (hmodifiers : ∀ s ∈ modifiers, s.Leading)
      (hdeclarators : CommaList Syntax.IsDeclarator declarators) :
      ReadFrom ls { variablesOf resolver id modifiers type declarators close with lead }

variable {ls : List Lexeme}

theorem ReadFrom.withLead {d : VariableDecl} (h : ReadFrom ls d) (lead : Space) :
    ReadFrom ls { d with lead } := by
  cases h with
  | vars resolver id _ hin hmodifiers hdeclarators =>
    exact .vars resolver id lead hin hmodifiers hdeclarators

theorem readFrom_withLead {s : Statement} (h : ∀ d ∈ s.allVars, ReadFrom ls d) (lead : Space) :
    ∀ d ∈ (s.withLead lead).allVars, ReadFrom ls d := by
  cases s with
  | type e => cases e; exact h
  | method e => cases e; exact h
  | vars e =>
    intro d hd
    rw [List.mem_singleton.mp hd]
    exact (h e List.mem_cons_self).withLead lead
  | call c => exact h
  | raw r => exact h

/-- Every variable of a statement that was built from a syntax tree was read from a declaration in
it. -/
theorem Shaped.readFrom {s : Syntax} (h : Shaped s) (hs : s.In ls) (env : Environment)
    (id : StatementId) : ∀ d ∈ (statementOf env id s).allVars, ReadFrom ls d := by
  induction h generalizing env id with
  | @type m b i modifiers items key name first last header _ _ _ _ _ ih =>
    have hbody := (hs.child (s := .node b [.leaf first, .node i items, .leaf last]) (by simp)).child
      (s := .node i items) (by simp)
    intro d hd
    rw [statementOf, Statement.allVars_type] at hd
    obtain ⟨t, ht, hd⟩ := mem_allVarsOf_iff.mp hd
    obtain ⟨c, hc, env', id', -, rfl⟩ := mem_statementsOf ht
    exact ih c hc (hbody.child hc) env' id' d hd
  | @enum m b c i modifiers constants items key name first last header _ _ _ _ _ _ ih =>
    have hbody := (hs.child
      (s := .node b [.leaf first, .node c constants, .node i items, .leaf last]) (by simp)).child
      (s := .node i items) (by simp)
    intro d hd
    rw [statementOf, Statement.allVars_type] at hd
    obtain ⟨t, ht, hd⟩ := mem_allVarsOf_iff.mp hd
    rcases List.mem_append.mp ht with ht | ht
    · split at ht
      · cases ht
      · rw [List.mem_singleton.mp ht] at hd
        cases hd
    · obtain ⟨c, hc, env', id', lead, -, rfl⟩ := mem_enumMembersOf ht
      exact readFrom_withLead (ih c hc (hbody.child hc) env' id') lead d hd
  | @vars m modifiers declarators type close hmodifiers _ hdeclarators _ =>
    intro d hd
    rw [List.mem_singleton.mp hd]
    exact .vars env.resolver id _ hs hmodifiers hdeclarators
  | signature => exact fun d hd => nomatch hd
  | @method m g p b i _ _ _ _ items _ _ _ first last _ _ _ _ _ _ _ _ ih =>
    have hbody := (hs.child (s := .node b [.leaf first, .node i items, .leaf last]) (by simp)).child
      (s := .node i items) (by simp)
    intro d hd
    rw [statementOf, Statement.allVars_method rfl] at hd
    obtain ⟨t, ht, hd⟩ := mem_allVarsOf_iff.mp hd
    obtain ⟨c, hc, env', id', -, rfl⟩ := mem_statementsOf ht
    exact ih c hc (hbody.child hc) env' id' d hd
  | expression =>
    intro d hd
    rw [statementOf_expression] at hd
    split at hd <;> cases hd
  | raw h =>
    intro d hd
    rw [h] at hd
    cases hd

theorem readFrom_of_parse? {classpath : Classpath} {path source : String} {u : CompilationUnit}
    (h : parse? classpath path source = some u) :
    ∃ ls close, lex source = some (ls, close) ∧ ∀ d ∈ allVarsOf u.types, ReadFrom ls d := by
  unfold parse? at h
  obtain ⟨⟨items, close⟩, hread, rfl⟩ := Option.map_eq_some_iff.mp h
  obtain ⟨ls, hlex, hin⟩ := exists_lexemes hread
  refine ⟨ls, close, hlex, ?_⟩
  intro d hd
  obtain ⟨t, ht, hd⟩ := mem_allVarsOf_iff.mp hd
  rcases mem_topLevelOf ht with ⟨cs, id, hcs, rfl⟩ | ⟨id, cs, rfl⟩
  · exact (hin _ hcs).1.shaped.readFrom (hin _ hcs) _ id d hd
  · cases hd

/-! ## What is known of a variable that was read -/

/-- Every name has the written type, in as many more array levels as are written behind it. -/
def TypedAsWritten (d : VariableDecl) : Prop :=
  d.declarators ≠ [] ∧ ∀ v ∈ d.declarators, ∃ n, v.name.type = d.type.type.map (·.arrayOf n)

theorem exists_declaratorType (type : Option JavaType) (dims : List Syntax) :
    ∃ n, declaratorType type dims = type.map (·.arrayOf n) := by
  unfold declaratorType
  split
  · refine ⟨0, ?_⟩
    cases type <;> rfl
  · exact ⟨_, rfl⟩

theorem type_declaratorOf {resolver : Resolver} {type s : Syntax} {v : Declarator}
    (h : declaratorOf resolver type s = some v) :
    ∃ n, v.name.type = (resolver.resolve (textOf [type])).map (·.arrayOf n) := by
  unfold declaratorOf at h
  split at h
  · cases h
    exact exists_declaratorType _ _
  · cases h

theorem type_variablesOf (resolver : Resolver) (id : StatementId) (modifiers : List Syntax)
    (type : Syntax) (declarators : List Syntax) (close : Lexeme) :
    (variablesOf resolver id modifiers type declarators close).type.type =
      resolver.resolve (textOf [type]) := by
  unfold variablesOf identifierOf
  generalize resolver.resolve (textOf [type]) = written
  cases modifiers.isEmpty <;> rfl

theorem ReadFrom.typedAsWritten {d : VariableDecl} (h : ReadFrom ls d) : TypedAsWritten d := by
  cases h with
  | @vars _ modifiers declarators type close resolver id lead _ _ hdeclarators =>
    constructor
    · exact hdeclarators.filterMap_ne_nil fun s hs => isSome_declaratorOf resolver type hs
    · intro v hv
      obtain ⟨s, -, hs⟩ := List.mem_filterMap.mp hv
      have hn := type_declaratorOf hs
      rw [← type_variablesOf resolver id modifiers type declarators close] at hn
      exact hn

/-- If every name has a class type, that is the written type. -/
theorem TypedAsWritten.hasClassType {d : VariableDecl} (h : TypedAsWritten d) {name : String}
    (hnames : ∀ v ∈ d.declarators, hasClassType v.name.type name) :
    hasClassType d.type.type name := by
  obtain ⟨v, rest, hv⟩ := List.exists_cons_of_ne_nil h.1
  have hmem : v ∈ d.declarators := hv ▸ List.mem_cons_self
  obtain ⟨n, hn⟩ := h.2 v hmem
  have hclass := hnames v hmem
  rw [hn] at hclass
  cases htype : d.type.type with
  | none =>
    rw [htype] at hclass
    cases hclass
  | some t =>
    rw [htype] at hclass
    cases n with
    | zero => exact hclass
    | succ n => cases hclass

end JavaMigration.Java
