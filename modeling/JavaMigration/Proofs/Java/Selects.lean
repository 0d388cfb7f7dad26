import JavaMigration.Proofs.Java.Printed
import JavaMigration.Proofs.Java.Scopes

/-!
# The types of selects

A call on a plain name gets the type of the variable that the name stands for. The calls of a source
are read off its syntax trees, each with the bindings in scope (`callSitesIn`). In the same order
the unit that is read has its selects, each with the type of the nearest variable that the parser
enters (`select_types_of_parse?`).
-/

namespace JavaMigration.Source

def Receiver.ident? : Receiver → Option Identifier
  | .name ident => some ident
  | .raw _ _ => none

mutual

/-- The plain names on which methods are called in a statement, at any depth, in source order. -/
def Statement.selects : Statement → List Identifier
  | .type d => d.selects
  | .method d => d.selects
  | .vars _ => []
  | .call c => (c.receiver.bind Receiver.ident?).toList
  | .raw _ => []

def TypeDecl.selects : TypeDecl → List Identifier
  | ⟨_, _, _, _, _, _, _, _, body, _⟩ => body.selects

def MethodDecl.selects : MethodDecl → List Identifier
  | ⟨_, _, _, _, _, _, _, _, body, _⟩ =>
    match body with
    | some body => body.selects
    | none => []

def Block.selects : Block → List Identifier
  | ⟨_, statements, _⟩ => selectsOf statements

def selectsOf : List Statement → List Identifier
  | [] => []
  | s :: r => s.selects ++ selectsOf r

end

theorem selectsOf_append (ss ts : List Statement) :
    selectsOf (ss ++ ts) = selectsOf ss ++ selectsOf ts := by
  induction ss with
  | nil => rfl
  | cons s ss ih => rw [List.cons_append, selectsOf, selectsOf, ih, List.append_assoc]

@[simp] theorem Statement.selects_type (d : TypeDecl) :
    (Statement.type d).selects = selectsOf d.body.statements := by
  cases d with
  | mk _ _ _ _ _ _ _ _ body _ => cases body; rfl

theorem Statement.selects_withLead (s : Statement) (lead : Space) :
    (s.withLead lead).selects = s.selects := by
  cases s with
  | type d => cases d; rfl
  | method d => cases d; rfl
  | vars d => rfl
  | call c => rfl
  | raw r => rfl

end JavaMigration.Source

namespace JavaMigration.Java

open Source

/-! ## The calls of a source -/

/-- An expression that is a plain name. -/
def plainName? : List Syntax → Option String
  | [.leaf x] =>
    if x.kind == .word && !Grammar.operandWords.contains x.text then some x.text else none
  | _ => none

/-- The plain name that an operand calls a method on. -/
def selectOf? (operand : List Syntax) : Option String :=
  match operand.getLast? with
  | some (.node .callOn [.leaf _, .leaf _, _]) => plainName? operand.dropLast
  | _ => none

mutual

/-- The calls on plain names in a declaration or statement that the parser looks into, at any depth,
in source order. -/
def callSitesIn (owner : String) (scope : List Binding) : Syntax → List CallSite
  | .node .typeDecl [.node _ _, .leaf _, .leaf name, _, body] =>
    let owner := nestedName owner name.text
    bodyCallSites owner (fieldsIn owner body ++ scope) body
  | .node .method [.node _ _, .node _ _, _, .leaf _, .node _ parameters, _, .node _ _, body] =>
    bodyCallSites owner ((parameters.filterMap parameterIn).reverse ++ scope) body
  | .node .expressionStatement [.node _ [.node _ operand], .leaf _] =>
    (selectOf? operand).toList.map fun name => ⟨scope, name⟩
  | _ => []

/-- The calls in a body. Variables are in scope behind their declaration. -/
def callSitesOf (owner : String) (scope : List Binding) : List Syntax → List CallSite
  | [] => []
  | s :: rest =>
    callSitesIn owner scope s ++ callSitesOf owner ((variablesIn s).reverse ++ scope) rest

def bodyCallSites (owner : String) (scope : List Binding) : Syntax → List CallSite
  | .node _ [_, .node _ items, _] => callSitesOf owner scope items
  | .node _ [_, _, .node _ items, _] => callSitesOf owner scope items
  | _ => []

end

/-- The calls on plain names in what stands at the top level of a source. -/
def topCallSites : Syntax → List CallSite
  | .node .typeDecl cs => callSitesIn "" [] (.node .typeDecl cs)
  | _ => []

/-- The name of a call, with the type that the parser sees. -/
def CallSite.select (r : Resolver) (site : CallSite) : Identifier :=
  { name := site.name, type := site.seenType r }

/-! ## The walk over a source -/

variable {env : Environment} {scope : List Binding}

theorem ident_receiverOf (env : Environment) (object : List Syntax) :
    (receiverOf env object).ident? =
      (plainName? object).map fun name => { name, type := env.lookup name } := by
  unfold plainName?
  split
  · rw [receiverOf]
    split <;> rfl
  · next hne =>
    unfold receiverOf
    split
    · exact (hne _ rfl).elim
    · rfl

theorem plainName?_of_endsInSuper {object : List Syntax} (h : endsInSuper object) :
    plainName? object = none := by
  unfold plainName?
  split
  · next x =>
    have hsuper : x.text = "super" := beq_iff_eq.mp h
    rw [hsuper, if_neg (by simp [Grammar.operandWords])]
  · rfl

/-- A call has a plain name as receiver where the source calls a method on one. -/
theorem select_callOf (env : Environment) (id : StatementId) (operand : List Syntax)
    (close : Lexeme) :
    (callOf env id operand close).bind (fun c => c.receiver.bind Receiver.ident?) =
      (selectOf? operand).map fun name => { name, type := env.lookup name } := by
  unfold callOf selectOf?
  split
  · next hlast =>
    rw [hlast]
    rfl
  · next hlast =>
    rw [hlast]
    dsimp only
    split
    · next hsuper =>
      rw [plainName?_of_endsInSuper hsuper]
      rfl
    · exact ident_receiverOf env _
  · next hcallOn _ =>
    split
    · next heq => exact (hcallOn _ _ _ heq).elim
    · rfl

/-- In a statement the parser sees what it enters of the bindings in scope. -/
def SeesCallSites (s : Syntax) : Prop :=
  ∀ (env : Environment) (scope : List Binding) (id : StatementId), Sees env scope →
    (statementOf env id s).selects =
      (callSitesIn env.owner scope s).map (CallSite.select env.resolver)

theorem selectsOf_statementsOf {items : List Syntax} (hvalid : ∀ s ∈ items, s.Valid)
    (h : ∀ s ∈ items, SeesCallSites s) (id : StatementId) (henv : Sees env scope)
    (hscopes : env.scopes ≠ []) :
    selectsOf (statementsOf env id items) =
      (callSitesOf env.owner scope items).map (CallSite.select env.resolver) := by
  induction items generalizing env scope id with
  | nil => rfl
  | cons s items ih =>
    obtain ⟨hs, hitems⟩ := List.forall_mem_cons.mp h
    obtain ⟨hsvalid, hvalid⟩ := List.forall_mem_cons.mp hvalid
    have hrest := ih hvalid hitems (id + 1) (henv.bind hscopes (variablesIn s))
      (Environment.scopes_bind_ne_nil hscopes _)
    rw [Environment.owner_bind, Environment.resolver_bind] at hrest
    rw [statementsOf, selectsOf, bindingsOf_statementOf hsvalid, hrest, hs env scope id henv,
      callSitesOf, List.map_append]

theorem selectsOf_enumMembersOf {items : List Syntax} (hvalid : ∀ s ∈ items, s.Valid)
    (h : ∀ s ∈ items, SeesCallSites s) (id : StatementId) (before : Option String)
    (henv : Sees env scope) (hscopes : env.scopes ≠ []) :
    selectsOf (enumMembersOf env id before items) =
      (callSitesOf env.owner scope items).map (CallSite.select env.resolver) := by
  induction items generalizing env scope id before with
  | nil => rfl
  | cons s items ih =>
    obtain ⟨hs, hitems⟩ := List.forall_mem_cons.mp h
    obtain ⟨hsvalid, hrestvalid⟩ := List.forall_mem_cons.mp hvalid
    cases s with
    | leaf l => exact ih hrestvalid hitems id _ henv hscopes
    | node p cs =>
      have hrest := ih hrestvalid hitems (id + 1) (some "")
        (henv.bind hscopes (variablesIn (.node p cs))) (Environment.scopes_bind_ne_nil hscopes _)
      rw [Environment.owner_bind, Environment.resolver_bind] at hrest
      rw [enumMembersOf_node, selectsOf, bindingsOf_statementOf hsvalid, hrest,
        Statement.selects_withLead, hs env scope id henv, callSitesOf, List.map_append]

theorem selects_expression (henv : Sees env scope) (id : StatementId) (e o : Phrase)
    (operand : List Syntax) (close : Lexeme) :
    (statementOf env id
        (.node .expressionStatement [.node e [.node o operand], .leaf close])).selects =
      (callSitesIn env.owner scope (.node .expressionStatement [.node e [.node o operand],
        .leaf close])).map (CallSite.select env.resolver) := by
  have hselect := select_callOf env id operand close
  rw [statementOf_expression, callSitesIn]
  cases hcall : callOf env id operand close with
  | none =>
    rw [hcall, Option.bind_none] at hselect
    rw [Option.map_eq_none_iff.mp hselect.symm]
    rfl
  | some call =>
    rw [hcall, Option.bind_some] at hselect
    dsimp only
    rw [Statement.selects, hselect]
    cases selectOf? operand with
    | none => rfl
    | some name =>
      rw [Option.map_some, henv.lookup]
      rfl

/-- Children of a list in a body are valid. -/
theorem valid_of_mem_body {p b i : Phrase} {cs items : List Syntax} (h : (Syntax.node p cs).Valid)
    (ds : List Syntax) (hbody : .node b ds ∈ cs) (hitems : .node i items ∈ ds) :
    ∀ s ∈ items, s.Valid := fun s hs =>
  Conforms.valid (Conforms.valid (Conforms.valid h _ hbody) _ hitems) s hs

theorem Shaped.seesCallSites {s : Syntax} (h : Shaped s) (hs : s.Valid) : SeesCallSites s := by
  induction h with
  | @type m b i modifiers items key name first last header _ _ _ _ _ ih =>
    intro env scope id henv
    have hvalid : ∀ s ∈ items, s.Valid := valid_of_mem_body (b := b) (i := i) hs
      [.leaf first, .node i items, .leaf last] (by simp) (by simp)
    exact selectsOf_statementsOf hvalid (fun s hs => ih s hs (hvalid s hs)) 0
      (henv.enterType _ _) (List.cons_ne_nil _ _)
  | @enum m b c i modifiers constants items key name first last header _ _ _ _ _ _ ih =>
    intro env scope id henv
    have hvalid : ∀ s ∈ items, s.Valid := valid_of_mem_body (b := b) (i := i) hs
      [.leaf first, .node c constants, .node i items, .leaf last] (by simp) (by simp)
    have hmembers := selectsOf_enumMembersOf hvalid (fun s hs => ih s hs (hvalid s hs)) 1 none
      (henv.enterType (nestedName env.owner name.text)
        (.node b [.leaf first, .node c constants, .node i items, .leaf last]))
      (List.cons_ne_nil _ _)
    rw [statementOf, Statement.selects_type]
    unfold blockOf
    dsimp only
    rw [selectsOf_append, hmembers]
    split <;> rfl
  | vars => exact fun _ _ _ _ => rfl
  | signature => exact fun _ _ _ _ => rfl
  | @method m g p b i modifiers generic parameters throwing items type dims name first last _ _ _ _
      _ _ _ _ ih =>
    intro env scope id henv
    have hvalid : ∀ s ∈ items, s.Valid := valid_of_mem_body (b := b) (i := i) hs
      [.leaf first, .node i items, .leaf last] (by simp) (by simp)
    exact selectsOf_statementsOf hvalid (fun s hs => ih s hs (hvalid s hs)) 0
      (henv.enterMethod parameters) (List.cons_ne_nil _ _)
  | expression => exact fun env scope id henv => selects_expression henv id ..
  | @raw s h =>
    intro env scope id henv
    have hraw := h env id
    rw [hraw]
    unfold callSitesIn
    split
    · cases hraw
    · next body =>
      cases body <;> cases hraw
    · rw [← hraw]
      exact selects_expression henv id ..
    · rfl

/-! ## Units -/

theorem selectsOf_mapIdx {r : Resolver} {items : List Syntax} {f : Nat → Syntax → Statement}
    (h : ∀ id, ∀ s ∈ items, (f id s).selects = (topCallSites s).map (CallSite.select r)) :
    selectsOf (items.mapIdx f) = (items.flatMap topCallSites).map (CallSite.select r) := by
  induction items generalizing f with
  | nil => rfl
  | cons s items ih =>
    have hrest := ih fun id t ht => h (id + 1) t (List.mem_cons_of_mem _ ht)
    rw [List.mapIdx_cons, selectsOf, h 0 s List.mem_cons_self, hrest, List.flatMap_cons,
      List.map_append]

theorem selectsOf_topLevelOf {items : List Syntax} (hvalid : ∀ s ∈ items, s.Valid) (r : Resolver) :
    selectsOf (topLevelOf { resolver := r } items) =
      (items.flatMap topCallSites).map (CallSite.select r) := by
  have hheader : (items.filter fun s => !isHeader s).flatMap topCallSites =
      items.flatMap topCallSites := by
    induction items with
    | nil => rfl
    | cons s items ih =>
      rw [List.filter_cons, List.flatMap_cons, ← ih (List.forall_mem_cons.mp hvalid).2]
      split
      · rfl
      · next h =>
        have hnone : topCallSites s = [] := by
          unfold topCallSites
          split
          · exact absurd rfl h
          · rfl
        rw [hnone, List.nil_append]
  rw [topLevelOf_eq, ← hheader]
  refine selectsOf_mapIdx fun id s hs => ?_
  split
  · next cs =>
    have hvalid := hvalid _ (List.mem_of_mem_filter hs)
    exact hvalid.shaped.seesCallSites hvalid { resolver := r } [] id rfl
  · next hne =>
    unfold topCallSites
    split
    · exact (hne _ rfl).elim
    · rfl

/-! ## Sources -/

/-- In a unit that was read, every call on a plain name has the type of the nearest variable of that
name that the parser enters. It is the type with which the nearest variable is declared, and none if
that does not resolve or there is no variable, unless dimensions are not counted or the nearest
variable is not entered. -/
theorem select_types_of_parse? {classpath : Classpath} {path source : String} {u : CompilationUnit}
    (h : parse? classpath path source = some u) :
    ∃ items close, readUnit source = some (items, close) ∧
      selectsOf u.types =
        (items.flatMap topCallSites).map (CallSite.select (resolverOf items classpath)) ∧
      ∀ site ∈ items.flatMap topCallSites,
        (site.select (resolverOf items classpath)).type =
            site.declaredType (resolverOf items classpath) ↔
          site.IsSeen (resolverOf items classpath) := by
  unfold parse? at h
  obtain ⟨⟨items, close⟩, hread, rfl⟩ := Option.map_eq_some_iff.mp h
  exact ⟨items, close, hread, selectsOf_topLevelOf (readUnit_valid hread) _,
    fun site _ => site.seenType_eq_iff⟩

/-- Calls on a local variable that hides a field, on a parameter, and on an unknown name. -/
def hidingSource : String :=
  "class A \x7b String s; void m(int[] t) \x7b Long s[]; s.a(); t.b(); u.c(); \x7d \x7d"

set_option maxRecDepth 100000 in
theorem select_types_hidingSource :
    ∃ u, parse? {} "A.java" hidingSource = some u ∧
      selectsOf u.types =
        [{ name := "s", type := some (.array (.ofClass "java.lang.Long")) },
          { name := "t", type := some (.array (.primitive "int")) }, { name := "u" }] ∧
      ∃ items close, readUnit hidingSource = some (items, close) ∧
        selectsOf u.types =
          (items.flatMap topCallSites).map (CallSite.select (resolverOf items {})) ∧
        ∀ site ∈ items.flatMap topCallSites,
          (site.select (resolverOf items {})).type = site.declaredType (resolverOf items {}) ↔
            site.IsSeen (resolverOf items {}) := by
  have hselects : (parse? {} "A.java" hidingSource).any fun u => selectsOf u.types ==
      [{ name := "s", type := some (.array (.ofClass "java.lang.Long")) },
        { name := "t", type := some (.array (.primitive "int")) }, { name := "u" }] := by
    decide +kernel
  obtain ⟨u, hparse, hselects⟩ := (Option.any_eq_true _ _).mp hselects
  exact ⟨u, hparse, beq_iff_eq.mp hselects, select_types_of_parse? hparse⟩

/-- A call on a parameter that takes any number of arguments and hides a field. -/
def varargsSource : String :=
  "class A \x7b String s; void m(Integer... s) \x7b s.close(); \x7d \x7d"

set_option maxRecDepth 100000 in
/-- The call gets the type of the field. -/
theorem varargs_are_not_seen :
    ∃ u items close, parse? {} "A.java" varargsSource = some u ∧
      readUnit varargsSource = some (items, close) ∧
      selectsOf u.types = [{ name := "s", type := some (.ofClass "java.lang.String") }] ∧
      (items.flatMap topCallSites).map (CallSite.declaredType (resolverOf items {})) =
        [some (.array (.ofClass "java.lang.Integer"))] := by
  have hboth : ((parse? {} "A.java" varargsSource).any fun u => selectsOf u.types ==
        [{ name := "s", type := some (.ofClass "java.lang.String") }]) ∧
      (readUnit varargsSource).any fun read =>
        (read.1.flatMap topCallSites).map (CallSite.declaredType (resolverOf read.1 {})) ==
          [some (.array (.ofClass "java.lang.Integer"))] := by
    decide +kernel
  obtain ⟨u, hparse, hselects⟩ := (Option.any_eq_true _ _).mp hboth.1
  obtain ⟨⟨items, close⟩, hread, hdeclared⟩ := (Option.any_eq_true _ _).mp hboth.2
  exact ⟨u, items, close, hparse, hread, beq_iff_eq.mp hselects, beq_iff_eq.mp hdeclared⟩

end JavaMigration.Java
