import JavaMigration.Proofs.Java.Built
import JavaMigration.Proofs.Text.Visible

/-!
# Bindings and scopes

A variable is declared with a type and with dimensions behind its name. The parser enters local
variables, fields and plain parameters into its scopes, but neither varargs nor the constants of an
enum: a name that one of these binds is looked for further out (`Sees.lookup`). It sees the declared
type if it enters the nearest variable and counts its dimensions (`CallSite.seenType_eq_iff`).
-/

namespace JavaMigration.Java

open Source

/-! ## Bindings -/

/-- A variable as it is declared: its name, the type in front of it and the dimensions behind it. -/
inductive Binding where
  /-- A local variable or a field. -/
  | declarator (name : String) (type dims : Syntax)
  | parameter (name : String) (type dims : Syntax)
  /-- A parameter for any number of arguments. -/
  | varargs (name : String) (type dims : Syntax)
  /-- A constant of an enum, which is a field of that type. -/
  | constant (name owner : String)

namespace Binding

def name : Binding → String
  | declarator name _ _ | parameter name _ _ | varargs name _ _ | constant name _ => name

/-- The array levels that stand behind a name, without brackets in annotations and comments. -/
def levels : Syntax → Nat
  | .leaf _ => 0
  | .node _ parts => parts.countP fun
    | .leaf l => l.text == "["
    | .node _ _ => false

/-- The type that a variable is declared with, if the written one resolves. -/
def declaredType (r : Resolver) : Binding → Option JavaType
  | declarator _ type dims | parameter _ type dims =>
    (r.resolve (textOf [type])).map (·.arrayOf (levels dims))
  | varargs _ type dims => (r.resolve (textOf [type])).map (·.arrayOf (levels dims + 1))
  | constant _ owner => some (.ofClass (r.qualify owner))

/-- The type that the parser enters a variable with, if it enters it at all. -/
def entered? (r : Resolver) : Binding → Option (Option JavaType)
  | declarator _ type dims =>
    some ((r.resolve (textOf [type])).map (·.arrayOf (dimensions (textOf [dims]))))
  | parameter _ type _ => some (r.resolve (textOf [type]))
  | varargs _ _ _ | constant _ _ => none

/-- What a variable adds to the scopes of the parser. -/
def scoped? (r : Resolver) (b : Binding) : Option (String × Option JavaType) :=
  (b.entered? r).map (b.name, ·)

end Binding

/-- The variables that a declaration of local variables or fields binds, in source order. -/
def variablesIn : Syntax → List Binding
  | .node .vars [_, type, .node _ declarators, _] =>
    declarators.filterMap fun
      | .node _ (.leaf name :: .node d dims :: _) =>
        some (.declarator name.text type (.node d dims))
      | _ => none
  | _ => []

/-- The variable that a parameter binds, if it is no receiver. -/
def parameterIn : Syntax → Option Binding
  | .node .formal [_, type, .leaf name, dims] => some (.parameter name.text type dims)
  | .node .spread (_ :: type :: rest) =>
    match rest.getLast? with
    | some (.node _ (.leaf name :: dims :: _)) => some (.varargs name.text type dims)
    | _ => none
  | _ => none

def constantsIn (owner : String) : Syntax → List Binding
  | .leaf _ => []
  | .node _ constants =>
    constants.filterMap fun
      | .node .enumConstant (_ :: .leaf name :: _) => some (.constant name.text owner)
      | _ => none

/-- The fields of a type, the last one first and the constants of an enum behind the others. -/
def fieldsIn (owner : String) : Syntax → List Binding
  | .node _ [_, .node _ items, _] => (items.flatMap variablesIn).reverse
  | .node _ [_, constants, .node _ items, _] =>
    (items.flatMap variablesIn).reverse ++ constantsIn owner constants
  | _ => []

/-! ## Sites -/

/-- A call on a plain name, with the bindings that are in scope, the nearest one first. -/
structure CallSite where
  scope : List Binding
  name : String

namespace CallSite

/-- The variable that the name stands for. -/
def nearest? (site : CallSite) : Option Binding := site.scope.find? (·.name == site.name)

def declaredType (r : Resolver) (site : CallSite) : Option JavaType :=
  site.nearest?.bind (·.declaredType r)

/-- The type of the nearest variable of the name that the parser enters. -/
def seenType (r : Resolver) (site : CallSite) : Option JavaType :=
  (site.scope.findSome? fun b => if b.name == site.name then b.entered? r else none).join

/-- Whether the parser sees the type with which the nearest variable is declared. -/
def IsSeen (r : Resolver) (site : CallSite) : Prop :=
  match site.nearest? with
  | none => True
  | some (.declarator _ type dims) =>
    r.resolve (textOf [type]) = none ∨ dimensions (textOf [dims]) = Binding.levels dims
  | some (.parameter _ type dims) => r.resolve (textOf [type]) = none ∨ Binding.levels dims = 0
  -- what is seen is further out
  | some b => site.seenType r = b.declaredType r

end CallSite

/-! ## Dimensions -/

theorem textOf_node (p : Phrase) (cs : List Syntax) : textOf [.node p cs] = textOf cs := by
  unfold textOf
  rw [lexemesOf_node, lexemesOf_nil, List.append_nil]

theorem sizeOf_arrayOf (t : JavaType) (n : Nat) : sizeOf (t.arrayOf n) = sizeOf t + n := by
  induction n with
  | zero => rfl
  | succ n ih =>
    rw [JavaType.arrayOf, JavaType.array.sizeOf_spec, ih]
    omega

/-- Types with other numbers of array levels are told apart. -/
theorem map_arrayOf_eq_iff {type : Option JavaType} {m n : Nat} :
    type.map (·.arrayOf m) = type.map (·.arrayOf n) ↔ type = none ∨ m = n := by
  cases type with
  | none => simp
  | some t =>
    rw [Option.map_some, Option.map_some, Option.some.injEq]
    constructor
    · intro h
      have hsize := congrArg sizeOf h
      rw [sizeOf_arrayOf, sizeOf_arrayOf] at hsize
      exact .inr (Nat.add_left_cancel hsize)
    · rintro (h | rfl)
      · cases h
      · rfl

theorem bracketsFrom_zero {cs : List Char} (h : '<' ∉ cs) : bracketsFrom 0 cs = cs.count '[' := by
  induction cs with
  | nil => rfl
  | cons c cs ih =>
    rw [List.mem_cons, not_or] at h
    rw [bracketsFrom, if_neg (Ne.symm h.1), ih h.2, List.count_cons]
    by_cases hopen : c = '['
    · simp [hopen]
    · simp [hopen]

theorem dimensions_eq_count {s : String} (hangle : '<' ∉ s.toList) (hdot : '.' ∉ s.toList) :
    dimensions s = s.toList.count '[' := by
  have hdots : Text.endsWith (Text.trimEnd s) "..." = false := by
    rw [Bool.eq_false_iff]
    intro h
    have hmem : '.' ∈ (Text.trimEnd s).toList :=
      (List.isSuffixOf_iff_suffix.mp h).subset (show '.' ∈ "...".toList by decide)
    unfold Text.trimEnd Text.dropWhileEnd at hmem
    rw [String.toList_ofList, List.mem_reverse] at hmem
    exact hdot (List.mem_reverse.mp ((List.dropWhile_suffix _).subset hmem))
  rw [dimensions, hdots, bracketsFrom_zero hangle]
  rfl

/-- Lexemes with blanks between them show their texts. -/
theorem visible_textOf {cs : List Syntax} (h : ∀ l ∈ lexemesOf cs, l.lead.isBlank) :
    Text.visible (textOf cs) = (lexemesOf cs).flatMap (Text.visible ·.text) := by
  have hprint : ∀ ls : List Lexeme, (∀ l ∈ ls, l.lead.isBlank) →
      Text.visible (printLexemes ls) = ls.flatMap (Text.visible ·.text) := by
    intro ls hls
    rw [printLexemes, Text.visible_join, List.flatMap_map]
    refine List.flatMap_congr fun l hl => ?_
    rw [Lexeme.print, Text.visible_append, Space.visible_text_iff.mpr (hls l hl), List.nil_append]
  unfold textOf
  cases hlexemes : lexemesOf cs with
  | nil => rfl
  | cons l ls =>
    rw [hlexemes] at h
    rw [Text.visible_append, hprint ls (List.forall_mem_cons.mp h).2, List.flatMap_cons]

/-- Dimensions without annotations and comments are counted. -/
theorem dimensions_eq_levels {d : Phrase} {ls : List Lexeme}
    (h : ∀ l ∈ ls, (l.text = "[" ∨ l.text = "]") ∧ l.lead.isBlank) :
    dimensions (textOf [.node d (ls.map .leaf)]) = Binding.levels (.node d (ls.map .leaf)) := by
  have hlexemes : lexemesOf (ls.map .leaf) = ls := by
    clear h
    induction ls with
    | nil => rfl
    | cons l ls ih => rw [List.map_cons, lexemesOf_leaf, ih]
  have hshown : Text.visible (textOf (ls.map .leaf)) = ls.flatMap (Text.visible ·.text) := by
    have hvisible := visible_textOf (hlexemes.symm ▸ fun l hl => (h l hl).2)
    rwa [hlexemes] at hvisible
  have hmark : ∀ c, Text.isBlank c = false → c ∈ (textOf (ls.map .leaf)).toList →
      c = '[' ∨ c = ']' := by
    intro c hc hmem
    have hvisible : c ∈ Text.visible (textOf (ls.map .leaf)) :=
      List.mem_filter.mpr ⟨hmem, by rw [hc]; rfl⟩
    rw [hshown, List.mem_flatMap] at hvisible
    obtain ⟨l, hl, hcl⟩ := hvisible
    rcases (h l hl).1 with htext | htext
    · rw [htext] at hcl
      exact .inl (List.mem_singleton.mp hcl)
    · rw [htext] at hcl
      exact .inr (List.mem_singleton.mp hcl)
  have hcount : (textOf (ls.map .leaf)).toList.count '[' =
      (Text.visible (textOf (ls.map .leaf))).count '[' := (List.count_filter (by decide)).symm
  rw [textOf_node, dimensions_eq_count (fun h => by simpa using hmark '<' (by decide) h)
    (fun h => by simpa using hmark '.' (by decide) h), hcount, hshown, Binding.levels]
  clear hlexemes hshown hmark hcount
  induction ls with
  | nil => rfl
  | cons l ls ih =>
    obtain ⟨hl, hls⟩ := List.forall_mem_cons.mp h
    rw [List.flatMap_cons, List.count_append, ih hls, List.map_cons, List.countP_cons, Nat.add_comm]
    rcases hl.1 with htext | htext
    · simp [htext, Text.visible, Text.isBlank]
    · simp [htext, Text.visible, Text.isBlank]

/-! ## When the declared type is seen -/

namespace CallSite

variable {r : Resolver} {site : CallSite}

theorem seenType_of_none (h : site.nearest? = none) : site.seenType r = none := by
  have hnone : (site.scope.findSome? fun b =>
      if b.name == site.name then b.entered? r else none) = none := by
    rw [List.findSome?_eq_none_iff]
    intro b hb
    have hne := List.find?_eq_none.mp h b hb
    rw [if_neg hne]
  rw [seenType, hnone]
  rfl

/-- If the nearest variable is entered, the parser sees what it is entered with. -/
theorem seenType_of_entered {b : Binding} {type : Option JavaType} (h : site.nearest? = some b)
    (hb : b.entered? r = some type) : site.seenType r = type := by
  obtain ⟨hname, front, back, hscope, hfront⟩ := List.find?_eq_some_iff_append.mp h
  have hnone : (front.findSome? fun b =>
      if b.name == site.name then b.entered? r else none) = none := by
    rw [List.findSome?_eq_none_iff]
    intro c hc
    rw [if_neg (by simpa using hfront c hc)]
  rw [seenType, hscope, List.findSome?_append, hnone, Option.none_or, List.findSome?_cons,
    if_pos hname, hb]
  rfl

theorem seenType_eq_iff : site.seenType r = site.declaredType r ↔ site.IsSeen r := by
  unfold declaredType IsSeen
  cases hnearest : site.nearest? with
  | none => simp [seenType_of_none hnearest]
  | some b =>
    rw [Option.bind_some]
    cases b with
    | declarator name type dims =>
      rw [seenType_of_entered hnearest rfl, Binding.declaredType, map_arrayOf_eq_iff]
    | parameter name type dims =>
      have hplain := @map_arrayOf_eq_iff (r.resolve (textOf [type])) (Binding.levels dims) 0
      have hzero : (r.resolve (textOf [type])).map (·.arrayOf 0) = r.resolve (textOf [type]) := by
        cases r.resolve (textOf [type]) <;> rfl
      rw [hzero] at hplain
      rw [seenType_of_entered hnearest rfl, Binding.declaredType, eq_comm]
      exact hplain
    | varargs name type dims => exact Iff.rfl
    | constant name owner => exact Iff.rfl

end CallSite

/-! ## What the parser enters -/

theorem declaratorType_eq {type : Option JavaType} {d : Phrase} {dims : List Syntax} :
    declaratorType type dims = type.map (·.arrayOf (dimensions (textOf [.node d dims]))) := by
  unfold declaratorType
  rw [textOf_node]
  split
  · next h =>
    rw [List.isEmpty_iff.mp h, show dimensions (textOf []) = 0 from rfl]
    cases type <;> rfl
  · rfl

/-- The variables of a declaration as they are entered. -/
theorem scoped_variablesIn (r : Resolver) (s : Syntax) :
    (variablesIn s).filterMap (·.scoped? r) =
      match s with
      | .node .vars [_, type, .node _ declarators, _] =>
        declarators.filterMap fun
          | .node _ (.leaf name :: .node _ dims :: _) =>
            some (name.text, declaratorType (r.resolve (textOf [type])) dims)
          | _ => none
      | _ => [] := by
  unfold variablesIn
  split
  · rw [List.filterMap_filterMap]
    refine List.filterMap_congr fun t _ => ?_
    split
    · rw [declaratorType_eq]
      rfl
    · rfl
  · rfl

theorem fieldScope_eq (r : Resolver) (items : List Syntax) :
    fieldScope r items = (items.flatMap variablesIn).reverse.filterMap (·.scoped? r) := by
  rw [fieldScope, List.filterMap_reverse, List.filterMap_flatMap]
  exact congrArg List.reverse (List.flatMap_congr fun s _ => (scoped_variablesIn r s).symm)

/-- Constants of an enum are not among the variables of its body. -/
theorem bodyScope_eq (r : Resolver) (owner : String) (body : Syntax) :
    bodyScope r body = (fieldsIn owner body).filterMap (·.scoped? r) := by
  have hconstants : ∀ constants, (constantsIn owner constants).filterMap (·.scoped? r) = [] := by
    intro constants
    cases constants with
    | leaf l => rfl
    | node p cs =>
      rw [constantsIn, List.filterMap_filterMap, List.filterMap_eq_nil_iff]
      intro s _
      split <;> rfl
  unfold fieldsIn
  split
  · exact fieldScope_eq r _
  · next constants _ items _ =>
    rw [List.filterMap_append, hconstants, List.append_nil]
    cases constants <;> exact fieldScope_eq r items
  · next hclass henum =>
    unfold bodyScope
    split
    · exact (hclass _ _ _ _ _ rfl).elim
    · exact (henum _ _ _ _ _ _ rfl).elim
    · rfl

theorem scoped_parameterIn (r : Resolver) (s : Syntax) :
    (parameterIn s).bind (·.scoped? r) =
      match s with
      | .node .formal [_, type, .leaf name, _] => some (name.text, r.resolve (textOf [type]))
      | _ => none := by
  unfold parameterIn
  split
  · rfl
  · split <;> rfl
  · next hformal _ =>
    split
    · exact (hformal _ _ _ _ rfl).elim
    · rfl

theorem parameterScope_eq (r : Resolver) (parameters : List Syntax) :
    parameterScope r parameters =
      (parameters.filterMap parameterIn).reverse.filterMap (·.scoped? r) := by
  rw [parameterScope, List.filterMap_reverse, List.filterMap_filterMap]
  exact congrArg List.reverse (List.filterMap_congr fun s _ => (scoped_parameterIn r s).symm)

/-! ## Scopes -/

/-- The scopes of the parser hold what it enters of the bindings in scope. -/
def Sees (env : Environment) (scope : List Binding) : Prop :=
  env.scopes.flatten = scope.filterMap (·.scoped? env.resolver)

variable {env : Environment} {scope : List Binding}

theorem Sees.enter (h : Sees env scope) (vars : List Binding) :
    Sees (env.enter (vars.filterMap (·.scoped? env.resolver))) (vars ++ scope) := by
  unfold Sees at h ⊢
  rw [List.filterMap_append]
  exact congrArg (_ ++ ·) h

theorem Sees.enterType (h : Sees env scope) (owner : String) (body : Syntax) :
    Sees ({ env with owner }.enter (bodyScope env.resolver body))
      (fieldsIn owner body ++ scope) := by
  have howner : Sees { env with owner } scope := h
  rw [bodyScope_eq env.resolver owner]
  exact howner.enter (fieldsIn owner body)

theorem Sees.enterMethod (h : Sees env scope) (parameters : List Syntax) :
    Sees (env.enter (parameterScope env.resolver parameters))
      ((parameters.filterMap parameterIn).reverse ++ scope) := by
  rw [parameterScope_eq]
  exact h.enter _

theorem Sees.bind (h : Sees env scope) (hscopes : env.scopes ≠ []) (vars : List Binding) :
    Sees (env.bind (vars.filterMap (·.scoped? env.resolver))) (vars.reverse ++ scope) := by
  unfold Sees at h ⊢
  unfold Environment.bind
  cases hcases : env.scopes with
  | nil => exact absurd hcases hscopes
  | cons inner outer =>
    rw [hcases, List.flatten_cons] at h
    dsimp only
    rw [List.flatten_cons, List.append_assoc, h, List.filterMap_append, List.filterMap_reverse]

theorem lookup_flatten (name : String) (scopes : List Scope) :
    scopes.flatten.lookup name = scopes.findSome? (·.lookup name) := by
  induction scopes with
  | nil => rfl
  | cons s scopes ih =>
    rw [List.flatten_cons, List.lookup_append, List.findSome?_cons, ih]
    cases s.lookup name <;> rfl

theorem lookup_scoped (r : Resolver) (name : String) (scope : List Binding) :
    (scope.filterMap (·.scoped? r)).lookup name =
      scope.findSome? fun b => if b.name == name then b.entered? r else none := by
  induction scope with
  | nil => rfl
  | cons b scope ih =>
    rw [List.findSome?_cons, ← ih, List.filterMap_cons, Binding.scoped?]
    cases b.entered? r with
    | none => rw [ite_self]; rfl
    | some t =>
      rw [Option.map_some]
      dsimp only
      rw [List.lookup_cons, BEq.comm]
      cases b.name == name <;> rfl

/-- A name is looked up as the nearest variable that is entered. -/
theorem Sees.lookup (h : Sees env scope) (name : String) :
    env.lookup name = CallSite.seenType env.resolver ⟨scope, name⟩ := by
  rw [Environment.lookup, ← lookup_flatten, h, lookup_scoped]
  rfl

theorem Environment.scopes_bind_ne_nil (h : env.scopes ≠ []) (vars : Scope) :
    (env.bind vars).scopes ≠ [] := by
  unfold Environment.bind
  split
  · exact h
  · exact List.cons_ne_nil _ _

/-- A declaration binds the variables that stand in it. -/
theorem bindingsOf_vars {cs : List Syntax} (hs : (Syntax.node .vars cs).Valid) (env : Environment)
    (id : StatementId) :
    bindingsOf (statementOf env id (.node .vars cs)) =
      (variablesIn (.node .vars cs)).filterMap (·.scoped? env.resolver) := by
  obtain ⟨modifiers, type, declarators, close, -, -, hdeclarators, -, rfl⟩ := vars_eq hs
  rw [scoped_variablesIn]
  show (declarators.filterMap (declaratorOf env.resolver type)).map _ = _
  dsimp only
  rw [List.map_filterMap]
  refine List.filterMap_congr fun s hs => ?_
  rcases hdeclarators.mem_cases hs with hs | ⟨l, rfl, -⟩
  · unfold Syntax.IsDeclarator at hs
    split at hs
    · rfl
    · exact hs.elim
  · rfl

/-- A statement binds the variables that stand in it. -/
theorem bindingsOf_statementOf {s : Syntax} (hs : s.Valid) (env : Environment) (id : StatementId) :
    bindingsOf (statementOf env id s) = (variablesIn s).filterMap (·.scoped? env.resolver) := by
  by_cases hvars : ∃ cs, s = .node .vars cs
  · obtain ⟨cs, rfl⟩ := hvars
    exact bindingsOf_vars hs env id
  · have hnone : variablesIn s = [] := by
      unfold variablesIn
      split
      · exact absurd ⟨_, rfl⟩ hvars
      · rfl
    rw [hnone]
    cases hs.shaped with
    | vars => exact absurd ⟨_, rfl⟩ hvars
    | expression =>
      rw [statementOf_expression]
      split <;> rfl
    | raw h => rw [h]; rfl
    | _ => rfl

end JavaMigration.Java
