import JavaMigration.Proofs.Java.Built
import JavaMigration.Proofs.Recipe.Completeness

/-!
# Which variable a type closes

Fields and local variables are declarations of one kind, and both are reported to the type around
them, where the latest report counts. So a type closes the variable that its last member with a
rule declaration declares last, and this member may be a method
(`closes_variable_of_last_member`).
-/

namespace JavaMigration.Source

/-- Whether a member of a type is a method with a declaration among the statements of its body. -/
def Statement.HasLocal (s : Statement) (d : VariableDecl) : Prop :=
  ∃ a b, s = .method a ∧ a.body = some b ∧ .vars d ∈ b.statements

/-- What a member declares is the member itself or a local variable in it. -/
theorem Statement.eq_or_hasLocal {s : Statement} {d : VariableDecl} (h : d ∈ s.ownVars) :
    s = .vars d ∨ s.HasLocal d := by
  cases s with
  | vars e =>
    rw [List.mem_singleton.mp h]
    exact .inl rfl
  | method a =>
    cases a with
    | mk _ _ _ _ _ _ _ _ body _ =>
      cases body with
      | none => cases h
      | some b =>
        obtain ⟨t, ht, htd⟩ := List.mem_filterMap.mp h
        refine .inr ⟨_, b, rfl, rfl, ?_⟩
        cases t with
        | vars e =>
          cases htd
          exact ht
        | _ => cases htd
  | _ => cases h

/-- The types of a regular tree are regular. -/
theorem regular_of_mem_allTypesOf {ss : List Statement} (h : ∀ s ∈ ss, s.Regular) {d : TypeDecl}
    (hd : d ∈ allTypesOf ss) : d.Regular := by
  induction ss using statements_induction with
  | nil => cases hd
  | type e rest hbody hrest =>
    obtain ⟨he, hrestRegular⟩ := List.forall_mem_cons.mp h
    rw [allTypesOf_cons, Statement.allTypes_type, List.append_assoc] at hd
    rcases List.mem_append.mp hd with hd | hd
    · exact hbody (Block.regular_iff.mp (TypeDecl.regular_iff.mp he)).2 hd
    · rcases List.mem_cons.mp hd with rfl | hd
      · exact he
      · exact hrest hrestRegular hd
  | method e b rest hb hbody hrest =>
    obtain ⟨he, hrestRegular⟩ := List.forall_mem_cons.mp h
    rw [allTypesOf_cons, Statement.allTypes_method hb] at hd
    rcases List.mem_append.mp hd with hd | hd
    · exact hbody (Block.regular_iff.mp ((MethodDecl.regular_of_some hb).mp he).1).2 hd
    · exact hrest hrestRegular hd
  | signature e rest hb hrest =>
    rw [allTypesOf_cons, Statement.allTypes_signature hb] at hd
    exact hrest (List.forall_mem_cons.mp h).2 hd
  | vars e rest hrest => exact hrest (List.forall_mem_cons.mp h).2 hd
  | call c rest hrest => exact hrest (List.forall_mem_cons.mp h).2 hd
  | raw r rest hrest => exact hrest (List.forall_mem_cons.mp h).2 hd

/-- The last of what the elements of a list have to give is what one of them gives last, and those
behind it give nothing. -/
theorem exists_last_of_flatMap {α β : Type} {f : α → List β} {as : List α} {b : β}
    (h : (as.flatMap f).getLast? = some b) :
    ∃ before a behind, as = before ++ a :: behind ∧ (f a).getLast? = some b ∧
      ∀ c ∈ behind, f c = [] := by
  induction as using List.reverseRecOn with
  | nil => cases h
  | append_singleton as a ih =>
    rw [List.flatMap_append, List.flatMap_singleton, List.getLast?_append] at h
    cases hlast : (f a).getLast? with
    | some c =>
      rw [hlast] at h
      cases h
      exact ⟨as, a, [], rfl, hlast, fun c hc => by cases hc⟩
    | none =>
      rw [hlast] at h
      obtain ⟨before, c, behind, rfl, hc, hbehind⟩ := ih h
      refine ⟨before, c, behind ++ [a], by simp, hc, ?_⟩
      have ha : f a = [] := List.getLast?_eq_none_iff.mp hlast
      simpa [or_imp, forall_and, ha] using hbehind

end JavaMigration.Source

namespace JavaMigration.Recipe

open Java Source Match Edit

namespace RuleMigration

/-- Where a type closes a variable: in a new method, or in a method that runs after each test.
If that method has no body, nothing is closed. -/
inductive ClosesVariable (m : RuleMigration) (v : Identifier) (visited : TypeDecl) : TypeDecl → Prop
  | bodiless : ClosesVariable m v visited visited
  | newMethod {new : List Statement} {body : Block}
      (hnew : m.newMethod.asMembers? [.identifier v] = some new)
      (hbody : visited.body.ExtendedBy new body) : ClosesVariable m v visited { visited with body }
  | lastMethod {front back new : List Statement} {a : MethodDecl} {old body : Block}
      {throws : Option Throws} (hsplit : visited.body.statements = front ++ .method a :: back)
      (hold : a.body = some old) (hnew : m.closeStatement.asStatements? [.identifier v] = some new)
      (hbody : old.ExtendedBy new body) :
      ClosesVariable m v visited { visited with
        body := { visited.body with
          statements := front ++ .method { a with body := some body, throws } :: back } }

/-- In a unit that was read from source, a type that closes a variable closes the first one of the
last rule declaration of its last member that has any. That member is the declaration itself, a
field, or else it is a method and the declaration that of a local variable. -/
theorem closes_variable_of_last_member (m : RuleMigration) {classpath : Classpath}
    {path source : String} {u : CompilationUnit} (hparse : parse? classpath path source = some u)
    {above : List Node} {d e : TypeDecl} {imports : List String} (hsite : (above, d) ∈ u.sites)
    (hclosed : m.outcome above d = some (.ok (e, imports))) :
    ∃ (before : List Statement) (s : Statement) (behind : List Statement) (rule : VariableDecl)
      (v : Declarator) (more : List Declarator),
      d.body.statements = before ++ s :: behind ∧
      (∀ t ∈ behind, t.ownVars.filter m.isRuleField = []) ∧
      (s.ownVars.filter m.isRuleField).getLast? = some rule ∧ rule.declarators = v :: more ∧
      (s = .vars rule ∨ s.HasLocal rule) ∧
      m.ClosesVariable v.name (m.visitedType above d) e ∧ (m.rewriteType above d).get d = e := by
  have hregular : d.Regular := by
    have hd : d ∈ allTypesOf u.types :=
      map_sitesOf u.types [.unit u] ▸ List.mem_map_of_mem (f := Prod.snd) hsite
    exact regular_of_mem_allTypesOf (allRegular_iff.mp (regular_of_parse? hparse).types) hd
  obtain ⟨hnone, -⟩ | ⟨fault, hfault, -⟩ | ⟨name, _, _, hsame, hname, hclose, hget⟩ :=
    m.rewriteType_cases above d
  · rw [hclosed] at hnone
    cases hnone
  · rw [hclosed] at hfault
    cases hfault
  · cases hclosed.symm.trans hsame
    obtain ⟨-, hnone⟩ | ⟨rule, v, more, hlast, hdeclarators, hfound⟩ := m.fieldFound_cases hregular
    · cases hname.symm.trans hnone
    · cases hname.symm.trans hfound
      rw [TypeDecl.ownVars, List.filter_flatMap] at hlast
      obtain ⟨before, s, behind, hsplit, hrule, hbehind⟩ := exists_last_of_flatMap hlast
      have hmem : rule ∈ s.ownVars := List.mem_of_mem_filter (List.mem_of_getLast? hrule)
      refine ⟨before, s, behind, rule, v, more, hsplit, hbehind, hrule, hdeclarators,
        Statement.eq_or_hasLocal hmem, ?_, hget⟩
      obtain ⟨rfl, -⟩ | ⟨new, body, hnew, hbody, -, -, rfl⟩ |
        ⟨front, a, back, old, new, body, throws, hsplit, hold, hnew, hbody, -, -, rfl⟩ :=
        closeField_ok (by rw [Cursor.path_ofPath]; rfl) hclose
      · exact .bodiless
      · exact .newMethod hnew hbody
      · exact .lastMethod hsplit hold hnew hbody

/-! ## A local variable -/

/-- The calls on a name in the body of a method, with the names that are called. -/
def callsIn : Statement → List (String × String)
  | .method a => ((a.body.map (·.statements)).getD []).filterMap fun
    | .call { receiver := some (.name v), name, .. } => some (v.name, name.name)
    | _ => none
  | _ => []

/-- A class without fields, one of whose methods has a local variable with the rule annotation. -/
def localSource : String :=
  "class A \x7b void m() \x7b @org.junit.Rule okhttp3.mockwebserver.MockWebServer s; \x7d \x7d"

/-- Whether a class closes something, and has a call on the name of its local variable and no field
when it has been migrated. -/
def closesLocal (m : RuleMigration) (u : CompilationUnit) : Bool :=
  (u.sites.any fun site =>
    match m.outcome site.1 site.2 with
    | some (.ok _) => true
    | _ => false) &&
  (m.run u).2.isEmpty &&
  match ((m.run u).1.get u).types with
  | [.type d] =>
    d.body.statements.all (!·.isVariables) &&
      d.body.statements.flatMap callsIn == [("s", "close")]
  | _ => false

set_option maxRecDepth 100000 in
theorem passes_local : passes {} localSource closesLocal :=
  ordinary_default.passes (by decide +kernel)

theorem closing_type_has_last_member :
    ∃ (m : RuleMigration) (u : CompilationUnit) (above : List Node) (d e : TypeDecl)
      (imports : List String),
      ofConfig {} = .ok m ∧ parse? {} "A.java" localSource = some u ∧ (above, d) ∈ u.sites ∧
      m.outcome above d = some (.ok (e, imports)) ∧
      ∃ (before : List Statement) (s : Statement) (behind : List Statement) (rule : VariableDecl)
        (v : Declarator) (more : List Declarator),
        d.body.statements = before ++ s :: behind ∧
        (∀ t ∈ behind, t.ownVars.filter m.isRuleField = []) ∧
        (s.ownVars.filter m.isRuleField).getLast? = some rule ∧ rule.declarators = v :: more ∧
        (s = .vars rule ∨ s.HasLocal rule) ∧
        m.ClosesVariable v.name (m.visitedType above d) e ∧ (m.rewriteType above d).get d = e := by
  obtain ⟨m, u, hm, hu, hcloses⟩ := exists_of_passes passes_local
  unfold closesLocal at hcloses
  rw [Bool.and_assoc, Bool.and_eq_true_iff, List.any_eq_true] at hcloses
  obtain ⟨⟨⟨above, d⟩, hsite, hclosed⟩, -⟩ := hcloses
  split at hclosed
  · next e imports houtcome =>
    exact ⟨m, u, above, d, _, _, hm, hu, hsite, houtcome,
      m.closes_variable_of_last_member hu hsite houtcome⟩
  · cases hclosed

/-- With the defaults, a class without fields gets a method that closes a local variable of another
method. -/
theorem local_variable_is_closed :
    ∃ (m : RuleMigration) (u : CompilationUnit) (d : TypeDecl),
      ofConfig {} = .ok m ∧ parse? {} "A.java" localSource = some u ∧ (m.run u).2 = [] ∧
      ((m.run u).1.get u).types = [.type d] ∧ (∀ s ∈ d.body.statements, s.isVariables = false) ∧
      d.body.statements.flatMap callsIn = [("s", "close")] := by
  obtain ⟨m, u, hm, hu, hcloses⟩ := exists_of_passes passes_local
  unfold closesLocal at hcloses
  rw [Bool.and_eq_true_iff, Bool.and_eq_true_iff, List.isEmpty_iff] at hcloses
  obtain ⟨⟨-, hreports⟩, hclass⟩ := hcloses
  split at hclass
  · next d hd =>
    rw [Bool.and_eq_true_iff, List.all_eq_true, beq_iff_eq] at hclass
    obtain ⟨hfields, hcalls⟩ := hclass
    exact ⟨m, u, d, hm, hu, hreports, hd, fun s hs => by simpa using hfields s hs, hcalls⟩
  · cases hclass

end RuleMigration

end JavaMigration.Recipe
