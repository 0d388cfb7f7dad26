import Mathlib.Data.List.Induction
import JavaMigration.Proofs.Recipe.Meaning
import JavaMigration.Proofs.Source.Declared
import JavaMigration.Proofs.Source.Regular

/-!
# The findings of a type

In its mailbox a type finds the latest field and the latest method. In a regular tree these are
the last rule field among its own declarations (`fieldFound_findingsInBlock`) and the last after
method among its members (`methodFound_findingsInBlock`).
-/

namespace JavaMigration.Source

/-- The variables a member of a type declares in the body of the type or in its own. -/
def Statement.ownVars : Statement → List VariableDecl
  | .vars d => [d]
  | .method ⟨_, _, _, _, _, _, _, _, some body, _⟩ =>
    body.statements.filterMap fun
      | .vars d => some d
      | _ => none
  | _ => []

/-- The variables declared in the body of a type and in the bodies of its methods, but not in
types inside. -/
def TypeDecl.ownVars (d : TypeDecl) : List VariableDecl := d.body.statements.flatMap Statement.ownVars

end JavaMigration.Source

namespace JavaMigration.Recipe

open Java Source Match

namespace RuleMigration

/-! ## Messages and their keys -/

def fields (found : List (String × Finding)) : List Identifier := found.filterMap (·.2.field?)

def afterMethods (found : List (String × Finding)) : List StatementId :=
  found.filterMap (·.2.afterMethod?)

/-- Every message is under the key of its kind. -/
def Tagged (found : List (String × Finding)) : Prop :=
  ∀ f ∈ found, (∃ i, f = (fieldKey, .field i)) ∨ ∃ id, f = (afterMethodKey, .afterMethod id)

theorem Tagged.append {found more : List (String × Finding)} (h : Tagged found)
    (hmore : Tagged more) : Tagged (found ++ more) := fun f hf =>
  (List.mem_append.mp hf).elim (h f) (hmore f)

theorem fieldFound_append (found more : List (String × Finding)) (h : Tagged more) :
    fieldFound (found ++ more) = (fieldFound more).or (fieldFound found) := by
  unfold fieldFound
  rw [latest_append]
  cases hlast : latest fieldKey more with
  | none => rfl
  | some f =>
    unfold latest at hlast
    obtain ⟨⟨key, g⟩, hg, rfl⟩ := Option.map_eq_some_iff.mp hlast
    obtain ⟨hmem, hkey⟩ := List.mem_filter.mp (List.mem_of_getLast? hg)
    obtain ⟨i, hi⟩ | ⟨id, hid⟩ := h _ hmem
    · cases hi; rfl
    · cases hid; cases hkey

theorem methodFound_append (found more : List (String × Finding)) (h : Tagged more) :
    methodFound (found ++ more) = (methodFound more).or (methodFound found) := by
  unfold methodFound
  rw [latest_append]
  cases hlast : latest afterMethodKey more with
  | none => rfl
  | some f =>
    unfold latest at hlast
    obtain ⟨⟨key, g⟩, hg, rfl⟩ := Option.map_eq_some_iff.mp hlast
    obtain ⟨hmem, hkey⟩ := List.mem_filter.mp (List.mem_of_getLast? hg)
    obtain ⟨i, hi⟩ | ⟨id, hid⟩ := h _ hmem
    · cases hi; cases hkey
    · cases hid; rfl

theorem Tagged.fieldFound_eq {found : List (String × Finding)} (h : Tagged found) :
    fieldFound found = (fields found).getLast? := by
  induction found using List.reverseRecOn with
  | nil => rfl
  | append_singleton found f ih =>
    have hlast : Tagged [f] := fun g hg => h g (List.mem_append_right _ hg)
    have hinit : Tagged found := fun g hg => h g (List.mem_append_left _ hg)
    rw [fieldFound_append _ _ hlast, ih hinit]
    unfold fields
    rw [List.filterMap_append, List.getLast?_append]
    obtain ⟨i, rfl⟩ | ⟨id, rfl⟩ := hlast f List.mem_cons_self <;> rfl

theorem Tagged.methodFound_eq {found : List (String × Finding)} (h : Tagged found) :
    methodFound found = (afterMethods found).getLast? := by
  induction found using List.reverseRecOn with
  | nil => rfl
  | append_singleton found f ih =>
    have hlast : Tagged [f] := fun g hg => h g (List.mem_append_right _ hg)
    have hinit : Tagged found := fun g hg => h g (List.mem_append_left _ hg)
    rw [methodFound_append _ _ hlast, ih hinit]
    unfold afterMethods
    rw [List.filterMap_append, List.getLast?_append]
    obtain ⟨i, rfl⟩ | ⟨id, rfl⟩ := hlast f List.mem_cons_self <;> rfl

variable (m : RuleMigration)

theorem tagged_fieldFindings (d : VariableDecl) : Tagged (m.fieldFindings d) := by
  intro f hf
  unfold fieldFindings at hf
  split at hf
  · obtain ⟨v, -, rfl⟩ := List.mem_map.mp hf
    exact .inl ⟨v.name, rfl⟩
  · cases hf

theorem tagged_methodFinding (d : MethodDecl) : Tagged (m.methodFinding d) := by
  intro f hf
  unfold methodFinding at hf
  split at hf
  · exact .inr ⟨d.id, List.mem_singleton.mp hf⟩
  · cases hf

mutual

theorem tagged_findings (m : RuleMigration) : ∀ s : Statement, Tagged (m.findings s)
  | .type _ => nofun
  | .method d => tagged_findingsInMethod m d
  | .vars d => m.tagged_fieldFindings d
  | .call _ => nofun
  | .raw _ => nofun

theorem tagged_findingsInMethod (m : RuleMigration) :
    ∀ d : MethodDecl, Tagged (m.findingsInMethod d)
  | ⟨_, _, _, _, _, _, _, _, none, _⟩ => m.tagged_methodFinding _
  | ⟨_, _, _, _, _, _, _, _, some body, _⟩ =>
    (tagged_findingsInBlock m body).append (m.tagged_methodFinding _)

theorem tagged_findingsInBlock (m : RuleMigration) : ∀ b : Block, Tagged (m.findingsInBlock b)
  | ⟨_, statements, _⟩ => tagged_allFindings m statements

theorem tagged_allFindings (m : RuleMigration) : ∀ ss : List Statement, Tagged (m.allFindings ss)
  | [] => nofun
  | s :: rest => (tagged_findings m s).append (tagged_allFindings m rest)

end

/-! ## What a type finds -/

theorem findingsInMethod_of_some {d : MethodDecl} {b : Block} (h : d.body = some b) :
    m.findingsInMethod d = m.allFindings b.statements ++ m.methodFinding d := by
  cases d; subst h; cases b; rfl

theorem findingsInMethod_of_none {d : MethodDecl} (h : d.body = none) :
    m.findingsInMethod d = m.methodFinding d := by
  cases d; subst h; rfl

theorem findingsInBlock_eq (b : Block) : m.findingsInBlock b = m.allFindings b.statements := by
  cases b; rfl

/-- The name a rule field is closed under. -/
def closedName (d : VariableDecl) : Option Identifier := d.declarators.head?.map (·.name)

theorem fields_fieldFindings (d : VariableDecl) :
    fields (m.fieldFindings d) = ([d].filter m.isRuleField).filterMap closedName := by
  unfold fieldFindings closedName
  by_cases h : m.isRuleField d
  · rw [if_pos h, List.filter_cons_of_pos h, List.filter_nil]
    cases hd : d.declarators.head? <;> simp [fields, hd, Finding.field?]
  · rw [if_neg h, List.filter_cons_of_neg h, List.filter_nil]
    rfl

theorem fields_methodFinding (d : MethodDecl) : fields (m.methodFinding d) = [] := by
  unfold methodFinding
  split <;> rfl

theorem afterMethods_fieldFindings (d : VariableDecl) : afterMethods (m.fieldFindings d) = [] := by
  unfold fieldFindings afterMethods
  split
  · cases d.declarators.head? <;> rfl
  · rfl

theorem fields_append (found more : List (String × Finding)) :
    fields (found ++ more) = fields found ++ fields more := List.filterMap_append

theorem afterMethods_append (found more : List (String × Finding)) :
    afterMethods (found ++ more) = afterMethods found ++ afterMethods more := List.filterMap_append

/-- A field that is found is a name in a rule field, at whatever depth. -/
theorem mem_fields_allFindings {m : RuleMigration} {ss : List Statement} {field : Identifier}
    (h : field ∈ fields (m.allFindings ss)) :
    ∃ d ∈ allVarsOf ss, m.isRuleField d ∧ ∃ v ∈ d.declarators, v.name = field := by
  induction ss using statements_induction with
  | nil => cases h
  | type d rest hbody hrest =>
    obtain ⟨f, hf, hv⟩ := hrest h
    exact ⟨f, List.mem_append_right _ hf, hv⟩
  | method d b rest hb hbody hrest =>
    have hfindings : m.findings (.method d) = m.findingsInMethod d := rfl
    rw [allFindings_cons, hfindings, m.findingsInMethod_of_some hb, fields_append, fields_append,
      fields_methodFinding, List.append_nil] at h
    rw [allVarsOf_cons, Statement.allVars_method hb]
    rcases List.mem_append.mp h with h | h
    · obtain ⟨f, hf, hv⟩ := hbody h
      exact ⟨f, List.mem_append_left _ hf, hv⟩
    · obtain ⟨f, hf, hv⟩ := hrest h
      exact ⟨f, List.mem_append_right _ hf, hv⟩
  | signature d rest hb hrest =>
    have hfindings : m.findings (.method d) = m.findingsInMethod d := rfl
    rw [allFindings_cons, hfindings, m.findingsInMethod_of_none hb, fields_append,
      fields_methodFinding, List.nil_append] at h
    obtain ⟨f, hf, hv⟩ := hrest h
    exact ⟨f, List.mem_append_right _ hf, hv⟩
  | vars d rest hrest =>
    rw [allFindings_cons, fields_append] at h
    rcases List.mem_append.mp h with h | h
    · have hclosed : field ∈ ([d].filter m.isRuleField).filterMap closedName :=
        m.fields_fieldFindings d ▸ h
      obtain ⟨f, hf, hname⟩ := List.mem_filterMap.mp hclosed
      obtain ⟨v, hv, rfl⟩ := Option.map_eq_some_iff.mp hname
      obtain ⟨hmem, hrule⟩ := List.mem_filter.mp hf
      rw [List.mem_singleton.mp hmem] at hv hrule
      exact ⟨d, List.mem_cons_self, hrule, v, List.mem_of_mem_head? hv, rfl⟩
    · obtain ⟨f, hf, hv⟩ := hrest h
      exact ⟨f, List.mem_cons_of_mem _ hf, hv⟩
  | call k rest hrest => exact hrest h
  | raw k rest hrest => exact hrest h

/-- The fields found in a statement of a method body are those it declares itself. -/
theorem fields_findings_of_not_method {s : Statement} (h : s.isMethod = false) :
    fields (m.findings s) = (s.ownVars.filter m.isRuleField).filterMap closedName := by
  cases s with
  | type d => rfl
  | method d => cases h
  | vars d => exact m.fields_fieldFindings d
  | call c => rfl
  | raw r => rfl

theorem fields_allFindings {ss : List Statement}
    (h : ∀ s ∈ ss, fields (m.findings s) = (s.ownVars.filter m.isRuleField).filterMap closedName) :
    fields (m.allFindings ss) =
      ((ss.flatMap Statement.ownVars).filter m.isRuleField).filterMap closedName := by
  induction ss with
  | nil => rfl
  | cons s ss ih =>
    obtain ⟨hs, hss⟩ := List.forall_mem_cons.mp h
    rw [allFindings_cons, fields_append, hs, ih hss, List.flatMap_cons, List.filter_append,
      List.filterMap_append]

theorem ownVars_method {d : MethodDecl} {b : Block} (h : d.body = some b)
    (hflat : ∀ s ∈ b.statements, s.isMethod = false) :
    (Statement.method d).ownVars = b.statements.flatMap Statement.ownVars := by
  have hvars : (Statement.method d).ownVars = b.statements.filterMap fun
      | .vars d => some d
      | _ => none := by
    cases d; subst h; rfl
  rw [hvars]
  revert hflat
  generalize b.statements = ss
  intro hflat
  induction ss with
  | nil => rfl
  | cons s ss ih =>
    obtain ⟨hs, hss⟩ := List.forall_mem_cons.mp hflat
    rw [List.flatMap_cons, ← ih hss]
    cases s with
    | method d => cases hs
    | _ => rfl

/-- The fields found in a member of a type are those declared in it, outside types inside. -/
theorem fields_findings {s : Statement} (h : s.Regular) :
    fields (m.findings s) = (s.ownVars.filter m.isRuleField).filterMap closedName := by
  cases s with
  | method d =>
    have hfind : m.findings (.method d) = m.findingsInMethod d := rfl
    rw [hfind]
    cases hb : d.body with
    | none =>
      have hown : (Statement.method d).ownVars = [] := by cases d; subst hb; rfl
      rw [m.findingsInMethod_of_none hb, fields_methodFinding, hown]
      rfl
    | some b =>
      obtain ⟨-, hflat⟩ := (MethodDecl.regular_of_some hb).mp h
      rw [m.findingsInMethod_of_some hb, fields_append, fields_methodFinding, List.append_nil,
        ownVars_method hb hflat]
      exact m.fields_allFindings fun s hs => m.fields_findings_of_not_method (hflat s hs)
  | _ => exact m.fields_findings_of_not_method rfl

/-- A type closes the last rule field among its own declarations. -/
theorem fieldFound_findingsInBlock {d : TypeDecl} (h : d.Regular) :
    fieldFound (m.findingsInBlock d.body) =
      ((d.ownVars.filter m.isRuleField).filterMap closedName).getLast? := by
  obtain ⟨-, hall⟩ := Block.regular_iff.mp (TypeDecl.regular_iff.mp h)
  rw [(m.tagged_findingsInBlock d.body).fieldFound_eq, findingsInBlock_eq,
    m.fields_allFindings fun s hs => m.fields_findings (hall s hs)]
  rfl

theorem declarators_ne_nil {s : Statement} (h : s.Regular) :
    ∀ v ∈ s.ownVars, v.declarators ≠ [] := by
  have hvars : ∀ {ss : List Statement} {v : VariableDecl}, (∀ s ∈ ss, s.Regular) →
      v ∈ ss.filterMap (fun
        | .vars d => some d
        | _ => none) → v.declarators ≠ [] := by
    intro ss v hss hv
    obtain ⟨t, ht, hv⟩ := List.mem_filterMap.mp hv
    cases t with
    | vars d =>
      cases hv
      exact hss _ ht
    | _ => cases hv
  cases s with
  | vars d =>
    intro v hv
    rw [List.mem_singleton.mp hv]
    exact h
  | method d =>
    cases d with
    | mk _ _ _ _ _ _ _ _ body _ =>
      cases body with
      | none => exact nofun
      | some b => exact fun v hv => hvars (Block.regular_iff.mp h.1).2 hv
  | _ => exact nofun

/-- Either a type has no rule fields of its own and finds none, or it finds the first declarator of
the last one. -/
theorem fieldFound_cases {d : TypeDecl} (h : d.Regular) :
    (d.ownVars.filter m.isRuleField = [] ∧ fieldFound (m.findingsInBlock d.body) = none) ∨
      ∃ field v more, (d.ownVars.filter m.isRuleField).getLast? = some field ∧
        field.declarators = v :: more ∧ fieldFound (m.findingsInBlock d.body) = some v.name := by
  rw [m.fieldFound_findingsInBlock h]
  cases hlast : (d.ownVars.filter m.isRuleField).getLast? with
  | none =>
    have hnil := List.getLast?_eq_none_iff.mp hlast
    exact .inl ⟨hnil, by rw [hnil]; rfl⟩
  | some field =>
    obtain ⟨init, hinit⟩ := List.getLast?_eq_some_iff.mp hlast
    have hmem : field ∈ d.ownVars :=
      List.mem_of_mem_filter (hinit ▸ List.mem_append_right _ List.mem_cons_self)
    obtain ⟨s, hs, hown⟩ := List.mem_flatMap.mp hmem
    obtain ⟨-, hall⟩ := Block.regular_iff.mp (TypeDecl.regular_iff.mp h)
    obtain ⟨v, more, hv⟩ := List.exists_cons_of_ne_nil (declarators_ne_nil (hall s hs) field hown)
    have hname : closedName field = some v.name := by
      unfold closedName
      rw [hv]
      rfl
    refine .inr ⟨field, v, more, rfl, hv, ?_⟩
    rw [hinit, List.filterMap_append, List.filterMap_cons_some hname, List.getLast?_append]
    rfl

/-! ## After methods -/

theorem afterMethods_findings_of_not_method {s : Statement} (h : s.isMethod = false) :
    afterMethods (m.findings s) = [] := by
  cases s with
  | method d => cases h
  | vars d => exact m.afterMethods_fieldFindings d
  | _ => rfl

theorem afterMethods_of_not_method {ss : List Statement} (h : ∀ s ∈ ss, s.isMethod = false) :
    afterMethods (m.allFindings ss) = [] := by
  induction ss with
  | nil => rfl
  | cons s ss ih =>
    obtain ⟨hs, hss⟩ := List.forall_mem_cons.mp h
    rw [allFindings_cons, afterMethods_append, m.afterMethods_findings_of_not_method hs, ih hss]
    rfl

/-- Whether a member is a method that runs after each test. -/
def isAfter : Statement → Bool
  | .method d => m.isAfterMethod d
  | _ => false

theorem afterMethods_findings {s : Statement} (h : s.Regular) :
    afterMethods (m.findings s) = ([s].filter m.isAfter).map Statement.id := by
  cases s with
  | method d =>
    have hfind : m.findings (.method d) = m.findingsInMethod d := rfl
    have hbody : afterMethods (m.findingsInMethod d) = afterMethods (m.methodFinding d) := by
      cases hb : d.body with
      | none => rw [m.findingsInMethod_of_none hb]
      | some b =>
        obtain ⟨-, hflat⟩ := (MethodDecl.regular_of_some hb).mp h
        rw [m.findingsInMethod_of_some hb, afterMethods_append, m.afterMethods_of_not_method hflat]
        rfl
    rw [hfind, hbody]
    unfold methodFinding
    by_cases hafter : m.isAfterMethod d
    · rw [if_pos hafter, List.filter_cons_of_pos (show m.isAfter (.method d) from hafter)]
      rfl
    · rw [if_neg hafter, List.filter_cons_of_neg (show ¬m.isAfter (.method d) from hafter)]
      rfl
  | _ => exact m.afterMethods_findings_of_not_method rfl

/-- A type closes its field in the last of its after methods. -/
theorem methodFound_findingsInBlock {d : TypeDecl} (h : d.Regular) :
    methodFound (m.findingsInBlock d.body) =
      ((d.body.statements.filter m.isAfter).map Statement.id).getLast? := by
  obtain ⟨-, hall⟩ := Block.regular_iff.mp (TypeDecl.regular_iff.mp h)
  rw [(m.tagged_findingsInBlock d.body).methodFound_eq, findingsInBlock_eq]
  congr 1
  revert hall
  generalize d.body.statements = ss
  intro hall
  induction ss with
  | nil => rfl
  | cons s ss ih =>
    obtain ⟨hs, hss⟩ := List.forall_mem_cons.mp hall
    rw [allFindings_cons, afterMethods_append, m.afterMethods_findings hs, ih hss,
      ← List.map_append, ← List.filter_append]
    rfl

end RuleMigration

end JavaMigration.Recipe
