import JavaMigration.Proofs.Java.Built
import JavaMigration.Proofs.Recipe.Findings
import JavaMigration.Proofs.Recipe.Outcome

/-!
# Types that cannot be changed

A type in which the field cannot be closed comes back as it was, takes back the import edits of
the types in it and is reported behind them. What is imported in the end was therefore asked for
by types that were changed and stand in no such type, and where there are none the unit is kept.
-/

namespace JavaMigration.Recipe

open Java Source Match Edit

namespace RuleMigration

variable (m : RuleMigration)

/-! ## Types under a failing type -/

/-- Whether one of the types among some nodes fails. -/
def underFailure : List Node → Bool
  | [] => false
  | .type d :: above => (fault? (m.outcome above d)).isSome || underFailure above
  | _ :: above => underFailure above

/-- The types a unit is to import because the field of a type was closed, unless a type around
it fails. -/
def requestAt (site : List Node × TypeDecl) : Option (List String) :=
  if m.underFailure site.1 then none else imports? (m.outcome site.1 site.2)

theorem underFailure_cons {above : List Node} (h : m.underFailure above) (n : Node) :
    m.underFailure (n :: above) := by
  cases n with
  | type d =>
    unfold underFailure
    rw [h, Bool.or_true]
  | _ => exact h

mutual

theorem underFailure_sites (m : RuleMigration) {above : List Node} (h : m.underFailure above) :
    ∀ s : Statement, ∀ site ∈ s.sites above, m.underFailure site.1
  | .type d => underFailure_sitesOfType m h d
  | .method d => underFailure_sitesOfMethod m h d
  | .vars _ => nofun
  | .call _ => nofun
  | .raw _ => nofun

theorem underFailure_sitesOfType (m : RuleMigration) {above : List Node}
    (h : m.underFailure above) : ∀ d : TypeDecl, ∀ site ∈ d.sites above, m.underFailure site.1
  | ⟨id, lead, annotations, modifiers, kind, kindLead, name, header, body, type⟩ => by
    intro site hsite
    rcases List.mem_append.mp hsite with hin | hself
    · exact underFailure_sitesOfBlock m (m.underFailure_cons h _) body site hin
    · rw [List.mem_singleton.mp hself]
      exact h

theorem underFailure_sitesOfMethod (m : RuleMigration) {above : List Node}
    (h : m.underFailure above) : ∀ d : MethodDecl, ∀ site ∈ d.sites above, m.underFailure site.1
  | ⟨_, _, _, _, _, _, _, _, none, _⟩ => nofun
  | ⟨_, _, _, _, _, _, _, _, some body, _⟩ =>
    underFailure_sitesOfBlock m (m.underFailure_cons h _) body

theorem underFailure_sitesOfBlock (m : RuleMigration) {above : List Node}
    (h : m.underFailure above) : ∀ b : Block, ∀ site ∈ b.sites above, m.underFailure site.1
  | ⟨_, statements, _⟩ => underFailure_sitesOf m (m.underFailure_cons h _) statements

theorem underFailure_sitesOf (m : RuleMigration) {above : List Node} (h : m.underFailure above) :
    ∀ ss : List Statement, ∀ site ∈ sitesOf above ss, m.underFailure site.1
  | [] => nofun
  | s :: rest => by
    intro site hsite
    rcases List.mem_append.mp hsite with hs | hrest
    · exact underFailure_sites m h s site hs
    · exact underFailure_sitesOf m h rest site hrest

end

theorem requests_underFailure {sites : List (List Node × TypeDecl)}
    (h : ∀ site ∈ sites, m.underFailure site.1) : sites.filterMap m.requestAt = [] := by
  rw [List.filterMap_eq_nil_iff]
  intro site hsite
  exact if_pos (h site hsite)

mutual

/-- The requests that stand are those of the changed types under no failing type. -/
theorem imports_verdicts (m : RuleMigration) (above : List Node)
    (h : m.underFailure above = false) :
    ∀ s : Statement, (m.verdicts above s).filterMap Verdict.imports? =
      (s.sites above).filterMap m.requestAt
  | .type d => imports_verdictsOnType m above h d
  | .method d => imports_verdictsInMethod m above h d
  | .vars _ => rfl
  | .call _ => rfl
  | .raw _ => rfl

theorem imports_verdictsOnType (m : RuleMigration) (above : List Node)
    (h : m.underFailure above = false) :
    ∀ d : TypeDecl, (m.verdictsOnType above d).filterMap Verdict.imports? =
      (d.sites above).filterMap m.requestAt
  | ⟨id, lead, annotations, modifiers, kind, kindLead, name, header, body, type⟩ => by
    let d : TypeDecl :=
      ⟨id, lead, annotations, modifiers, kind, kindLead, name, header, body, type⟩
    have hsite : [(above, d)].filterMap m.requestAt = (imports? (m.outcome above d)).toList := by
      cases hi : imports? (m.outcome above d) <;> simp [requestAt, h, hi]
    have hunder : m.underFailure (.type d :: above) = (fault? (m.outcome above d)).isSome := by
      rw [underFailure, h, Bool.or_false]
    rw [verdictsOnType_outcome, TypeDecl.sites_eq, List.filterMap_append, hsite]
    cases hout : m.outcome above d with
    | none =>
      rw [hout] at hunder
      rw [withVerdict, imports_verdictsInBlock m _ hunder body]
      exact (List.append_nil _).symm
    | some result =>
      rw [hout] at hunder
      cases result with
      | ok closed =>
        rw [withVerdict, List.filterMap_append, imports_verdictsInBlock m _ hunder body]
        rfl
      | error fault =>
        rw [withVerdict, List.filterMap_append, imports_filter_isFailed,
          m.requests_underFailure (underFailure_sitesOfBlock m hunder body)]
        rfl

theorem imports_verdictsInMethod (m : RuleMigration) (above : List Node)
    (h : m.underFailure above = false) :
    ∀ d : MethodDecl, (m.verdictsInMethod above d).filterMap Verdict.imports? =
      (d.sites above).filterMap m.requestAt
  | ⟨_, _, _, _, _, _, _, _, none, _⟩ => rfl
  | ⟨_, _, _, _, _, _, _, _, some body, _⟩ => imports_verdictsInBlock m (.method _ :: above) h body

theorem imports_verdictsInBlock (m : RuleMigration) (above : List Node)
    (h : m.underFailure above = false) :
    ∀ b : Block, (m.verdictsInBlock above b).filterMap Verdict.imports? =
      (b.sites above).filterMap m.requestAt
  | ⟨_, statements, _⟩ => imports_allVerdicts m (.block _ :: above) h statements

theorem imports_allVerdicts (m : RuleMigration) (above : List Node)
    (h : m.underFailure above = false) :
    ∀ ss : List Statement, (m.allVerdicts above ss).filterMap Verdict.imports? =
      (sitesOf above ss).filterMap m.requestAt
  | [] => rfl
  | s :: rest => by
    rw [allVerdicts_cons, sitesOf, List.filterMap_append, List.filterMap_append,
      imports_verdicts m above h s, imports_allVerdicts m above h rest]

end

/-! ## Nothing closed, nothing changed -/

theorem fields_fieldFindings_ne_nil {d : VariableDecl} (hne : d.declarators ≠ [])
    (h : m.isRuleField d) : fields (m.fieldFindings d) ≠ [] := by
  obtain ⟨v, rest, hv⟩ := List.exists_cons_of_ne_nil hne
  have hname : closedName d = some v.name := by
    unfold closedName
    rw [hv]
    rfl
  rw [fields_fieldFindings, List.filter_cons_of_pos h, List.filterMap_cons_some hname]
  exact List.cons_ne_nil _ _

mutual

/-- A statement in which no type is closed changes only if it declares a rule field of the type
around it. -/
theorem rewrite_kept (m : RuleMigration) (above : List Node)
    (hunder : m.underFailure above = false) :
    ∀ s : Statement, s.Regular → (s.sites above).filterMap m.requestAt = [] →
      m.rewrite above s = .kept ∨ fields (m.findings s) ≠ []
  | .type d, h, hnone => by
    have hkept := rewriteType_kept m above hunder d h hnone
    have hmap : m.rewrite above (.type d) = (m.rewriteType above d).map .type := rfl
    exact .inl (by rw [hmap, hkept]; rfl)
  | .method d, h, hnone => by
    refine (rewriteMethod_kept m above hunder d h hnone).imp (fun hkept => ?_) id
    have hmap : m.rewrite above (.method d) = (m.rewriteMethod above d).map .method := rfl
    rw [hmap, hkept]
    rfl
  | .vars d, h, _ => by
    have hmap : m.rewrite above (.vars d) = (m.rewriteVars d).map .vars := rfl
    by_cases hrule : m.isRuleField d
    · exact .inr (m.fields_fieldFindings_ne_nil h hrule)
    · rw [hmap, rewriteVars, if_neg hrule]
      exact .inl rfl
  | .call _, _, _ => .inl rfl
  | .raw _, _, _ => .inl rfl

theorem rewriteType_kept (m : RuleMigration) (above : List Node)
    (hunder : m.underFailure above = false) :
    ∀ d : TypeDecl, d.Regular → (d.sites above).filterMap m.requestAt = [] →
      m.rewriteType above d = .kept
  | ⟨id, lead, annotations, modifiers, kind, kindLead, name, header, body, type⟩, h, hnone => by
    let d : TypeDecl :=
      ⟨id, lead, annotations, modifiers, kind, kindLead, name, header, body, type⟩
    rw [TypeDecl.sites_eq, List.filterMap_append, List.append_eq_nil_iff] at hnone
    obtain ⟨hbody, hself⟩ := hnone
    rw [rewriteType_outcome]
    cases hout : m.outcome above d with
    | none =>
      have hin : m.underFailure (.type d :: above) = false := by
        rw [underFailure, hout, hunder]
        rfl
      obtain hkept | hfields := rewriteBlock_kept m _ hin body h hbody
      · rw [show m.rewriteBlock (.type d :: above) d.body = .kept from hkept]
        rfl
      · rw [outcome_eq, closing, Option.map_eq_none_iff,
          (m.tagged_findingsInBlock _).fieldFound_eq, List.getLast?_eq_none_iff] at hout
        exact absurd hout hfields
    | some result =>
      cases result with
      | ok closed =>
        have hrequest : m.requestAt (above, d) = some closed.2 := by
          unfold requestAt
          rw [hunder, hout]
          rfl
        rw [List.filterMap_cons_some hrequest] at hself
        exact absurd hself (List.cons_ne_nil _ _)
      | error fault => rfl

theorem rewriteMethod_kept (m : RuleMigration) (above : List Node)
    (hunder : m.underFailure above = false) :
    ∀ d : MethodDecl, d.Regular → (d.sites above).filterMap m.requestAt = [] →
      m.rewriteMethod above d = .kept ∨ fields (m.findingsInMethod d) ≠ []
  | ⟨_, _, _, _, _, _, _, _, none, _⟩, _, _ => .inl rfl
  | ⟨id, lead, annotations, modifiers, returnType, name, parameters, throws, some body, close⟩,
      h, hnone => by
    let d : MethodDecl :=
      ⟨id, lead, annotations, modifiers, returnType, name, parameters, throws, some body, close⟩
    obtain hkept | hfields := rewriteBlock_kept m (.method d :: above) hunder body h.1 hnone
    · rw [m.rewriteMethod_eq above (d := d) rfl, hkept]
      exact .inl rfl
    · rw [m.findingsInMethod_of_some (d := d) rfl, fields_append]
      rw [findingsInBlock_eq] at hfields
      exact .inr (List.append_ne_nil_of_left_ne_nil hfields _)

theorem rewriteBlock_kept (m : RuleMigration) (above : List Node)
    (hunder : m.underFailure above = false) :
    ∀ b : Block, b.Regular → (b.sites above).filterMap m.requestAt = [] →
      m.rewriteBlock above b = .kept ∨ fields (m.findingsInBlock b) ≠ []
  | ⟨lead, statements, close⟩, h, hnone => by
    let b : Block := ⟨lead, statements, close⟩
    obtain hkept | hfields := rewriteAll_kept m (.block b :: above) hunder statements h.2
      hnone
    · rw [m.rewriteBlock_eq above b, hkept]
      exact .inl rfl
    · exact .inr hfields

theorem rewriteAll_kept (m : RuleMigration) (above : List Node)
    (hunder : m.underFailure above = false) :
    ∀ ss : List Statement, AllRegular ss → (sitesOf above ss).filterMap m.requestAt = [] →
      m.rewriteAll above ss = .kept ∨ fields (m.allFindings ss) ≠ []
  | [], _, _ => .inl rfl
  | s :: rest, h, hnone => by
    rw [sitesOf, List.filterMap_append, List.append_eq_nil_iff] at hnone
    rw [allFindings_cons, fields_append]
    obtain hs | hs := rewrite_kept m above hunder s h.1 hnone.1
    · obtain hrest | hrest := rewriteAll_kept m above hunder rest h.2 hnone.2
      · rw [rewriteAll_cons, hs, hrest]
        exact .inl rfl
      · exact .inr (List.append_ne_nil_of_right_ne_nil _ hrest)
    · exact .inr (List.append_ne_nil_of_left_ne_nil hs _)

end

/-! ## Failing types in a run -/

theorem imports_progress (u : CompilationUnit) :
    (m.progress u).imports = (u.sites.filterMap m.requestAt).foldl m.request {} := by
  have hunder : m.underFailure [.unit u] = false := rfl
  unfold progress CompilationUnit.sites
  rw [record_eq, imports_allVerdicts m _ hunder]

/-- A class with one rule field. -/
def fieldSource : String := "class A \x7b @a.R b.S s; \x7d"

end RuleMigration

end JavaMigration.Recipe
