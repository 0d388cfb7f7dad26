import JavaMigration.Proofs.Recipe.Settled

/-!
# What a migration leaves behind

Everything that a migration makes of a tree is settled, and the types that fail in it are the ones
that failed before (`settled_rewriteAll`): a type that was changed has lost its rule fields, and
what was generated in it declares no annotated variable. Migrating the result therefore changes
nothing and reports the same again (`migrate_again`).
-/

namespace JavaMigration.Recipe

open Java Source Match Edit

namespace RuleMigration

/-- The code that a recipe generates declares no variable with an annotation. -/
structure GeneratesPlain (m : RuleMigration) : Prop where
  members : ∀ {field : Identifier} {new : List Statement},
    m.newMethod.asMembers? [.identifier field] = some new → Unannotated new
  statements : ∀ {field : Identifier} {new : List Statement},
    m.closeStatement.asStatements? [.identifier field] = some new → Unannotated new

variable {m : RuleMigration} (path : String)

/-! ## Edits of settled code -/

theorem settled_withLead_iff {s : Statement} {lead : Space} :
    m.Settled (s.withLead lead) ↔ m.Settled s := by
  cases s with
  | type d =>
    have hfailure : m.failure? { d with lead } = m.failure? d := rfl
    show m.Settled (.type { d with lead }) ↔ _
    rw [settled_type_iff, settled_type_iff, hfailure]
  | method d => cases d; rfl
  | vars d => rfl
  | call c => rfl
  | raw r => rfl

theorem reports_withLead (s : Statement) (lead : Space) :
    m.reports path [s.withLead lead] = m.reports path [s] := by
  cases s with
  | type d =>
    show m.reports path [.type { d with lead }] = _
    rw [reports_type, reports_type]
    rfl
  | method d => cases d; rfl
  | vars d => rfl
  | call c => rfl
  | raw r => rfl

theorem settled_shifted {ss ts : List Statement} (hshifted : Shifted ss ts)
    (h : m.AllSettled ss) : m.AllSettled ts ∧ m.reports path ts = m.reports path ss := by
  cases ss with
  | nil =>
    cases hshifted
    exact ⟨h, rfl⟩
  | cons s rest =>
    obtain ⟨lead, -, rfl⟩ := hshifted
    rw [reports_cons, reports_cons m path s rest, reports_withLead]
    exact ⟨⟨settled_withLead_iff.mpr h.1, h.2⟩, rfl⟩

/-- Code without annotated variables may be added to a block. -/
theorem settled_extendedBy {before after : Block} {new : List Statement}
    (hafter : before.ExtendedBy new after) (hnew : Unannotated new)
    (h : m.AllSettled before.statements) :
    m.AllSettled after.statements ∧
      m.reports path after.statements = m.reports path before.statements := by
  obtain ⟨added, close, rfl, hbare, -, -⟩ := hafter
  have hquiet : m.Quiet added := .of_unannotated (hnew.of_bare_eq hbare)
  constructor
  · exact allSettled_append_iff.mpr ⟨h, (quiet_iff.mp hquiet).1⟩
  · show m.reports path (before.statements ++ added) = _
    rw [reports_append, hquiet.reports_eq, List.append_nil]

/-- Closing a field in a type whose members are settled leaves them settled. -/
theorem settled_closeField {μ : Type} {d e : TypeDecl} {field : Identifier}
    {method : Option StatementId} {cursor : Cursor μ} {imports : List String}
    (hplain : m.GeneratesPlain) (hcursor : cursor.path.head? = some (.type d))
    (hclose : m.closeField d field method cursor = .ok (e, imports))
    (h : m.AllSettled d.body.statements) :
    m.AllSettled e.body.statements ∧
      m.reports path e.body.statements = m.reports path d.body.statements := by
  obtain ⟨rfl, -⟩ | ⟨new, body, hnew, hbody, -, -, rfl⟩ |
    ⟨front, a, back, old, new, body, throws, hsplit, hold, hnew, hbody, -, -, rfl⟩ :=
      closeField_ok hcursor hclose
  · exact ⟨h, rfl⟩
  · exact settled_extendedBy path hbody (hplain.members hnew) h
  · rw [hsplit] at h ⊢
    obtain ⟨hfront, ha, hback⟩ := allSettled_append_iff.mp h
    obtain ⟨hsettled, hreports⟩ := settled_extendedBy path hbody
      (hplain.statements hnew) ((settled_method_iff hold).mp ha)
    have hclosed : m.Settled (.method { a with body := some body, throws }) :=
      (settled_method_iff rfl).mpr hsettled
    refine ⟨allSettled_append_iff.mpr ⟨hfront, hclosed, hback⟩, ?_⟩
    rw [reports_append, reports_append, reports_cons, reports_cons m path (.method a),
      reports_method m path (b := body) rfl, hreports, reports_method m path hold]

/-! ## The result of a migration -/

theorem get_rewriteAll_cons (above : List Node) (s : Statement) (rest : List Statement) :
    (m.rewriteAll above (s :: rest)).get (s :: rest) =
      (m.rewrite above s).get s :: (m.rewriteAll above rest).get rest := by
  rw [get_rewriteAll, get_rewriteAll, List.map_cons]

theorem get_rewrite_method {above : List Node} {d : MethodDecl} {b : Block} (h : d.body = some b) :
    (m.rewrite above (.method d)).get (.method d) =
      .method { d with body := some ((m.rewriteBlock (.method d :: above) b).get b) } := by
  rw [show m.rewrite above (.method d) = (m.rewriteMethod above d).map .method from rfl,
    m.rewriteMethod_eq above h]
  cases m.rewriteBlock (.method d :: above) b with
  | kept =>
    cases d
    cases h
    rfl
  | replaced new => rfl

theorem get_rewrite_signature {above : List Node} {d : MethodDecl} (h : d.body = none) :
    (m.rewrite above (.method d)).get (.method d) = .method d := by
  cases d; subst h; rfl

theorem report?_eq_none {d : TypeDecl} (h : m.failure? d = none) : m.report? path d = none := by
  rw [report?, h]
  rfl

/-- A type whose members are settled is settled and reports what they report. -/
theorem settled_type_of_members {d : TypeDecl} (h : m.AllSettled d.body.statements) :
    m.Settled (.type d) ∧ m.reports path [.type d] = m.reports path d.body.statements := by
  refine ⟨settled_type_iff.mpr (.inr h), ?_⟩
  rw [reports_type, report?_eq_none path h.failure?_eq]
  exact List.append_nil _

theorem settled_rewriteType (hplain : m.GeneratesPlain) {above : List Node} {d : TypeDecl}
    (hmembers : m.AllSettled (m.visitedType above d).body.statements)
    (hreports : m.reports path (m.visitedType above d).body.statements =
      m.reports path d.body.statements) :
    m.Settled (.type ((m.rewriteType above d).get d)) ∧
      m.reports path [.type ((m.rewriteType above d).get d)] = m.reports path [.type d] := by
  have hfailure := m.fault?_outcome above d
  rw [reports_type m path d]
  obtain ⟨hout, hget⟩ | ⟨fault, hout, hget⟩ | ⟨field, imports, e, hout, -, hclose, hget⟩ :=
    m.rewriteType_cases above d
  · rw [hout] at hfailure
    obtain ⟨hsettled, hsame⟩ := settled_type_of_members path hmembers
    rw [hget, hsame, hreports, report?_eq_none path hfailure.symm]
    exact ⟨hsettled, (List.append_nil _).symm⟩
  · rw [hout] at hfailure
    rw [hget, Revision.get, reports_type]
    refine ⟨settled_type_iff.mpr (.inl ?_), rfl⟩
    rw [← hfailure]
    rfl
  · rw [hout] at hfailure
    obtain ⟨hclosed, hsame⟩ := settled_closeField path hplain
      (by rw [Cursor.path_ofPath]; rfl) hclose hmembers
    obtain ⟨hsettled, htype⟩ := settled_type_of_members path hclosed
    rw [hget, htype, hsame, hreports, report?_eq_none path hfailure.symm]
    exact ⟨hsettled, (List.append_nil _).symm⟩

/-- Taking annotations off a variable changes what stands before its type, and nothing else. -/
theorem unmarked_eq (d : VariableDecl) :
    ∃ annotations modifiers lead,
      m.unmarked d = { d with annotations, modifiers, type := { d.type with lead } } := by
  unfold unmarked VariableDecl.retainAnnotations VariableDecl.clearFirst
  extract_lets kept
  split
  · split <;> exact ⟨_, _, _, rfl⟩
  · exact ⟨_, _, _, rfl⟩

/-- Clearing a space leaves the names of the annotations. -/
theorem mem_clearFirst {d : VariableDecl} {a : Annotation} (h : a ∈ d.clearFirst.annotations) :
    ∃ b ∈ d.annotations, a.name = b.name := by
  unfold VariableDecl.clearFirst at h
  split at h
  · next b rest heq =>
    rcases List.mem_cons.mp h with rfl | h
    · exact ⟨b, by simp [heq], rfl⟩
    · exact ⟨a, by simp [heq, h], rfl⟩
  · exact ⟨a, h, rfl⟩
  · exact ⟨a, h, rfl⟩

theorem isRuleField_unmarked (d : VariableDecl) : m.isRuleField (m.unmarked d) = false := by
  have hkept : ∀ a ∈ (m.unmarked d).annotations, m.rule.matchesAnnotation a = false := by
    intro a ha
    unfold unmarked VariableDecl.retainAnnotations at ha
    extract_lets kept at ha
    obtain ⟨b, hb, hname⟩ : ∃ b ∈ kept.annotations, a.name = b.name := by
      split at ha
      · exact mem_clearFirst ha
      · exact ⟨a, ha, rfl⟩
    have hmatches : m.rule.matchesAnnotation b = false := by simpa using List.of_mem_filter hb
    rw [← hmatches, AnnotationPattern.matchesAnnotation, AnnotationPattern.matchesAnnotation, hname]
  rw [isRuleField, Bool.and_eq_false_iff, List.any_eq_false]
  exact .inr fun a ha => by simp [hkept a ha]

/-- What a migration makes of some statements is settled, and the types that fail in it are those
that failed before. -/
theorem settled_rewriteAll (hplain : m.GeneratesPlain) (ss : List Statement) (above : List Node) :
    m.AllSettled ((m.rewriteAll above ss).get ss) ∧
      m.reports path ((m.rewriteAll above ss).get ss) = m.reports path ss := by
  induction ss using statements_induction generalizing above with
  | nil => exact ⟨trivial, rfl⟩
  | type d rest hbody hrest =>
    obtain ⟨hsettled, hreports⟩ := hrest above
    have hmembers := hbody (.block d.body :: .type d :: above)
    rw [← statements_rewriteBlock] at hmembers
    obtain ⟨hd, hsame⟩ := settled_rewriteType path hplain hmembers.1 hmembers.2
    have hget : (m.rewrite above (.type d)).get (.type d) = .type ((m.rewriteType above d).get d) :=
      Revision.get_map
    rw [get_rewriteAll_cons, hget, reports_cons, hsame, hreports, ← reports_cons]
    exact ⟨⟨hd, hsettled⟩, rfl⟩
  | method d b rest hb hbody hrest =>
    obtain ⟨hsettled, hreports⟩ := hrest above
    obtain ⟨hd, hsame⟩ := hbody (.block b :: .method d :: above)
    rw [← statements_rewriteBlock] at hd hsame
    rw [get_rewriteAll_cons, get_rewrite_method hb, reports_cons, reports_method m path rfl, hsame,
      hreports, ← reports_method m path hb, ← reports_cons]
    exact ⟨⟨(settled_method_iff rfl).mpr hd, hsettled⟩, rfl⟩
  | signature d rest hb hrest =>
    obtain ⟨hsettled, hreports⟩ := hrest above
    rw [get_rewriteAll_cons, get_rewrite_signature hb, reports_cons, hreports, ← reports_cons]
    exact ⟨⟨settled_signature hb, hsettled⟩, rfl⟩
  | vars d rest hrest =>
    obtain ⟨hsettled, hreports⟩ := hrest above
    have hget : (m.rewrite above (.vars d)).get (.vars d) = .vars ((m.rewriteVars d).get d) :=
      Revision.get_map
    have hd : m.isRuleField ((m.rewriteVars d).get d) = false := by
      unfold rewriteVars
      by_cases h : m.isRuleField d
      · rw [if_pos h]
        exact isRuleField_unmarked d
      · rw [if_neg h]
        exact Bool.eq_false_iff.mpr h
    rw [get_rewriteAll_cons, hget]
    exact ⟨⟨hd, hsettled⟩, hreports⟩
  | call c rest hrest =>
    rw [get_rewriteAll_cons]
    exact ⟨⟨trivial, (hrest above).1⟩, (hrest above).2⟩
  | raw r rest hrest =>
    rw [get_rewriteAll_cons]
    exact ⟨⟨trivial, (hrest above).1⟩, (hrest above).2⟩

/-! ## A second migration -/

theorem types_rewriteUnit (u : CompilationUnit) :
    ((m.rewriteUnit u).get u).types = (m.rewriteAll [.unit u] u.types).get u.types := by
  unfold rewriteUnit
  cases m.rewriteAll [.unit u] u.types <;> rfl

theorem sameFrame_rewriteUnit (u : CompilationUnit) : u.SameFrame ((m.rewriteUnit u).get u) := by
  unfold rewriteUnit
  cases m.rewriteAll [.unit u] u.types <;> rfl

/-- A migration changes the imports and the types of a unit, and its import edits leave the types as
they are, line breaks apart. -/
theorem shifted_migrate (u : CompilationUnit) :
    Shifted ((m.rewriteAll [.unit u] u.types).get u.types) ((m.migrate u).1.get u).types ∧
      u.SameFrame ((m.migrate u).1.get u) := by
  have hshifted := shifted_apply (m.progress u).imports ((m.rewriteUnit u).get u)
  have hframe := (sameFrame_rewriteUnit u).trans
    (sameFrame_apply (m.progress u).imports ((m.rewriteUnit u).get u))
  rw [types_rewriteUnit] at hshifted
  rw [migrate_eq]
  cases happly : (m.progress u).imports.apply ((m.rewriteUnit u).get u) with
  | kept =>
    refine ⟨?_, sameFrame_rewriteUnit u⟩
    rw [← types_rewriteUnit]
    exact Shifted.refl _
  | replaced new =>
    rw [happly] at hshifted hframe
    exact ⟨hshifted, hframe⟩

theorem settled_migrate (hplain : m.GeneratesPlain) (u : CompilationUnit) :
    m.AllSettled ((m.migrate u).1.get u).types ∧
      m.reports u.path ((m.migrate u).1.get u).types = (m.migrate u).2 := by
  obtain ⟨hsettled, hreports⟩ := settled_rewriteAll u.path hplain u.types [.unit u]
  obtain ⟨hagain, hsame⟩ := settled_shifted u.path (m.shifted_migrate u).1 hsettled
  refine ⟨hagain, ?_⟩
  rw [hsame, hreports, migrate_eq, diagnostics_eq_reports]

/-- Migrating the result of a migration keeps it and reports the same types again. -/
theorem migrate_again (hplain : m.GeneratesPlain) (u : CompilationUnit) :
    m.migrate ((m.migrate u).1.get u) = (.kept, (m.migrate u).2) := by
  obtain ⟨hsettled, hreports⟩ := settled_migrate hplain u
  rw [migrate_of_allSettled hsettled, (m.shifted_migrate u).2.path_eq, hreports]

end RuleMigration

end JavaMigration.Recipe
