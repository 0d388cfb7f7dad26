import JavaMigration.Proofs.Recipe.Again

/-!
# What persists of variables

What holds of all variables without annotations, and outlasts the edits of a variable, holds of
every variable of a migrated unit if it holds of the unit (`Persists.migrate`).
-/

namespace JavaMigration.Recipe

open Java Source Match Edit

namespace RuleMigration

variable {m : RuleMigration} {P : VariableDecl → Prop}

/-- What holds of all variables without annotations and outlasts every edit of a variable. -/
structure Persists (m : RuleMigration) (P : VariableDecl → Prop) : Prop where
  unannotated : ∀ {d : VariableDecl}, d.annotations = [] → P d
  unmarked : ∀ {d : VariableDecl}, P d → P (m.unmarked d)
  moved : ∀ {d : VariableDecl} (lead : Space), P d → P { d with lead }

namespace Persists

theorem shifted (hP : m.Persists P) {ss ts : List Statement} (hshifted : Shifted ss ts)
    (h : ∀ d ∈ allVarsOf ss, P d) : ∀ d ∈ allVarsOf ts, P d := by
  cases ss with
  | nil =>
    cases hshifted
    exact h
  | cons s rest =>
    obtain ⟨lead, -, rfl⟩ := hshifted
    obtain ⟨hs, hrest⟩ := List.forall_mem_append.mp h
    refine List.forall_mem_append.mpr ⟨?_, hrest⟩
    cases s with
    | type d => cases d; exact hs
    | method d => cases d; exact hs
    | vars d =>
      intro e he
      rw [List.mem_singleton.mp he]
      exact hP.moved lead (hs d List.mem_cons_self)
    | call c => exact hs
    | raw r => exact hs

theorem extendedBy (hP : m.Persists P) {before after : Block} {new : List Statement}
    (hafter : before.ExtendedBy new after) (hnew : Unannotated new)
    (h : ∀ d ∈ allVarsOf before.statements, P d) : ∀ d ∈ allVarsOf after.statements, P d := by
  obtain ⟨added, close, rfl, hbare, -, -⟩ := hafter
  have hadded := hnew.of_bare_eq hbare
  dsimp only
  rw [allVarsOf_append]
  exact List.forall_mem_append.mpr ⟨h, fun d hd => hP.unannotated (hadded d hd)⟩

theorem closeField (hP : m.Persists P) (hplain : m.GeneratesPlain) {μ : Type} {d e : TypeDecl}
    {field : Identifier} {method : Option StatementId} {cursor : Cursor μ} {imports : List String}
    (hcursor : cursor.path.head? = some (.type d))
    (hclose : m.closeField d field method cursor = .ok (e, imports))
    (h : ∀ v ∈ allVarsOf d.body.statements, P v) : ∀ v ∈ allVarsOf e.body.statements, P v := by
  obtain ⟨rfl, -⟩ | ⟨new, body, hnew, hbody, -, -, rfl⟩ |
    ⟨front, a, back, old, new, body, throws, hsplit, hold, hnew, hbody, -, -, rfl⟩ :=
      closeField_ok hcursor hclose
  · exact h
  · exact hP.extendedBy hbody (hplain.members hnew) h
  · rw [hsplit, allVarsOf_append, allVarsOf_cons, Statement.allVars_method hold] at h
    obtain ⟨hfront, h⟩ := List.forall_mem_append.mp h
    obtain ⟨ha, hback⟩ := List.forall_mem_append.mp h
    have hclosed := hP.extendedBy hbody (hplain.statements hnew) ha
    dsimp only
    rw [allVarsOf_append, allVarsOf_cons, Statement.allVars_method rfl]
    exact List.forall_mem_append.mpr ⟨hfront, List.forall_mem_append.mpr ⟨hclosed, hback⟩⟩

theorem rewriteType (hP : m.Persists P) (hplain : m.GeneratesPlain) {above : List Node}
    {d : TypeDecl} (hvisited : ∀ v ∈ allVarsOf (m.visitedType above d).body.statements, P v)
    (h : ∀ v ∈ allVarsOf d.body.statements, P v) :
    ∀ v ∈ allVarsOf ((m.rewriteType above d).get d).body.statements, P v := by
  obtain ⟨-, hget⟩ | ⟨fault, -, hget⟩ | ⟨field, imports, e, -, -, hclose, hget⟩ :=
    m.rewriteType_cases above d
  · rw [hget]
    exact hvisited
  · rw [hget]
    exact h
  · rw [hget]
    exact hP.closeField hplain (by rw [Cursor.path_ofPath]; rfl) hclose hvisited

/-- What persists of variables holds of what a migration makes of statements if it holds of them. -/
theorem rewriteAll (hP : m.Persists P) (hplain : m.GeneratesPlain) (ss : List Statement)
    (above : List Node) (h : ∀ d ∈ allVarsOf ss, P d) :
    ∀ d ∈ allVarsOf ((m.rewriteAll above ss).get ss), P d := by
  induction ss using statements_induction generalizing above with
  | nil => exact h
  | type d rest hbody hrest =>
    obtain ⟨hd, hss⟩ := List.forall_mem_append.mp h
    rw [Statement.allVars_type] at hd
    have hvisited := hbody (.block d.body :: .type d :: above) hd
    rw [← statements_rewriteBlock] at hvisited
    have hget : (m.rewrite above (.type d)).get (.type d) = .type ((m.rewriteType above d).get d) :=
      Revision.get_map
    rw [get_rewriteAll_cons, hget, allVarsOf_cons, Statement.allVars_type]
    exact List.forall_mem_append.mpr ⟨hP.rewriteType hplain hvisited hd, hrest above hss⟩
  | method d b rest hb hbody hrest =>
    obtain ⟨hd, hss⟩ := List.forall_mem_append.mp h
    rw [Statement.allVars_method hb] at hd
    have hvisited := hbody (.block b :: .method d :: above) hd
    rw [← statements_rewriteBlock] at hvisited
    rw [get_rewriteAll_cons, get_rewrite_method hb, allVarsOf_cons, Statement.allVars_method rfl]
    exact List.forall_mem_append.mpr ⟨hvisited, hrest above hss⟩
  | signature d rest hb hrest =>
    obtain ⟨hd, hss⟩ := List.forall_mem_append.mp h
    rw [get_rewriteAll_cons, get_rewrite_signature hb]
    exact List.forall_mem_append.mpr ⟨hd, hrest above hss⟩
  | vars d rest hrest =>
    obtain ⟨hd, hss⟩ := List.forall_mem_append.mp h
    have hget : (m.rewrite above (.vars d)).get (.vars d) = .vars ((m.rewriteVars d).get d) :=
      Revision.get_map
    have hP' : P ((m.rewriteVars d).get d) := by
      have hself := hd d List.mem_cons_self
      unfold rewriteVars
      split
      · exact hP.unmarked hself
      · exact hself
    rw [get_rewriteAll_cons, hget]
    exact List.forall_mem_cons.mpr ⟨hP', hrest above hss⟩
  | call c rest hrest =>
    rw [get_rewriteAll_cons]
    exact hrest above h
  | raw r rest hrest =>
    rw [get_rewriteAll_cons]
    exact hrest above h

theorem migrate (hP : m.Persists P) (hplain : m.GeneratesPlain) {u : CompilationUnit}
    (h : ∀ d ∈ allVarsOf u.types, P d) :
    ∀ d ∈ allVarsOf ((m.migrate u).1.get u).types, P d :=
  hP.shifted (m.shifted_migrate u).1 (hP.rewriteAll hplain u.types [.unit u] h)

end Persists

end RuleMigration

end JavaMigration.Recipe
