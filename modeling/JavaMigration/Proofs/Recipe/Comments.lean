import JavaMigration.Proofs.Recipe.Again
import JavaMigration.Proofs.Recipe.Generated
import JavaMigration.Proofs.Source.Comments

/-!
# What becomes of comments

A run rewrites space in three places: among the annotations and modifiers of a rule field, before
a closing brace without a line of its own, and among the imports. Comments that stand there may be
lost (`closing_comment_is_lost`). A unit without comments there keeps all its comments in their
order (`run_keeps_comments`).
-/

namespace JavaMigration.Source

theorem comments_shifted {ss ts : List Statement} (h : Shifted ss ts) :
    commentsIn (segmentsOf ts) = commentsIn (segmentsOf ss) := by
  cases ss with
  | nil =>
    cases h
    rfl
  | cons s rest =>
    obtain ⟨lead, hlead, rfl⟩ := h
    rw [segmentsOf, commentsIn_append, comments_withLead hlead, ← commentsIn_append]
    rfl

/-! ## Blocks that grow -/

/-- No comment stands before the closing brace, unless that brace begins a line. -/
def Block.closesBare (b : Block) : Bool := b.close.hasNewline || b.close.comments.isEmpty

/-- The same for the body of a method. -/
def Statement.closesBare : Statement → Bool
  | .method d => d.body.all Block.closesBare
  | _ => true

theorem Block.ClosesLike.comments_sublist {before after : Block} (h : before.ClosesLike after)
    (hbare : before.closesBare) : before.close.comments.Sublist after.close.comments := by
  rcases h with hclose | hline
  · rw [hclose]
  · rw [Block.closesBare, hline, Bool.false_or, List.isEmpty_iff] at hbare
    rw [hbare]
    exact List.nil_sublist _

theorem Block.ExtendedBy.comments_sublist {before after : Block} {new : List Statement}
    (h : before.ExtendedBy new after) (hclose : before.ClosesLike after)
    (hbare : before.closesBare) :
    (commentsIn before.segments).Sublist (commentsIn after.segments) := by
  have hend := hclose.comments_sublist hbare
  obtain ⟨added, close, rfl, -, -, -⟩ := h
  simp only [Block.segments_eq, commentsIn_append, commentsIn_cons, segmentsOf_append]
  refine List.Sublist.append (List.Sublist.append (.refl _) (List.sublist_append_left _ _)) ?_
  exact hend.append (.refl _)

theorem intersperse_sublist {α : Type} (sep a : α) (as : List α) :
    (as.intersperse sep).Sublist ((as ++ [a]).intersperse sep) := by
  induction as with
  | nil => exact List.nil_sublist _
  | cons b as ih =>
    cases as with
    | nil => exact List.sublist_append_left [b] _
    | cons c as => exact (ih.cons_cons sep).cons_cons b

/-- One more thrown type leaves the comments of a `throws` clause. -/
theorem comments_addThrown (throws : Option Throws) (type : Identifier) :
    (commentsIn ((throws.map (·.segments)).getD [])).Sublist
      (commentsIn (Edit.Template.addThrown throws type).segments) := by
  cases throws with
  | none => exact List.nil_sublist _
  | some t =>
    refine commentsIn_sublist (List.Sublist.append (.refl _) ?_)
    rw [Edit.Template.addThrown, List.map_append]
    exact intersperse_sublist _ _ _

end JavaMigration.Source

namespace JavaMigration.Recipe

open Java Source Match Edit

namespace RuleMigration

variable {m : RuleMigration}

/-! ## Where no comment may stand -/

/-- No comment stands before the closing brace of the type or of one of its methods, unless the brace
begins a line. -/
def closesBare (d : TypeDecl) : Bool :=
  d.body.closesBare && d.body.statements.all Statement.closesBare

/-- The comments among the annotations and modifiers of a declaration and in front of its type. -/
def leadingComments (d : VariableDecl) : List String :=
  commentsIn (leadingSegments d.annotations d.modifiers ++ [.space d.type.lead])

/-- No comment stands in a place that closing the rule fields of some statements rewrites. -/
structure Sheltered (m : RuleMigration) (ss : List Statement) : Prop where
  fields : ∀ d ∈ allVarsOf ss, m.isRuleField d → leadingComments d = []
  closings : ∀ d ∈ allTypesOf ss, (fieldFound (m.findingsInBlock d.body)).isSome → closesBare d

theorem sheltered_iff {ss : List Statement} :
    m.Sheltered ss ↔ (∀ d ∈ allVarsOf ss, m.isRuleField d → leadingComments d = []) ∧
      ∀ d ∈ allTypesOf ss, (fieldFound (m.findingsInBlock d.body)).isSome → closesBare d :=
  ⟨fun h => ⟨h.fields, h.closings⟩, fun h => ⟨h.1, h.2⟩⟩

instance (ss : List Statement) : Decidable (m.Sheltered ss) := decidable_of_iff _ sheltered_iff.symm

theorem sheltered_cons_iff {s : Statement} {rest : List Statement} :
    m.Sheltered (s :: rest) ↔ m.Sheltered [s] ∧ m.Sheltered rest := by
  simp only [sheltered_iff, allVarsOf_cons, allTypesOf_cons, allVarsOf_nil, allTypesOf_nil,
    List.append_nil, List.forall_mem_append]
  tauto

theorem sheltered_type_iff {d : TypeDecl} :
    m.Sheltered [.type d] ↔ m.Sheltered d.body.statements ∧
      ((fieldFound (m.findingsInBlock d.body)).isSome → closesBare d) := by
  simp only [sheltered_iff, allVarsOf_cons, allTypesOf_cons, allVarsOf_nil, allTypesOf_nil,
    List.append_nil, Statement.allVars_type, Statement.allTypes_type, List.forall_mem_append,
    List.forall_mem_singleton, and_assoc]

theorem sheltered_method_iff {d : MethodDecl} {b : Block} (h : d.body = some b) :
    m.Sheltered [.method d] ↔ m.Sheltered b.statements := by
  simp only [sheltered_iff, allVarsOf_cons, allTypesOf_cons, allVarsOf_nil, allTypesOf_nil,
    List.append_nil, Statement.allVars_method h, Statement.allTypes_method h]

/-! ## Edits -/

theorem comments_closeField {μ : Type} {d e : TypeDecl} {field : Identifier}
    {method : Option StatementId} {cursor : Cursor μ} {imports : List String}
    (hcursor : cursor.path.head? = some (.type d))
    (hclose : m.closeField d field method cursor = .ok (e, imports)) (h : closesBare d) :
    (commentsIn d.segments).Sublist (commentsIn e.segments) := by
  obtain ⟨hbody, hmethods⟩ := Bool.and_eq_true_iff.mp h
  obtain ⟨rfl, -⟩ | ⟨new, body, -, hextended, hlike, -, rfl⟩ |
    ⟨front, a, back, old, new, body, throws, hsplit, hold, -, hextended, hlike, hthrows, rfl⟩ :=
      closeField_ok hcursor hclose
  · exact .refl _
  · have hgrown := hextended.comments_sublist hlike hbody
    simp only [TypeDecl.segments_eq, commentsIn_append]
    exact (List.Sublist.refl _).append hgrown
  · have ha := List.all_eq_true.mp hmethods (.method a) (by simp [hsplit])
    have hbare : old.closesBare := by simpa [Statement.closesBare, hold] using ha
    have hgrown := hextended.comments_sublist hlike hbare
    have hthrown : (commentsIn ((a.throws.map (·.segments)).getD [])).Sublist
        (commentsIn ((throws.map (·.segments)).getD [])) := by
      obtain ⟨rfl, -⟩ | ⟨type, -, rfl, -⟩ := hthrows
      · exact .refl _
      · exact comments_addThrown a.throws type
    have hmethod : (commentsIn (Statement.method a).segments).Sublist
        (commentsIn (Statement.method { a with body := some body, throws }).segments) := by
      show (commentsIn a.segments).Sublist
        (commentsIn ({ a with body := some body, throws } : MethodDecl).segments)
      rw [a.segments_of_some hold,
        MethodDecl.segments_of_some (d := { a with body := some body, throws }) rfl]
      simp only [MethodDecl.headSegments, commentsIn_append]
      exact ((List.Sublist.refl _).append hthrown).append hgrown
    have hmembers := (List.Sublist.refl (commentsIn (segmentsOf front))).append
      (hmethod.append (.refl (commentsIn (segmentsOf back))))
    simp only [TypeDecl.segments_eq, Block.segments_eq, hsplit, segmentsOf_append, segmentsOf,
      commentsIn_append]
    exact (List.Sublist.refl _).append (((List.Sublist.refl _).append hmembers).append (.refl _))

theorem comments_unmarked {d : VariableDecl} (h : leadingComments d = []) :
    (commentsIn d.segments).Sublist (commentsIn (m.unmarked d).segments) := by
  obtain ⟨annotations, modifiers, lead, hunmarked⟩ := m.unmarked_eq d
  rw [hunmarked]
  unfold leadingComments at h
  simp only [commentsIn_append, commentsIn_cons, commentsIn_nil, List.append_nil,
    List.append_eq_nil_iff] at h
  obtain ⟨hleading, hlead⟩ := h
  simp only [VariableDecl.segments, Identifier.segments, commentsIn_append, commentsIn_cons, hleading,
    hlead, List.nil_append, List.append_nil]
  refine List.Sublist.append (List.Sublist.append (List.sublist_append_left _ _) ?_) (.refl _)
  exact List.sublist_append_right _ _

/-! ## A run -/

theorem closesBare_rewrite (above : List Node) (s : Statement) :
    ((m.rewrite above s).get s).closesBare = s.closesBare := by
  cases s with
  | type d =>
    rw [show (m.rewrite above (.type d)).get (.type d) = .type ((m.rewriteType above d).get d) from
      Revision.get_map]
    rfl
  | method d =>
    cases hb : d.body with
    | none => rw [get_rewrite_signature hb]
    | some b =>
      have hself : (Statement.method d).closesBare = b.closesBare := by
        simp [Statement.closesBare, hb]
      rw [get_rewrite_method hb, get_rewriteBlock, hself]
      rfl
  | vars d =>
    rw [show (m.rewrite above (.vars d)).get (.vars d) = .vars ((m.rewriteVars d).get d) from
      Revision.get_map]
    rfl
  | call c => rfl
  | raw r => rfl

/-- The visit of its members leaves the spaces before the closing braces of a type. -/
theorem closesBare_visitedType (above : List Node) (d : TypeDecl) :
    closesBare (m.visitedType above d) = closesBare d := by
  unfold closesBare visitedType
  dsimp only
  rw [get_rewriteBlock]
  dsimp only
  rw [get_rewriteAll, List.all_map]
  congr 1
  exact List.all_congr rfl fun s => closesBare_rewrite _ s

theorem comments_rewriteType {above : List Node} {d : TypeDecl}
    (h : (fieldFound (m.findingsInBlock d.body)).isSome → closesBare d)
    (hvisited : (commentsIn d.segments).Sublist (commentsIn (m.visitedType above d).segments)) :
    (commentsIn d.segments).Sublist (commentsIn ((m.rewriteType above d).get d).segments) := by
  obtain ⟨-, hget⟩ | ⟨fault, -, hget⟩ | ⟨field, imports, e, -, hfield, hclose, hget⟩ :=
    m.rewriteType_cases above d
  · rw [hget]
    exact hvisited
  · rw [hget]
    exact .refl _
  · rw [hget]
    have hbare : closesBare (m.visitedType above d) := by
      rw [closesBare_visitedType]
      exact h (by rw [hfield]; rfl)
    exact hvisited.trans (comments_closeField (by rw [Cursor.path_ofPath]; rfl) hclose hbare)

/-- What a migration makes of sheltered statements has all their comments. -/
theorem comments_rewriteAll (ss : List Statement) (above : List Node) (h : m.Sheltered ss) :
    (commentsIn (segmentsOf ss)).Sublist
      (commentsIn (segmentsOf ((m.rewriteAll above ss).get ss))) := by
  induction ss using statements_induction generalizing above with
  | nil => exact .refl _
  | type d rest hbody hrest =>
    obtain ⟨hd, hss⟩ := sheltered_cons_iff.mp h
    obtain ⟨hmembers, hcloses⟩ := sheltered_type_iff.mp hd
    have hvisited : (commentsIn d.segments).Sublist
        (commentsIn (m.visitedType above d).segments) := by
      have hinside := hbody (.block d.body :: .type d :: above) hmembers
      unfold visitedType
      rw [get_rewriteBlock]
      simp only [TypeDecl.segments_eq, Block.segments_eq, commentsIn_append]
      exact (List.Sublist.refl _).append (((List.Sublist.refl _).append hinside).append (.refl _))
    have hget : (m.rewrite above (.type d)).get (.type d) = .type ((m.rewriteType above d).get d) :=
      Revision.get_map
    rw [get_rewriteAll_cons, hget, segmentsOf, segmentsOf, commentsIn_append, commentsIn_append]
    exact (comments_rewriteType hcloses hvisited).append (hrest above hss)
  | method d b rest hb hbody hrest =>
    obtain ⟨hd, hss⟩ := sheltered_cons_iff.mp h
    have hinside := hbody (.block b :: .method d :: above) ((sheltered_method_iff hb).mp hd)
    have hmethod : (commentsIn d.segments).Sublist (commentsIn
        ({ d with body := some ((m.rewriteBlock (.method d :: above) b).get b) } :
          MethodDecl).segments) := by
      rw [get_rewriteBlock, d.segments_of_some hb, MethodDecl.segments_of_some rfl]
      simp only [Block.segments_eq, commentsIn_append]
      exact (List.Sublist.refl _).append (((List.Sublist.refl _).append hinside).append (.refl _))
    rw [get_rewriteAll_cons, get_rewrite_method hb, segmentsOf, segmentsOf, commentsIn_append,
      commentsIn_append]
    exact hmethod.append (hrest above hss)
  | signature d rest hb hrest =>
    obtain ⟨-, hss⟩ := sheltered_cons_iff.mp h
    rw [get_rewriteAll_cons, get_rewrite_signature hb, segmentsOf, segmentsOf, commentsIn_append,
      commentsIn_append]
    exact (List.Sublist.refl _).append (hrest above hss)
  | vars d rest hrest =>
    obtain ⟨hd, hss⟩ := sheltered_cons_iff.mp h
    have hvars : (commentsIn d.segments).Sublist
        (commentsIn ((m.rewriteVars d).get d).segments) := by
      unfold rewriteVars
      split
      · next hfield => exact comments_unmarked (hd.fields d List.mem_cons_self hfield)
      · exact .refl _
    have hget : (m.rewrite above (.vars d)).get (.vars d) = .vars ((m.rewriteVars d).get d) :=
      Revision.get_map
    rw [get_rewriteAll_cons, hget, segmentsOf, segmentsOf, commentsIn_append, commentsIn_append]
    exact hvars.append (hrest above hss)
  | call c rest hrest =>
    obtain ⟨-, hss⟩ := sheltered_cons_iff.mp h
    rw [get_rewriteAll_cons, segmentsOf, segmentsOf, commentsIn_append, commentsIn_append]
    exact (List.Sublist.refl _).append (hrest above hss)
  | raw r rest hrest =>
    obtain ⟨-, hss⟩ := sheltered_cons_iff.mp h
    rw [get_rewriteAll_cons, segmentsOf, segmentsOf, commentsIn_append, commentsIn_append]
    exact (List.Sublist.refl _).append (hrest above hss)

/-- A run keeps the comments of a unit in their order if none stands in an import or in a place
that closing rule fields rewrites. -/
theorem run_keeps_comments (m : RuleMigration) {u : CompilationUnit}
    (himports : ∀ i ∈ u.imports, commentsIn i.segments = []) (h : m.Sheltered u.types) :
    u.comments.Sublist ((m.run u).1.get u).comments := by
  have hnone : commentsIn (u.imports.flatMap (·.segments)) = [] := by
    unfold commentsIn
    rw [List.flatMap_assoc, List.flatMap_eq_nil_iff]
    exact himports
  unfold run
  split
  · obtain ⟨hshifted, hframe⟩ := m.shifted_migrate u
    have htypes := comments_rewriteAll u.types [.unit u] h
    rw [← comments_shifted hshifted] at htypes
    generalize (m.migrate u).1.get u = v at hframe htypes ⊢
    unfold CompilationUnit.SameFrame at hframe
    rw [hframe]
    simp only [CompilationUnit.comments, CompilationUnit.segments, commentsIn_append, hnone,
      List.append_nil]
    exact ((List.sublist_append_left _ _).append htypes).append (.refl _)
  · exact .refl _

/-- A class with comments around a rule field. -/
def commentedSource : String :=
  "class A \x7b /* before */ @a.R b.S s; // behind\n \x7d"

/-- Whether the unit is changed although it is sheltered, and its comments and those of the result are
the ones that are printed. -/
def changesCommented (m : RuleMigration) (u : CompilationUnit) : Bool :=
  let new := (m.run u).1.get u
  u.imports.all (fun i => (commentsIn i.segments).isEmpty) && decide (m.Sheltered u.types) &&
    !(m.run u).1.isKept && u.comments == ["/* before */", "// behind"] &&
    commentsOf commentedSource == u.comments && commentsOf new.print == new.comments

set_option maxRecDepth 100000 in
theorem passes_commented : passes shortConfig commentedSource changesCommented :=
  ordinary_short.passes (by decide +kernel)

theorem comments_around_field_are_kept :
    ∃ (m : RuleMigration) (u : CompilationUnit),
      ofConfig shortConfig = .ok m ∧ parse? {} "A.java" commentedSource = some u ∧
      (m.run u).1.isKept = false ∧ u.comments = ["/* before */", "// behind"] ∧
      u.comments.Sublist ((m.run u).1.get u).comments ∧
      (commentsOf commentedSource).Sublist (commentsOf ((m.run u).1.get u).print) := by
  obtain ⟨m, u, hm, hu, hchanges⟩ := exists_of_passes passes_commented
  simp only [changesCommented, Bool.and_eq_true, List.all_eq_true, List.isEmpty_iff,
    decide_eq_true_eq, Bool.not_eq_true', beq_iff_eq] at hchanges
  obtain ⟨⟨⟨⟨⟨himports, hsheltered⟩, hchanged⟩, hcomments⟩, hsource⟩, hprinted⟩ := hchanges
  have hkept := run_keeps_comments m himports hsheltered
  exact ⟨m, u, hm, hu, hchanged, hcomments, hkept, hsource ▸ hprinted ▸ hkept⟩

/-! ## A lost comment -/

/-- A class with an after method whose body is a comment and ends in the same line. -/
def closingSource : String :=
  "class A \x7b @org.junit.Rule okhttp3.mockwebserver.MockWebServer s; " ++
    "@org.junit.jupiter.api.AfterEach void t() \x7b /* none */ \x7d \x7d"

/-- Whether the source is printed back, and its one comment is not in the result. -/
def losesComment (m : RuleMigration) (u : CompilationUnit) : Bool :=
  let new := ((m.run u).1.get u).print
  u.print == closingSource && (m.run u).2.isEmpty && commentsOf closingSource == ["/* none */"] &&
    (lex new).isSome && (commentsOf new).isEmpty

set_option maxRecDepth 100000 in
theorem passes_closing : passes {} closingSource losesComment :=
  ordinary_default.passes (by decide +kernel)

/-- With the defaults, a comment in front of the brace that closes an after method in the same line
is lost, although the source is printed back and nothing is reported. -/
theorem closing_comment_is_lost :
    ∃ (m : RuleMigration) (u : CompilationUnit),
      ofConfig {} = .ok m ∧ parse? {} "A.java" closingSource = some u ∧ u.print = closingSource ∧
      (m.run u).2 = [] ∧ (lex ((m.run u).1.get u).print).isSome ∧
      ¬(commentsOf closingSource).Sublist (commentsOf ((m.run u).1.get u).print) := by
  obtain ⟨m, u, hm, hu, hloses⟩ := exists_of_passes passes_closing
  simp only [losesComment, Bool.and_eq_true, List.isEmpty_iff, beq_iff_eq] at hloses
  obtain ⟨⟨⟨⟨hprint, hreports⟩, hcomment⟩, hlexed⟩, hnone⟩ := hloses
  refine ⟨m, u, hm, hu, hprint, hreports, hlexed, ?_⟩
  rw [hcomment, hnone]
  exact fun h => nomatch h

end RuleMigration

end JavaMigration.Recipe
