import Mathlib.Algebra.GroupWithZero.Nat
import Mathlib.Data.List.Forall2
import JavaMigration.Java.Parse
import JavaMigration.Proofs.Edit.Synthesis
import JavaMigration.Proofs.Text.Visible

/-!
# What indentation loses

Indenting new statements writes their spaces anew, those inside new methods, and the one before a
closing brace that stands on the line of what comes before it. It does not look at what these
spaces hold: a comment in one of them is lost (`closing_comment_is_overwritten`). If none of them
holds one, and the indentation that is taken over is no comment either, all of the text is still
there (`indent_shows_all_iff`).
-/

namespace JavaMigration.Source

open Text

/-! ## Texts that hide spaces -/

/-- The new text shows what the old one shows but for what some spaces show. -/
structure Hides (spaces : List Space) (old new : String) : Prop where
  sublist : (visible new).Sublist (visible old)
  length : (visible old).length =
    (visible new).length + (spaces.map fun s => (visible s.text).length).sum

namespace Hides

variable {ss ts : List Space} {s t : Space} {a b c d : String}

theorem refl (a : String) : Hides [] a a := ⟨.refl _, rfl⟩

theorem space (h : visible t.text = []) : Hides [s] s.text t.text where
  sublist := h ▸ List.nil_sublist _
  length := by rw [h]; simp

theorem append (h : Hides ss a b) (h' : Hides ts c d) : Hides (ss ++ ts) (a ++ c) (b ++ d) where
  sublist := by
    rw [visible_append, visible_append]
    exact h.sublist.append h'.sublist
  length := by
    rw [visible_append, visible_append, List.length_append, List.length_append, h.length, h'.length,
      List.map_append, List.sum_append]
    omega

/-- Nothing is hidden if and only if the spaces are blank. -/
theorem same_iff (h : Hides ss a b) : visible b = visible a ↔ ∀ s ∈ ss, s.isBlank := by
  have hsum : (ss.map fun s => (visible s.text).length).sum = 0 ↔ ∀ s ∈ ss, s.isBlank := by
    clear h
    induction ss with
    | nil => simp
    | cons s ss ih =>
      rw [List.map_cons, List.sum_cons, Nat.add_eq_zero_iff, ih, List.length_eq_zero_iff,
        Space.visible_text_iff, List.forall_mem_cons]
  rw [← hsum]
  constructor
  · intro heq
    have hlength := h.length
    rw [heq] at hlength
    omega
  · intro hzero
    refine h.sublist.eq_of_length ?_
    rw [h.length, hzero, Nat.add_zero]

section

variable {α : Type} {print : α → String} {spaces : α → List Space} {as bs : List α}

theorem join (h : List.Forall₂ (fun a b => Hides (spaces a) (print a) (print b)) as bs) :
    Hides (as.flatMap spaces) (String.join (as.map print)) (String.join (bs.map print)) := by
  induction h with
  | nil => exact refl _
  | cons hab _ ih =>
    rw [List.map_cons, List.map_cons, String.join_cons, String.join_cons, List.flatMap_cons]
    exact hab.append ih

theorem intercalate (sep : String)
    (h : List.Forall₂ (fun a b => Hides (spaces a) (print a) (print b)) as bs) :
    Hides (as.flatMap spaces) (sep.intercalate (as.map print)) (sep.intercalate (bs.map print)) := by
  induction h with
  | nil => exact refl _
  | cons hab htail ih =>
    cases htail with
    | nil => simpa using hab
    | cons hcd htail =>
      simp only [List.map_cons, String.intercalate_cons_cons, String.append_assoc,
        List.flatMap_cons] at ih ⊢
      exact hab.append ((refl sep).append ih)

end

end Hides

theorem forall₂_mapIdx {α β : Type} {R : α → β → Prop} {f : Nat → α → β} {as : List α}
    (h : ∀ i, ∀ a ∈ as, R a (f i a)) : List.Forall₂ R as (as.mapIdx f) := by
  induction as generalizing f with
  | nil => exact .nil
  | cons a as ih =>
    rw [List.mapIdx_cons]
    exact .cons (h 0 a List.mem_cons_self)
      (ih fun i b hb => h (i + 1) b (List.mem_cons_of_mem _ hb))

theorem printStatements_eq_join (ss : List Statement) :
    printStatements ss = String.join (ss.map Statement.print) := by
  induction ss with
  | nil => rfl
  | cons s ss ih => rw [printStatements, ih, List.map_cons, String.join_cons]

/-! ## What a method is laid out with -/

def Throws.leads (t : Throws) : List Space := t.lead :: t.types.map (·.lead)

/-- The spaces of a body but for those inside its statements. -/
def Block.leads (b : Block) : List Space := b.lead :: b.statements.map Statement.lead ++ [b.close]

/-- The spaces of a method but for those inside annotations, parameters and statements. -/
def MethodDecl.leads (d : MethodDecl) : List Space :=
  d.lead :: (d.annotations.map (·.lead) ++ d.modifiers.map (·.lead)) ++
    [d.returnType.lead, d.name.lead] ++ (d.throws.map Throws.leads).getD [] ++
    (d.body.map Block.leads).getD []

end JavaMigration.Source

namespace JavaMigration.Edit.Layout

open Source Text

variable {indent step nl : String} (hindent : visible indent = []) (hstep : visible step = [])
  (hnl : visible nl = [])

/-- The spaces of a new statement that are written anew. -/
def rewritten : Statement → List Space
  | .method d => d.leads
  | s => [s.lead]

theorem hides_withLead (s : Statement) {lead : Space} (h : visible lead.text = []) :
    Hides [s.lead] s.print (s.withLead lead).print := by
  have hself := Statement.print_withLead s s.lead
  rw [Statement.withLead_lead] at hself
  rw [hself, Statement.print_withLead s lead]
  exact (Hides.space h).append (.refl _)

theorem hides_identifier (i : Identifier) {lead : Space} (h : visible lead.text = []) :
    Hides [i.lead] i.print ({ i with lead } : Identifier).print :=
  (Hides.space h).append (.refl _)

theorem hides_leading (annotations : List Annotation) (modifiers : List Modifier)
    {f g : Nat → Space} (hf : ∀ i, visible (f i).text = []) (hg : ∀ i, visible (g i).text = []) :
    Hides (annotations.map (·.lead) ++ modifiers.map (·.lead))
      (printLeading annotations modifiers)
      (printLeading (annotations.mapIdx fun i a => { a with lead := f i })
        (modifiers.mapIdx fun i m => { m with lead := g i })) := by
  rw [List.map_eq_flatMap, List.map_eq_flatMap]
  refine (Hides.join (forall₂_mapIdx fun i a _ => ?_)).append
    (Hides.join (forall₂_mapIdx fun i m _ => ?_))
  · simp only [String.append_assoc, Annotation.print]
    exact (Hides.space (hf i)).append (.refl _)
  · exact (Hides.space (hg i)).append (.refl _)

theorem hides_throws (t : Throws) {lead : Space} (h : visible lead.text = []) :
    Hides t.leads t.print
      ({ lead, types := t.types.map fun i => { i with lead } } : Throws).print := by
  have htypes : Hides (t.types.map (·.lead)) (String.intercalate "," (t.types.map (·.print)))
      (String.intercalate "," ((t.types.map fun i => { i with lead }).map (·.print))) := by
    rw [List.map_eq_flatMap]
    exact Hides.intercalate "," (List.forall₂_map_right_iff.mpr
      (List.forall₂_same.mpr fun i _ => hides_identifier i h))
  simp only [Throws.print, String.append_assoc]
  exact (Hides.space h).append ((Hides.refl _).append htypes)

theorem hides_body (b : Block) {lead inner close : Space} (hlead : visible lead.text = [])
    (hinner : visible inner.text = []) (hclose : visible close.text = []) :
    Hides b.leads b.print
      (⟨lead, b.statements.map (·.withLead inner), close⟩ : Block).print := by
  have hstatements : Hides (b.statements.map Statement.lead) (printStatements b.statements)
      (printStatements (b.statements.map (·.withLead inner))) := by
    rw [printStatements_eq_join, printStatements_eq_join, List.map_eq_flatMap]
    exact Hides.join (List.forall₂_map_right_iff.mpr
      (List.forall₂_same.mpr fun s _ => hides_withLead s hinner))
  simp only [Block.print_eq, String.append_assoc]
  have hparts := (Hides.space (s := b.lead) hlead).append ((Hides.refl "\x7b").append
    (hstatements.append ((Hides.space (s := b.close) hclose).append (.refl "\x7d"))))
  simpa [Block.leads] using hparts

include hindent hnl in
theorem hides_printHead (d : MethodDecl) {lead : Space} (hlead : visible lead.text = []) :
    Hides (d.lead :: (d.annotations.map (·.lead) ++ d.modifiers.map (·.lead)) ++
        [d.returnType.lead, d.name.lead] ++ (d.throws.map Throws.leads).getD [])
      d.printHead ({ layMethod d indent step nl with lead } : MethodDecl).printHead := by
  have hline : visible (nl ++ indent) = [] := by simp [hnl, hindent]
  have hsingle : visible Space.single.text = [] := rfl
  have hbehind : visible (if d.annotations.isEmpty then Space.empty else ⟨nl ++ indent⟩).text = [] := by
    split
    · rfl
    · exact hline
  have hthrows : Hides ((d.throws.map Throws.leads).getD []) ((d.throws.map (·.print)).getD "")
      (((layMethod d indent step nl).throws.map (·.print)).getD "") := by
    rw [layMethod]
    cases d.throws with
    | none => exact .refl _
    | some t => exact hides_throws t hsingle
  have hleading := hides_leading d.annotations d.modifiers
    (f := fun i => if i = 0 then .empty else ⟨nl ++ indent⟩)
    (g := fun i => if i = 0 then if d.annotations.isEmpty then .empty else ⟨nl ++ indent⟩
      else .single)
    (fun i => by split; exacts [rfl, hline])
    (fun i => by split; exacts [hbehind, hsingle])
  have htype : Hides [d.returnType.lead] d.returnType.print
      (layMethod d indent step nl).returnType.print :=
    hides_identifier d.returnType (by split; exacts [hbehind, hsingle])
  have hparts := (Hides.space (s := d.lead) hlead).append (hleading.append (htype.append
    ((hides_identifier d.name hsingle).append ((Hides.refl d.parameters).append hthrows))))
  simp only [List.singleton_append, List.nil_append, List.append_assoc] at hparts
  simp only [MethodDecl.printHead, String.append_assoc, List.append_assoc, List.cons_append,
    List.nil_append]
  exact hparts

include hindent hstep hnl in
theorem hides_layMethod (d : MethodDecl) {lead : Space} (hlead : visible lead.text = []) :
    Hides d.leads d.print ({ layMethod d indent step nl with lead } : MethodDecl).print := by
  have hline : visible (nl ++ indent) = [] := by simp [hnl, hindent]
  have hinner : visible (nl ++ indent ++ step) = [] := by simp [hnl, hindent, hstep]
  have hbody : Hides ((d.body.map Block.leads).getD [])
      (d.body.elim (d.close.text ++ ";") Block.print)
      ((layMethod d indent step nl).body.elim (d.close.text ++ ";") Block.print) := by
    rw [layMethod]
    cases d.body with
    | none => exact .refl _
    | some b =>
      refine hides_body b rfl hinner ?_
      split
      · rfl
      · exact hline
  rw [MethodDecl.print_eq, MethodDecl.print_eq]
  exact (hides_printHead hindent hnl d hlead).append hbody

include hindent hstep hnl in
theorem hides_layStatement (members : Bool) (index : Nat) (s : Statement) :
    Hides (rewritten s) s.print (layStatement members indent step nl index s).print := by
  have hlead : visible (nl ++ indent) = [] := by simp [hnl, hindent]
  have hapart : visible ((if members && index > 0 then nl ++ nl else nl) ++ indent) = [] := by
    split <;> simp [hnl, hindent]
  cases s with
  | method d => exact hides_layMethod hindent hstep hnl d hapart
  | type d => exact hides_withLead (.type d) hapart
  | vars d => exact hides_withLead (.vars d) hlead
  | call c => exact hides_withLead (.call c) hlead
  | raw r => exact hides_withLead (.raw r) hlead

/-! ## Blocks -/

/-- Whether a block has no statement that another one does not have. -/
def isUnchanged (before after : Block) : Bool := after.statements.all fun s => before.ids.contains s.id

/-- The indentation that new statements get. -/
def childIndent (before after : Block) (owner : String) : String :=
  ((after.statements.filter fun s => before.ids.contains s.id).findSome? (·.lead.indent?)).getD
    (owner ++ unitFor owner)

/-- The spaces of a block that are written anew. -/
def rewrittenIn (before after : Block) : List Space :=
  if isUnchanged before after then []
  else
    after.statements.flatMap (fun s => if before.ids.contains s.id then [] else rewritten s) ++
      if after.close.hasNewline then [] else [after.close]

/-- The indentations that they are written with. -/
def indentationsIn (before after : Block) (owner : String) : List String :=
  if isUnchanged before after then []
  else childIndent before after owner :: if after.close.hasNewline then [] else [owner]

theorem visible_unitFor (owner : String) : visible (unitFor owner) = [] := by
  unfold unitFor
  split <;> rfl

/-- What an indentation has more than that of the owner shows nothing that it does not show. -/
theorem visible_of_stripStart {owner rest : String} (h : stripStart? indent owner = some rest)
    (hindent : visible indent = []) : visible rest = [] := by
  obtain ⟨r, hr, rfl⟩ := Option.map_eq_some_iff.mp h
  rw [visible, dropStart?_eq_some_iff.mp hr, List.filter_append] at hindent
  rw [visible, String.toList_ofList]
  exact (List.append_eq_nil_iff.mp hindent).2

include hnl in
theorem hides_layBlock {before after : Block} {owner : String}
    (h : ∀ text ∈ indentationsIn before after owner, visible text = []) (members : Bool) :
    Hides (rewrittenIn before after) after.print (layBlock before after owner members nl).print := by
  unfold layBlock
  extract_lets isOld indent step
  rw [show after.statements.all isOld = isUnchanged before after from rfl]
  unfold rewrittenIn
  unfold indentationsIn at h
  by_cases hall : isUnchanged before after
  · rw [if_pos hall, if_pos hall]
    exact .refl _
  · rw [if_neg hall] at h ⊢
    rw [if_neg hall]
    have hindent : visible indent = [] := h _ List.mem_cons_self
    have hstep : visible step = [] := by
      unfold step
      split
      · next rest hrest =>
        split
        · exact visible_unitFor owner
        · exact visible_of_stripStart hrest hindent
      · exact visible_unitFor owner
    have hne : after.statements.isEmpty = false := by
      rw [← Bool.not_eq_true, List.isEmpty_iff]
      intro hnil
      exact hall (by rw [isUnchanged, hnil]; rfl)
    have hstatements : Hides
        (after.statements.flatMap fun s => if before.ids.contains s.id then [] else rewritten s)
        (printStatements after.statements)
        (printStatements (after.statements.mapIdx fun i s =>
          if isOld s then s else layStatement members indent step nl i s)) := by
      rw [printStatements_eq_join, printStatements_eq_join]
      refine Hides.join (forall₂_mapIdx fun i s _ => ?_)
      cases hold : before.ids.contains s.id with
      | true =>
        rw [if_pos rfl, if_pos hold]
        exact .refl _
      | false =>
        rw [if_neg Bool.false_ne_true, if_neg (by rw [show isOld s = false from hold]; simp)]
        exact hides_layStatement hindent hstep hnl members i s
    have hclose : Hides (if after.close.hasNewline then [] else [after.close]) after.close.text
        (if !after.close.hasNewline && !after.statements.isEmpty then ⟨nl ++ owner⟩
          else after.close : Space).text := by
      rw [hne, Bool.not_false, Bool.and_true]
      cases hline : after.close.hasNewline with
      | true => exact .refl _
      | false =>
        have howner : visible owner = [] := h owner (by rw [hline]; simp)
        exact Hides.space (by simp [hnl, howner])
    have hparts := (Hides.refl (after.lead.text ++ "\x7b")).append
      (hstatements.append (hclose.append (.refl "\x7d")))
    rw [List.append_nil, List.nil_append] at hparts
    simp only [Block.print_eq, String.append_assoc] at hparts ⊢
    exact hparts

/-! ## Nodes -/

/-- The blocks of two nodes that are laid out, the old and the new one. -/
def blocks? : Node → Node → Option (Block × Block)
  | .type old, .type new => some (old.body, new.body)
  | .method old, .method new => old.body.bind fun b => new.body.map fun body => (b, body)
  | .block old, .block new => some (old, new)
  | _, _ => none

/-- The indentation of what the new block belongs to. -/
def ownerOf {μ : Type} (after : Node) (cursor : Cursor μ) : String :=
  match after with
  | .block _ => ((cursor.path.drop 1).findSome? (·.lead.indent?)).getD ""
  | n => ownerIndent n.lead cursor

/-- The spaces that are written anew: those of new statements, and of the end of the block unless it
is on a line of its own. -/
def rewrittenSpaces (before after : Node) : List Space :=
  (blocks? before after).elim [] fun (old, new) => rewrittenIn old new

/-- The indentations that they are written with. -/
def indentations {μ : Type} (before after : Node) (cursor : Cursor μ) : List String :=
  (blocks? before after).elim [] fun (old, new) => indentationsIn old new (ownerOf after cursor)

/-- Where nothing is laid out the node stays as it is, and otherwise one block of it is laid out. -/
theorem print_indent {μ : Type} (before after : Node) (cursor : Cursor μ) :
    (blocks? before after = none ∧ Layout.indent before after cursor = after) ∨
      ∃ old new front members, blocks? before after = some (old, new) ∧
        after.print = front ++ new.print ∧
        (Layout.indent before after cursor).print = front ++
          (layBlock old new (ownerOf after cursor) members (enclosingLineEnding before cursor)).print := by
  unfold Layout.indent
  extract_lets nl
  split
  · next old new =>
    exact .inr ⟨old.body, new.body, new.printHead, true, rfl, new.print_eq, TypeDecl.print_eq _⟩
  · next old new =>
    split
    · next b body hold hnew =>
      refine .inr ⟨b, body, new.printHead, false, by simp [blocks?, hold, hnew], ?_,
        MethodDecl.print_eq _⟩
      exact (MethodDecl.print_eq new).trans (by rw [hnew]; rfl)
    · next hnone =>
      refine .inl ⟨?_, rfl⟩
      cases hold : old.body with
      | none => simp [blocks?, hold]
      | some b =>
        cases hnew : new.body with
        | none => simp [blocks?, hnew]
        | some body => exact absurd hnew (hnone b body hold)
  · next old new => exact .inr ⟨old, new, "", _, rfl, String.empty_append.symm, String.empty_append.symm⟩
  · next htype hmethod hblock =>
    refine .inl ⟨?_, rfl⟩
    unfold blocks?
    split
    · exact absurd rfl (htype _ _ rfl)
    · exact absurd rfl (hmethod _ _ rfl)
    · exact absurd rfl (hblock _ _ rfl)
    · rfl

theorem visible_enclosingLineEnding {μ : Type} (before : Node) (cursor : Cursor μ) :
    visible (enclosingLineEnding before cursor) = [] := by
  unfold enclosingLineEnding
  split
  · exact visible_lineEnding _
  · rfl

/-- Laid out with blank indentation, the new node shows all that it showed if and only if no space
that is written anew holds a comment. -/
theorem indent_shows_all_iff {μ : Type} {before after : Node} {cursor : Cursor μ}
    (h : ∀ text ∈ indentations before after cursor, visible text = []) :
    visible (Layout.indent before after cursor).print = visible after.print ↔
      ∀ s ∈ rewrittenSpaces before after, s.isBlank := by
  unfold indentations at h
  unfold rewrittenSpaces
  rcases print_indent before after cursor with
    ⟨hnone, hsame⟩ | ⟨old, new, front, members, hsome, hafter, hlaid⟩
  · rw [hnone, hsame]
    simp
  · rw [hsome] at h ⊢
    rw [hafter, hlaid]
    exact ((Hides.refl front).append
      (hides_layBlock (visible_enclosingLineEnding before cursor) h members)).same_iff

/-- The first member of the first type of a source, as it is and with one statement more. -/
def extendedMethod? (source : String) : Option (MethodDecl × MethodDecl) := do
  let u ← Java.parse? {} "A.java" source
  match u.types.head? with
  | some (.type d) =>
    match d.body.statements.head? with
    | some (.method m) =>
      let body ← m.body
      some (m, { m with body := some (body.append [.raw ⟨0, .empty, "x();"⟩]) })
    | _ => none
  | _ => none

/-- A method with comments where no space is written anew. -/
def shelteredSource : String :=
  "class A \x7b\n    // in front\n    void m() \x7b /* first */\n        int a; // behind\n    \x7d\n\x7d\n"

set_option maxRecDepth 100000 in
theorem shows_shelteredSource : (extendedMethod? shelteredSource).any fun (before, after) =>
    (indentations (.method before) (.method after) ({} : Cursor Unit)).all
        (fun text => (visible text).isEmpty) &&
      (rewrittenSpaces (.method before) (.method after)).all Space.isBlank &&
      (Layout.indent (.method before) (.method after) ({} : Cursor Unit)).print != after.print := by
  decide +kernel

theorem comments_on_other_lines_still_show :
    ∃ before after, extendedMethod? shelteredSource = some (before, after) ∧
      (Layout.indent (.method before) (.method after) ({} : Cursor Unit)).print ≠ after.print ∧
      visible (Layout.indent (.method before) (.method after) ({} : Cursor Unit)).print =
        visible after.print := by
  obtain ⟨⟨before, after⟩, hsome, htest⟩ := (Option.any_eq_true _ _).mp shows_shelteredSource
  simp only [Bool.and_eq_true, List.all_eq_true, List.isEmpty_iff, bne_iff_ne] at htest
  obtain ⟨⟨hindentations, hrewritten⟩, hne⟩ := htest
  exact ⟨before, after, hsome, hne, (indent_shows_all_iff hindentations).mpr hrewritten⟩

/-- A method whose body is a comment and ends in the same line. -/
def closingSource : String := "class A \x7b void m() \x7b /* c */ \x7d \x7d"

set_option maxRecDepth 100000 in
theorem hides_closingSource : (extendedMethod? closingSource).any fun (before, after) =>
    visible (Layout.indent (.method before) (.method after) ({} : Cursor Unit)).print !=
      visible after.print := by
  decide +kernel

/-- A comment in front of a closing brace in the same line is lost. -/
theorem closing_comment_is_overwritten :
    ∃ before after, extendedMethod? closingSource = some (before, after) ∧
      visible (Layout.indent (.method before) (.method after) ({} : Cursor Unit)).print ≠
        visible after.print := by
  obtain ⟨⟨before, after⟩, hsome, htest⟩ := (Option.any_eq_true _ _).mp hides_closingSource
  exact ⟨before, after, hsome, bne_iff_ne.mp htest⟩

end JavaMigration.Edit.Layout
