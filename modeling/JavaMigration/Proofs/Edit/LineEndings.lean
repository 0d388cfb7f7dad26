import JavaMigration.Proofs.Edit.ImportedNames
import JavaMigration.Proofs.Edit.Synthesis
import JavaMigration.Proofs.Source.LineEndings

/-!
# Line endings of edited code

An edit takes its line breaks from the code around it. In a tree that has one line ending throughout
it finds that one, so that code which is laid out and imports which are added or removed leave the
tree as even as it was.
-/

namespace JavaMigration.Edit

open Java Source Text

variable {e : LineEnding} {μ : Type}

/-! ## The code around -/

/-- The nodes from one up to the root have the line ending throughout, and so have the spaces in
front of them. There is a line break somewhere, unless it is the one that is taken where there is
none. -/
structure Around (e : LineEnding) (path : List Node) : Prop where
  print : ∀ n ∈ path, e.Throughout n.print
  lead : ∀ n ∈ path, e.Throughout n.lead.text
  breaks : e = .crlf → ∃ n ∈ path, '\n' ∈ n.print.toList

theorem Around.cons {path : List Node} (h : Around e path) {n : Node}
    (hprint : e.Throughout n.print) (hlead : e.Throughout n.lead.text) : Around e (n :: path) where
  print := List.forall_mem_cons.mpr ⟨hprint, h.print⟩
  lead := List.forall_mem_cons.mpr ⟨hlead, h.lead⟩
  breaks he := by
    obtain ⟨m, hm, hbreak⟩ := h.breaks he
    exact ⟨m, List.mem_cons_of_mem _ hm, hbreak⟩

theorem Around.enclosingLineEnding_eq {before : Node} {c : Cursor μ} (h : Around e c.path)
    (hcursor : c.path.head? = some before) :
    Layout.enclosingLineEnding before c = e.text := by
  have hmem := List.mem_of_mem_head? hcursor
  unfold Layout.enclosingLineEnding
  split
  · next n hfind =>
    have hn : n ∈ c.path :=
      (List.mem_cons.mp (List.mem_of_find?_eq_some hfind)).elim (· ▸ hmem) id
    have hbreak := List.find?_some hfind
    exact LineEnding.lineEnding_eq (h.print n hn) fun _ => List.contains_iff_mem.mp hbreak
  · next hnone =>
    cases e with
    | lf => rfl
    | crlf =>
      obtain ⟨n, hn, hbreak⟩ := h.breaks rfl
      exact absurd (List.contains_iff_mem.mpr hbreak)
        (List.find?_eq_none.mp hnone n (List.mem_cons_of_mem _ hn))

theorem Around.inOneLine_ownerIndent {lead : Space} {c : Cursor μ} (h : Around e c.path)
    (hlead : e.Throughout lead.text) : e.InOneLine (Layout.ownerIndent lead c) := by
  unfold Layout.ownerIndent
  cases hown : lead.indent? with
  | some indent => exact Space.inOneLine_indent hlead hown
  | none =>
    cases hfound : c.path.findSome? (·.lead.indent?) with
    | none => exact LineEnding.inOneLine_of_unbroken (by decide)
    | some indent =>
      obtain ⟨n, hn, hindent⟩ := List.exists_of_findSome?_eq_some hfound
      simpa using Space.inOneLine_indent (h.lead n hn) hindent

/-! ## Laid out blocks -/

namespace Layout

theorem inOneLine_unitFor (owner : String) : e.InOneLine (unitFor owner) := by
  unfold unitFor
  split <;> exact LineEnding.inOneLine_of_unbroken (by decide)

/-- However a new statement is laid out with the line ending, it has it throughout. -/
def Settles (e : LineEnding) (s : Statement) : Prop :=
  ∀ {indent step : String} (members : Bool) (index : Nat), e.InOneLine indent → e.InOneLine step →
    Even e [layStatement members indent step e.text index s]

theorem layStatement_withId (members : Bool) (indent step nl : String) (index : Nat) (s : Statement)
    (id : StatementId) :
    layStatement members indent step nl index (s.withId id) =
      (layStatement members indent step nl index s).withId id := by
  cases s <;> rfl

theorem newline_mem_lead_layStatement {nl : String} (h : '\n' ∈ nl.toList) (members : Bool)
    (indent step : String) (index : Nat) (s : Statement) :
    '\n' ∈ (layStatement members indent step nl index s).lead.text.toList := by
  have hline : ∀ blank : Bool, '\n' ∈ ((if blank then nl ++ nl else nl) ++ indent).toList := by
    intro blank
    cases blank <;> simp [h]
  cases s with
  | method d => exact hline (members && decide (index > 0))
  | type d => exact hline (members && decide (index > 0))
  | vars d => exact hline false
  | call c => exact hline false
  | raw r => exact hline false

variable {b : Block} {new : List Statement} {owner : String}

/-- New statements are indented like the old ones. -/
theorem inOneLine_indent {ss : List Statement} (hss : ∀ s ∈ ss, e.Throughout s.lead.text)
    (howner : e.InOneLine owner) :
    e.InOneLine ((ss.findSome? (·.lead.indent?)).getD (owner ++ unitFor owner)) := by
  cases hfound : ss.findSome? (·.lead.indent?) with
  | none => exact howner.append (inOneLine_unitFor owner)
  | some indent =>
    obtain ⟨s, hs, hindent⟩ := List.exists_of_findSome?_eq_some hfound
    exact Space.inOneLine_indent (hss s hs) hindent

/-- A step of indentation is what a statement is indented by further than its owner. -/
theorem inOneLine_step {indent : String} (hindent : e.InOneLine indent) (owner : String) :
    e.InOneLine (match Text.stripStart? indent owner with
      | some s => if s.isEmpty then unitFor owner else s
      | none => unitFor owner) := by
  split
  · next step hstep =>
    obtain ⟨r, hr, rfl⟩ := Option.map_eq_some_iff.mp hstep
    split
    · exact inOneLine_unitFor owner
    · refine hindent.of_subset ?_
      rw [dropStart?_eq_some_iff.mp hr, String.toList_ofList]
      exact List.subset_append_right _ _
  · exact inOneLine_unitFor owner

/-- A block with new statements laid out behind its own is as even as it was. -/
theorem even_layBlock (hb : b.Even e) (hnew : ∀ s ∈ new, Settles e s) (howner : e.InOneLine owner)
    (members : Bool) : (layBlock b (b.append new) owner members e.text).Even e := by
  unfold layBlock
  extract_lets isOld indent step
  have hold : ∀ s ∈ (b.append new).statements, isOld s = true → Even e [s] := by
    intro s hs hid
    rcases Block.mem_append hs with ⟨hmem, -⟩ | ⟨-, hfresh⟩
    · exact even_iff_forall.mp hb.statements s hmem
    · exact absurd (List.contains_iff_mem.mp hid) hfresh
  split
  · next hall =>
    exact ⟨hb.lead, even_iff_forall.mpr fun s hs => hold s hs (List.all_eq_true.mp hall s hs),
      hb.close⟩
  · have hindent : e.InOneLine indent := inOneLine_indent (fun s hs =>
      (hold s (List.mem_of_mem_filter hs) (List.of_mem_filter hs)).throughout_lead) howner
    have hstep : e.InOneLine step := inOneLine_step hindent owner
    refine ⟨hb.lead, even_iff_forall.mpr fun t ht => ?_, ?_⟩
    · obtain ⟨i, hi, rfl⟩ := List.mem_mapIdx.mp ht
      have hs := List.getElem_mem hi
      split
      · next hid => exact hold _ hs hid
      · next hid =>
        rcases Block.mem_append hs with ⟨-, hmem⟩ | ⟨⟨s, hs, id, heq⟩, -⟩
        · exact absurd (List.contains_iff_mem.mpr hmem) hid
        · rw [heq, layStatement_withId, even_withId_iff]
          exact hnew s hs members i hindent hstep
    · dsimp only
      split
      · exact e.throughout_text.append howner.throughout
      · exact hb.close

/-- New statements are on lines of their own. -/
theorem breaks_layBlock {nl : String} (h : '\n' ∈ nl.toList) (hne : new ≠ []) (owner : String)
    (members : Bool) :
    Breaks (segmentsOf (layBlock b (b.append new) owner members nl).statements) := by
  obtain ⟨t, rest, rfl⟩ := List.exists_cons_of_ne_nil hne
  obtain ⟨s, hs, hfresh⟩ : ∃ s ∈ (b.append (t :: rest)).statements, s.id ∉ b.ids := by
    have hmem : t.withId (b.freshId + 0) ∈
        (t :: rest).mapIdx fun i s => s.withId (b.freshId + i) := by
      rw [List.mapIdx_cons]
      exact List.mem_cons_self
    exact ⟨_, List.mem_append_right _ hmem, (Block.mem_withIds hmem).2⟩
  unfold layBlock
  extract_lets isOld indent step
  have hnew : ¬isOld s := fun hid => hfresh (List.contains_iff_mem.mp hid)
  rw [if_neg fun hall => hnew (List.all_eq_true.mp hall s hs)]
  obtain ⟨i, hi, rfl⟩ := List.getElem_of_mem hs
  exact breaks_segmentsOf (List.mem_mapIdx.mpr ⟨i, hi, if_neg hnew⟩)
    (newline_mem_lead_layStatement h members indent step i _)

section Bodies

variable {c : Cursor μ} (haround : Around e c.path)

include haround

/-- The body of a type is as even with new members as without. -/
theorem even_typeBody {d : TypeDecl} (hcursor : c.path.head? = some (.type d))
    (hd : d.body.Even e) (hnew : ∀ s ∈ new, Settles e s) : (indented.typeBody d new c).Even e := by
  have hlead := haround.lead _ (List.mem_of_mem_head? hcursor)
  unfold typeBody extend
  rw [haround.enclosingLineEnding_eq hcursor]
  exact even_layBlock hd hnew (haround.inOneLine_ownerIndent hlead) true

theorem even_methodBody {d : MethodDecl} (hcursor : c.path.head? = some (.method d))
    (hb : b.Even e) (hnew : ∀ s ∈ new, Settles e s) : (indented.methodBody d b new c).Even e := by
  have hlead := haround.lead _ (List.mem_of_mem_head? hcursor)
  unfold methodBody extend
  rw [haround.enclosingLineEnding_eq hcursor]
  exact even_layBlock hb hnew (haround.inOneLine_ownerIndent hlead) false

theorem breaks_typeBody {d : TypeDecl} (hcursor : c.path.head? = some (.type d)) (hne : new ≠ []) :
    Breaks (segmentsOf (indented.typeBody d new c).statements) := by
  unfold typeBody extend
  rw [haround.enclosingLineEnding_eq hcursor]
  exact breaks_layBlock e.newline_mem_text hne _ true

theorem breaks_methodBody {d : MethodDecl} (hcursor : c.path.head? = some (.method d))
    (hne : new ≠ []) : Breaks (segmentsOf (indented.methodBody d b new c).statements) := by
  unfold methodBody extend
  rw [haround.enclosingLineEnding_eq hcursor]
  exact breaks_layBlock e.newline_mem_text hne _ false

end Bodies

/-! ## New statements -/

/-- The space of a new statement. -/
theorem throughout_newline {indent : String} (h : e.InOneLine indent) (blank : Bool) :
    e.Throughout ((if blank then e.text ++ e.text else e.text) ++ indent) := by
  refine LineEnding.Throughout.append ?_ h.throughout
  split
  · exact e.throughout_text.append e.throughout_text
  · exact e.throughout_text

theorem settles_of_not_method {s : Statement} (h : s.isMethod = false)
    (hs : Even e [s.withLead .empty]) : Settles e s := by
  intro indent step members index hindent _
  have hlead : ∀ lead : Space, e.Throughout lead.text → Even e [s.withLead lead] := by
    intro lead hlead
    have hlaid := hs.withLead hlead
    cases s <;> exact hlaid
  have hline := throughout_newline hindent
  cases s with
  | method d => cases h
  | type d => exact hlead _ (hline (members && decide (index > 0)))
  | vars d => exact hlead _ (hline false)
  | call c => exact hlead _ (hline false)
  | raw r => exact hlead _ (hline false)

/-- The code of a method of which all spaces are laid out. -/
structure EvenCode (e : LineEnding) (d : MethodDecl) : Prop where
  annotations : ∀ a ∈ d.annotations, e.Throughout ("@" ++ a.name.print ++ a.arguments.getD "")
  modifiers : ∀ m ∈ d.modifiers, e.Throughout m.word
  returnType : e.Throughout d.returnType.name
  name : e.Throughout d.name.name
  parameters : e.Throughout d.parameters
  throws : ∀ i ∈ d.thrown, e.Throughout i.name
  body : ∀ b, d.body = some b → ∀ s ∈ b.statements, ∀ lead : Space, e.Throughout lead.text →
    Even e [s.withLead lead]
  close : e.Throughout d.close.text

section Laid

variable {d : MethodDecl} (h : EvenCode e d)

include h

/-- What stands before the return type, with spaces of its own. -/
theorem uniform_leading_laid {line behind : Space} (hline : e.Throughout line.text)
    (hbehind : e.Throughout behind.text) :
    Uniform e (leadingSegments
      (d.annotations.mapIdx fun i a => { a with lead := if i = 0 then .empty else line })
      (d.modifiers.mapIdx fun i m => { m with lead := if i = 0 then behind else .single })) := by
  refine uniform_append_iff.mpr ⟨uniform_flatMap_iff.mpr ?_, uniform_flatMap_iff.mpr ?_⟩
  · intro a ha
    obtain ⟨i, hi, rfl⟩ := List.mem_mapIdx.mp ha
    have hcode := h.annotations _ (List.getElem_mem hi)
    refine uniform_cons_iff.mpr ⟨?_, uniform_cons_iff.mpr ⟨hcode, uniform_nil⟩⟩
    show e.Throughout (if i = 0 then Space.empty else line).text
    split
    · exact e.throughout_empty
    · exact hline
  · intro m hm
    obtain ⟨i, hi, rfl⟩ := List.mem_mapIdx.mp hm
    have hcode := h.modifiers _ (List.getElem_mem hi)
    refine uniform_cons_iff.mpr ⟨?_, uniform_cons_iff.mpr ⟨hcode, uniform_nil⟩⟩
    show e.Throughout (if i = 0 then behind else Space.single).text
    split
    · exact hbehind
    · exact Space.throughout_single e

theorem uniform_throws_laid :
    Uniform e (((d.throws.map fun t => { lead := .single, types := t.types.map fun i =>
      { i with lead := .single } : Throws }).map (·.segments)).getD []) := by
  cases ht : d.throws with
  | none => exact uniform_nil
  | some t =>
    have hthrown : d.thrown = t.types := by rw [MethodDecl.thrown, ht]
    have hsingle := Space.throughout_single e
    refine Throws.uniform_segments_iff.mpr ⟨hsingle, List.forall_mem_map.mpr fun i hi => ?_⟩
    exact hsingle.append (h.throws i (hthrown ▸ hi))

theorem uniform_headSegments_layMethod {indent : String} (hindent : e.InOneLine indent)
    (step : String) {lead : Space} (hlead : e.Throughout lead.text) :
    Uniform e (MethodDecl.headSegments { layMethod d indent step e.text with lead }) := by
  have hline : e.Throughout (⟨e.text ++ indent⟩ : Space).text := throughout_newline hindent false
  unfold layMethod
  extract_lets line behind inner
  have hbehind : e.Throughout behind.text := by
    unfold behind
    split
    · exact e.throughout_empty
    · exact hline
  have hreturn : e.Throughout (if d.modifiers.isEmpty then behind else .single : Space).text := by
    split
    · exact hbehind
    · exact Space.throughout_single e
  have hname : e.Throughout (Space.single.text ++ d.name.name ++ d.parameters) :=
    ((Space.throughout_single e).append h.name).append h.parameters
  unfold MethodDecl.headSegments
  refine uniform_append_iff.mpr ⟨?_, uniform_throws_laid h⟩
  simp only [List.cons_append, uniform_cons_iff, uniform_append_iff, Identifier.segments, uniform_nil,
    and_true, Segment.print_space, Segment.print_code]
  exact ⟨hlead, ⟨uniform_leading_laid h hline hbehind, hreturn, h.returnType⟩, hname⟩

end Laid

theorem settles_method {d : MethodDecl} (h : EvenCode e d) : Settles e (.method d) := by
  intro indent step members index hindent hstep
  have hline : e.Throughout (⟨e.text ++ indent⟩ : Space).text := throughout_newline hindent false
  have hinner : e.Throughout (⟨e.text ++ indent ++ step⟩ : Space).text :=
    hline.append hstep.throughout
  let laid : MethodDecl := { layMethod d indent step e.text with
    lead := ⟨(if members && decide (index > 0) then e.text ++ e.text else e.text) ++ indent⟩ }
  have hlaid : layStatement members indent step e.text index (.method d) = .method laid := rfl
  have hhead : Uniform e laid.headSegments :=
    uniform_headSegments_layMethod h hindent step (throughout_newline hindent _)
  rw [hlaid]
  cases hb : d.body with
  | none =>
    have hbody : laid.body = none := by
      unfold laid layMethod
      simp only [hb, Option.map_none]
    exact (even_signature_iff hbody).mpr ⟨hhead, h.close⟩
  | some b =>
    have hbody : laid.body = some ⟨.single,
        b.statements.map (·.withLead ⟨e.text ++ indent ++ step⟩),
        if b.statements.isEmpty then .empty else ⟨e.text ++ indent⟩⟩ := by
      unfold laid layMethod
      simp only [hb, Option.map_some]
    refine (even_method_iff hbody).mpr ⟨hhead, Space.throughout_single e, ?_, ?_⟩
    · refine even_iff_forall.mpr (List.forall_mem_map.mpr fun s hs => ?_)
      exact h.body b hb s hs _ hinner
    · dsimp only
      split
      · exact e.throughout_empty
      · exact hline

end Layout

/-! ## Imports -/

theorem uniform_withLead {i : Import} (h : Uniform e i.segments) {lead : Space}
    (hlead : e.Throughout lead.text) : Uniform e { i with lead }.segments :=
  uniform_cons_iff.mpr ⟨hlead, (uniform_cons_iff.mp h).2⟩

theorem throughout_separator (sameGroup : Bool) : e.Throughout (separator sameGroup e.text).text := by
  unfold separator
  dsimp only
  split
  · exact e.throughout_text
  · exact e.throughout_text.append e.throughout_text

theorem newline_mem_separator {nl : String} (h : '\n' ∈ nl.toList) (sameGroup : Bool) :
    '\n' ∈ (separator sameGroup nl).text.toList := by
  cases sameGroup <;> simp [separator, h]

theorem uniform_insertImport {new : Import} {imports : List Import} (hnew : Uniform e new.segments)
    (h : ∀ i ∈ imports, Uniform e i.segments) :
    ∀ i ∈ insertImport new e.text imports, Uniform e i.segments := by
  have hsplit := splitBehindLast_append (sortsBefore · new) imports
  unfold insertImport
  extract_lets sameGroup
  generalize splitBehindLast (sortsBefore · new) imports = parts at hsplit ⊢
  rw [← hsplit, List.forall_mem_append] at h
  obtain ⟨hbefore, hafter⟩ := h
  split
  · exact List.forall_mem_singleton.mpr hnew
  · next first rest =>
    obtain ⟨hfirst, hrest⟩ := List.forall_mem_cons.mp hafter
    have hlead := (uniform_cons_iff.mp hfirst).1
    exact List.forall_mem_cons.mpr ⟨uniform_withLead hnew hlead,
      List.forall_mem_cons.mpr ⟨uniform_withLead hfirst (throughout_separator _), hrest⟩⟩
  · next before after _ _ =>
    refine List.forall_mem_append.mpr ⟨hbefore, List.forall_mem_cons.mpr
      ⟨uniform_withLead hnew (throughout_separator _), ?_⟩⟩
    split
    · exact List.forall_mem_nil _
    · next next rest =>
      obtain ⟨hnext, hrest⟩ := List.forall_mem_cons.mp hafter
      split
      · exact List.forall_mem_cons.mpr ⟨uniform_withLead hnext (throughout_separator _), hrest⟩
      · exact hafter

/-- Among other imports, a new one is on a line of its own. -/
theorem breaks_insertImport {new : Import} {nl : String} {imports : List Import}
    (h : '\n' ∈ nl.toList) (hne : imports ≠ []) :
    ∃ i ∈ insertImport new nl imports, '\n' ∈ i.lead.text.toList := by
  have hsplit := splitBehindLast_append (sortsBefore · new) imports
  unfold insertImport
  extract_lets sameGroup
  generalize splitBehindLast (sortsBefore · new) imports = parts at hsplit ⊢
  split
  · exact absurd hsplit.symm hne
  · next first rest =>
    exact ⟨_, List.mem_cons_of_mem _ List.mem_cons_self, newline_mem_separator h _⟩
  · exact ⟨_, List.mem_append_right _ List.mem_cons_self, newline_mem_separator h _⟩

theorem even_setApart {types : List Statement} (h : Even e types) :
    Even e (setApart e.text types) := by
  cases types with
  | nil => exact h
  | cons first rest =>
    obtain ⟨hfirst, hrest⟩ := even_cons_iff.mp h
    rw [setApart]
    split
    · exact h
    · refine even_cons_iff.mpr ⟨hfirst.withLead ?_, hrest⟩
      exact (e.throughout_text.append e.throughout_text).append
        (Space.throughout_dropNewlines hfirst.throughout_lead)

theorem breaks_setApart {nl : String} (h : '\n' ∈ nl.toList) {types : List Statement}
    (hne : types ≠ []) : Breaks (segmentsOf (setApart nl types)) := by
  obtain ⟨first, rest, rfl⟩ := List.exists_cons_of_ne_nil hne
  have hblank : '\n' ∈ (nl ++ nl).toList := by simp [h]
  rw [setApart]
  split
  · next hstart =>
    refine breaks_segmentsOf List.mem_cons_self ?_
    exact (List.isPrefixOf_iff_prefix.mp hstart).subset hblank
  · refine breaks_segmentsOf List.mem_cons_self ?_
    rw [Statement.lead_withLead, String.toList_append]
    exact List.mem_append_left _ hblank

theorem even_addImport {u : CompilationUnit} (h : u.Even e)
    (hbreak : e = .crlf → Breaks u.segments) {name : String} (hname : e.Throughout name) :
    ((addImport u name).get u).Even e := by
  have hending : Text.lineEnding u.print = e.text :=
    LineEnding.lineEnding_eq h.throughout_print fun he => CompilationUnit.breaks_iff.mp (hbreak he)
  have htext : e.Throughout ("import " ++ name ++ ";") :=
    ((LineEnding.throughout_of_unbroken (by decide)).append hname).append
      (LineEnding.throughout_of_unbroken (by decide))
  have hnew : ∀ id, ∀ lead : Space, e.Throughout lead.text →
      Uniform e ({ id, lead, target := name } : Import).segments := fun _ _ hlead =>
    uniform_cons_iff.mpr ⟨hlead, uniform_cons_iff.mpr ⟨htext, uniform_nil⟩⟩
  unfold addImport
  rw [hending]
  split
  · exact h
  · extract_lets nl id
    split
    · refine ⟨h.lead, h.package, List.forall_mem_singleton.mpr (hnew id _ ?_), even_setApart h.types,
        h.close⟩
      show e.Throughout (if u.package.isSome then e.text ++ e.text else "")
      split
      · exact e.throughout_text.append e.throughout_text
      · exact e.throughout_empty
    · exact ⟨h.lead, h.package, uniform_insertImport (hnew id .empty e.throughout_empty) h.imports,
        h.types, h.close⟩

/-- A unit with a line break has one also with a further import. -/
theorem breaks_addImport {u : CompilationUnit} (h : Breaks u.segments) (name : String) :
    Breaks ((addImport u name).get u).segments := by
  have hnl := newline_mem_lineEnding u.print
  unfold addImport
  split
  · exact h
  · rw [CompilationUnit.breaks_segments_iff] at h ⊢
    split
    · next himports =>
      refine h.imp_right (Or.imp_right (Or.imp ?_ (Or.imp_left ?_)))
      · rintro ⟨i, hi, -⟩
        rw [himports] at hi
        cases hi
      · intro htypes
        refine breaks_setApart hnl fun hnone => ?_
        rw [hnone] at htypes
        obtain ⟨p, hp, -⟩ := htypes
        cases hp
    · next hne =>
      refine .inr (.inr (.inl ?_))
      obtain ⟨i, hi, hlead⟩ := breaks_insertImport hnl hne
      exact ⟨i, hi, breaks_cons_iff.mpr (.inl hlead)⟩

theorem uniform_dropImport {p : Import → Bool} {isFirst : Bool} {imports rest : List Import}
    (h : ∀ i ∈ imports, Uniform e i.segments) (hdrop : dropImport p isFirst imports = some rest) :
    ∀ i ∈ rest, Uniform e i.segments := by
  induction imports generalizing isFirst rest with
  | nil => cases hdrop
  | cons i imports ih =>
    obtain ⟨hi, himports⟩ := List.forall_mem_cons.mp h
    unfold dropImport at hdrop
    split at hdrop
    · split at hdrop
      · cases hdrop
        exact List.forall_mem_nil _
      · next next more =>
        obtain ⟨hnext, hmore⟩ := List.forall_mem_cons.mp himports
        split at hdrop <;> cases hdrop
        · exact List.forall_mem_cons.mpr
            ⟨uniform_withLead hnext (uniform_cons_iff.mp hi).1, hmore⟩
        · exact himports
    · obtain ⟨kept, hkept, rfl⟩ := Option.map_eq_some_iff.mp hdrop
      exact List.forall_mem_cons.mpr ⟨hi, ih himports hkept⟩

theorem even_moveUp {types : List Statement} (h : Even e types) : Even e (moveUp types) := by
  cases types with
  | nil => exact h
  | cons first rest =>
    obtain ⟨hfirst, hrest⟩ := even_cons_iff.mp h
    exact even_cons_iff.mpr
      ⟨hfirst.withLead (Space.throughout_dropNewlines hfirst.throughout_lead), hrest⟩

theorem even_removeImport {u : CompilationUnit} (h : u.Even e) (name : String) :
    ((removeImport u name).get u).Even e := by
  unfold removeImport
  split
  · exact h
  · next imports hdrop =>
    split
    · exact h
    · refine ⟨h.lead, h.package, uniform_dropImport h.imports hdrop, ?_, h.close⟩
      show Even e (if imports.isEmpty && u.package.isNone then moveUp u.types else u.types)
      split
      · exact even_moveUp h.types
      · exact h.types

/-- Import edits leave a unit as even as it was. Where they add something there is a line break
already, and one stays there until everything is added. -/
theorem even_apply {edits : ImportEdits} {u : CompilationUnit} (h : u.Even e)
    (hbreak : edits.additions ≠ [] → Breaks u.segments)
    (hnames : ∀ name ∈ edits.additions, e.Throughout name) :
    ((edits.apply u).get u).Even e := by
  have hremoved : ∀ v : CompilationUnit, v.Even e →
      ((ImportEdits.applyAll removeImport v edits.removals).get v).Even e :=
    applyAll_rel (R := fun v w => v.Even e → w.Even e) (fun _ => id) (fun hv hw => hw ∘ hv)
      fun v name _ hv => even_removeImport hv name
  rw [get_apply]
  refine hremoved _ ?_
  by_cases hnone : edits.additions = []
  · rw [hnone]
    exact h
  · refine (applyAll_rel (R := fun v w => v.Even e ∧ Breaks v.segments →
      w.Even e ∧ Breaks w.segments) (fun _ => id) (fun hv hw => hw ∘ hv) ?_ u ⟨h, hbreak hnone⟩).1
    rintro v name hname ⟨hv, hvbreak⟩
    exact ⟨even_addImport hv (fun _ => hvbreak) (hnames name hname), breaks_addImport hvbreak name⟩

end JavaMigration.Edit
