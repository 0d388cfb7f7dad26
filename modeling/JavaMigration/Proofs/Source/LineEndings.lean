import JavaMigration.Proofs.Source.Segments
import JavaMigration.Proofs.Text.Lines
import JavaMigration.Source.Node

/-!
# Line endings of a tree

A tree whose spaces and code all have one line ending. Unlike the text that the tree prints, every
part of it has that line ending then, so that parts can be moved and dropped.
-/

namespace JavaMigration.Source

open Text

variable {e : LineEnding}

/-- Every segment has the line ending. -/
def Uniform (e : LineEnding) (ps : List Segment) : Prop := ∀ p ∈ ps, e.Throughout p.print

@[simp] theorem uniform_nil : Uniform e [] := nofun

@[simp] theorem uniform_cons_iff {p : Segment} {ps : List Segment} :
    Uniform e (p :: ps) ↔ e.Throughout p.print ∧ Uniform e ps := List.forall_mem_cons

@[simp] theorem uniform_append_iff {ps qs : List Segment} :
    Uniform e (ps ++ qs) ↔ Uniform e ps ∧ Uniform e qs := List.forall_mem_append

theorem uniform_flatMap_iff {α : Type} {segments : α → List Segment} {as : List α} :
    Uniform e (as.flatMap segments) ↔ ∀ a ∈ as, Uniform e (segments a) := List.forall_mem_flatMap

theorem uniform_intersperse_iff {sep : Segment} (hsep : e.Throughout sep.print) {ps : List Segment} :
    Uniform e (ps.intersperse sep) ↔ Uniform e ps := by
  induction ps with
  | nil => exact Iff.rfl
  | cons p ps ih =>
    cases ps with
    | nil => exact Iff.rfl
    | cons q ps =>
      rw [show (p :: q :: ps).intersperse sep = p :: sep :: (q :: ps).intersperse sep from rfl,
        uniform_cons_iff, uniform_cons_iff, ih, uniform_cons_iff (p := p)]
      exact and_congr_right fun _ => and_iff_right hsep

theorem Throws.uniform_segments_iff {t : Throws} :
    Uniform e t.segments ↔ e.Throughout t.lead.text ∧ ∀ i ∈ t.types, e.Throughout i.print := by
  have hkey : e.Throughout "throws" := LineEnding.throughout_of_unbroken (by decide)
  have hcomma : e.Throughout "," := LineEnding.throughout_of_unbroken (by decide)
  rw [Throws.segments, uniform_append_iff, uniform_intersperse_iff hcomma, Uniform, Uniform,
    List.forall_mem_map]
  simp [hkey]

/-- What is printed of uniform segments has their line ending. -/
theorem Uniform.throughout_print {ps : List Segment} (h : Uniform e ps) :
    e.Throughout (printSegments ps) := by
  induction ps with
  | nil => exact e.throughout_empty
  | cons p ps ih =>
    obtain ⟨hp, hps⟩ := uniform_cons_iff.mp h
    rw [printSegments_cons]
    exact hp.append (ih hps)

/-- The indentation of a line is in one line. -/
theorem Space.throughout_single (e : LineEnding) : e.Throughout Space.single.text :=
  LineEnding.throughout_of_unbroken (by decide)

theorem Space.inOneLine_indent {s : Space} {indent : String} (hs : e.Throughout s.text)
    (h : s.indent? = some indent) : e.InOneLine indent := by
  unfold Space.indent? splitLast at h
  rw [Option.map_map] at h
  obtain ⟨⟨before, last⟩, hcut, rfl⟩ := Option.map_eq_some_iff.mp h
  have hlast : (String.ofList last).toList = last := String.toList_ofList
  refine hs.inOneLine ?_ ?_
  · rw [cutLast_eq hcut]
    exact fun c hc => List.mem_append_right _ (.tail _ (hlast ▸ hc))
  · exact hlast.symm ▸ not_mem_last hcut

theorem Space.throughout_dropNewlines {s : Space} (hs : e.Throughout s.text) :
    e.Throughout s.dropNewlines.text := by
  let breaks (c : Char) : Bool := c == '\n' || c == '\r'
  have htext : String.ofList (s.text.toList.takeWhile breaks) ++ s.dropNewlines.text = s.text := by
    unfold dropNewlines dropWhileStart
    rw [← String.ofList_append, List.takeWhile_append_dropWhile, String.ofList_toList]
  rw [← htext] at hs
  refine hs.right (.inr fun hhead => ?_)
  unfold dropNewlines dropWhileStart at hhead
  rw [String.toList_ofList] at hhead
  have hnot := List.head?_dropWhile_not breaks s.text.toList
  rw [hhead] at hnot
  cases hnot

/-- There is a line break in what is printed. -/
def Breaks (ps : List Segment) : Prop := ∃ p ∈ ps, '\n' ∈ p.print.toList

@[simp] theorem breaks_cons_iff {p : Segment} {ps : List Segment} :
    Breaks (p :: ps) ↔ '\n' ∈ p.print.toList ∨ Breaks ps := by
  simp [Breaks]

@[simp] theorem breaks_append_iff {ps qs : List Segment} :
    Breaks (ps ++ qs) ↔ Breaks ps ∨ Breaks qs := by
  simp only [Breaks, List.mem_append, or_and_right, exists_or]

theorem breaks_flatMap_iff {α : Type} {segments : α → List Segment} {as : List α} :
    Breaks (as.flatMap segments) ↔ ∃ a ∈ as, Breaks (segments a) := by
  simp only [Breaks, List.mem_flatMap]
  exact ⟨fun ⟨p, ⟨a, ha, hp⟩, hbreak⟩ => ⟨a, ha, p, hp, hbreak⟩,
    fun ⟨a, ha, p, hp, hbreak⟩ => ⟨p, ⟨a, ha, hp⟩, hbreak⟩⟩

theorem breaks_iff {ps : List Segment} : Breaks ps ↔ '\n' ∈ (printSegments ps).toList := by
  induction ps with
  | nil => simp [Breaks]
  | cons p ps ih =>
    rw [breaks_cons_iff, ih, printSegments_cons, String.toList_append, List.mem_append]

theorem CompilationUnit.breaks_segments_iff {u : CompilationUnit} :
    Breaks u.segments ↔ '\n' ∈ u.lead.text.toList ∨ Breaks ((u.package.map (·.segments)).getD []) ∨
      (∃ i ∈ u.imports, Breaks i.segments) ∨ Breaks (segmentsOf u.types) ∨
        '\n' ∈ u.close.text.toList := by
  have hclose : Breaks [.space u.close] ↔ '\n' ∈ u.close.text.toList := by simp [Breaks]
  simp only [segments, List.cons_append, breaks_cons_iff, breaks_append_iff, breaks_flatMap_iff,
    hclose, or_assoc]
  rfl

theorem CompilationUnit.breaks_iff {u : CompilationUnit} :
    Breaks u.segments ↔ '\n' ∈ u.print.toList := by
  rw [Source.breaks_iff, print_segments]

/-! ## Statements -/

/-- All code and all space of some statements has the line ending, and so have the names of their
variables. -/
structure Even (e : LineEnding) (ss : List Statement) : Prop where
  segments : Uniform e (segmentsOf ss)
  names : ∀ d ∈ allVarsOf ss, ∀ v ∈ d.declarators, e.Throughout v.name.name

theorem even_iff {ss : List Statement} : Even e ss ↔ Uniform e (segmentsOf ss) ∧
    ∀ d ∈ allVarsOf ss, ∀ v ∈ d.declarators, e.Throughout v.name.name :=
  ⟨fun h => ⟨h.segments, h.names⟩, fun h => ⟨h.1, h.2⟩⟩

@[simp] theorem even_nil : Even e [] := ⟨nofun, nofun⟩

theorem even_append_iff {ss ts : List Statement} : Even e (ss ++ ts) ↔ Even e ss ∧ Even e ts := by
  simp only [even_iff, segmentsOf_append, allVarsOf_append, uniform_append_iff,
    List.forall_mem_append]
  exact and_and_and_comm

theorem even_cons_iff {s : Statement} {rest : List Statement} :
    Even e (s :: rest) ↔ Even e [s] ∧ Even e rest := @even_append_iff e [s] rest

theorem even_iff_forall {ss : List Statement} : Even e ss ↔ ∀ s ∈ ss, Even e [s] := by
  induction ss with
  | nil => simp
  | cons s ss ih => rw [even_cons_iff, ih, List.forall_mem_cons]

/-- The spaces and the statements of a block; there is no line ending in its braces. -/
structure Block.Even (e : LineEnding) (b : Block) : Prop where
  lead : e.Throughout b.lead.text
  statements : Source.Even e b.statements
  close : e.Throughout b.close.text

theorem Block.even_iff {b : Block} :
    b.Even e ↔ e.Throughout b.lead.text ∧ Source.Even e b.statements ∧ e.Throughout b.close.text :=
  ⟨fun h => ⟨h.lead, h.statements, h.close⟩, fun h => ⟨h.1, h.2.1, h.2.2⟩⟩

theorem Block.uniform_segments_iff {b : Block} :
    Uniform e b.segments ↔
      e.Throughout b.lead.text ∧ Uniform e (segmentsOf b.statements) ∧ e.Throughout b.close.text := by
  have hopen : e.Throughout "\x7b" := LineEnding.throughout_of_unbroken (by decide)
  have hclose : e.Throughout "\x7d" := LineEnding.throughout_of_unbroken (by decide)
  simp [b.segments_eq, hopen, hclose]

theorem even_type_iff {d : TypeDecl} :
    Even e [.type d] ↔ Uniform e d.headSegments ∧ d.body.Even e := by
  simp only [even_iff, Block.even_iff, segmentsOf, Statement.segments, d.segments_eq,
    List.append_nil, uniform_append_iff, Block.uniform_segments_iff, allVarsOf_cons, allVarsOf_nil,
    Statement.allVars_type]
  constructor
  · rintro ⟨⟨hhead, hlead, hstatements, hclose⟩, hnames⟩
    exact ⟨hhead, hlead, ⟨hstatements, hnames⟩, hclose⟩
  · rintro ⟨hhead, hlead, ⟨hstatements, hnames⟩, hclose⟩
    exact ⟨⟨hhead, hlead, hstatements, hclose⟩, hnames⟩

theorem even_method_iff {d : MethodDecl} {b : Block} (h : d.body = some b) :
    Even e [.method d] ↔ Uniform e d.headSegments ∧ b.Even e := by
  simp only [even_iff, Block.even_iff, segmentsOf, Statement.segments, d.segments_of_some h,
    List.append_nil, uniform_append_iff, Block.uniform_segments_iff, allVarsOf_cons, allVarsOf_nil,
    Statement.allVars_method h]
  constructor
  · rintro ⟨⟨hhead, hlead, hstatements, hclose⟩, hnames⟩
    exact ⟨hhead, hlead, ⟨hstatements, hnames⟩, hclose⟩
  · rintro ⟨hhead, hlead, ⟨hstatements, hnames⟩, hclose⟩
    exact ⟨⟨hhead, hlead, hstatements, hclose⟩, hnames⟩

theorem even_signature_iff {d : MethodDecl} (h : d.body = none) :
    Even e [.method d] ↔ Uniform e d.headSegments ∧ e.Throughout d.close.text := by
  have hend : e.Throughout ";" := LineEnding.throughout_of_unbroken (by decide)
  simp [even_iff, segmentsOf, Statement.segments, d.segments_of_none h, Statement.allVars_signature h,
    hend]

theorem even_vars_iff {d : VariableDecl} :
    Even e [.vars d] ↔ Uniform e d.segments ∧ ∀ v ∈ d.declarators, e.Throughout v.name.name := by
  simp [even_iff, segmentsOf, Statement.segments, Statement.allVars]

theorem VariableDecl.uniform_segments_iff {d : VariableDecl} :
    Uniform e d.segments ↔ e.Throughout d.lead.text ∧ (∀ a ∈ d.annotations, Uniform e a.segments) ∧
      (∀ m ∈ d.modifiers, Uniform e m.segments) ∧ Uniform e d.type.segments ∧
        Uniform e [.code (String.intercalate "," (d.declarators.map (·.print))), .space d.close,
          .code ";"] := by
  simp only [segments, leadingSegments, List.cons_append, uniform_cons_iff, uniform_append_iff,
    uniform_flatMap_iff, and_assoc, Segment.print_space]

theorem even_call_iff {c : Call} : Even e [.call c] ↔ Uniform e c.segments := by
  simp [even_iff, segmentsOf, Statement.segments, Statement.allVars]

theorem even_raw_iff {r : RawCode} : Even e [.raw r] ↔ Uniform e r.segments := by
  simp [even_iff, segmentsOf, Statement.segments, Statement.allVars]

theorem Statement.segments_eq (s : Statement) : s.segments = .space s.lead :: s.segments.tail := by
  rw [← s.segments_withLead, s.withLead_lead]

/-- A statement on a line of its own breaks the line. -/
theorem breaks_segmentsOf {ss : List Statement} {s : Statement} (hs : s ∈ ss)
    (h : '\n' ∈ s.lead.text.toList) : Breaks (segmentsOf ss) := by
  obtain ⟨front, back, rfl⟩ := List.append_of_mem hs
  rw [segmentsOf_append, segmentsOf, s.segments_eq]
  simp [h]

/-- The names of the variables of a statement do not depend on its space. -/
theorem Statement.allVars_withLead (s : Statement) (lead : Space) :
    (s.withLead lead).allVars.map (·.declarators) = s.allVars.map (·.declarators) := by
  cases s with
  | type d => cases d; rfl
  | method d => cases d; rfl
  | vars d => rfl
  | call c => rfl
  | raw r => rfl

theorem even_singleton_iff {s : Statement} :
    Even e [s] ↔ e.Throughout s.lead.text ∧ Uniform e s.segments.tail ∧
      ∀ vs ∈ s.allVars.map (·.declarators), ∀ v ∈ vs, e.Throughout v.name.name := by
  rw [even_iff, segmentsOf, segmentsOf, List.append_nil, s.segments_eq, uniform_cons_iff,
    List.tail_cons,
    allVarsOf_cons, allVarsOf_nil, List.append_nil, List.forall_mem_map, and_assoc]
  rfl

theorem Even.throughout_lead {s : Statement} (h : Even e [s]) : e.Throughout s.lead.text :=
  (even_singleton_iff.mp h).1

theorem Even.withLead {s : Statement} (h : Even e [s]) {lead : Space}
    (hlead : e.Throughout lead.text) : Even e [s.withLead lead] := by
  obtain ⟨-, hrest, hnames⟩ := even_singleton_iff.mp h
  rw [even_singleton_iff, s.lead_withLead, s.segments_withLead, s.allVars_withLead]
  exact ⟨hlead, hrest, hnames⟩

/-- Nor does anything but the identity change with it. -/
theorem even_withId_iff {s : Statement} {id : StatementId} : Even e [s.withId id] ↔ Even e [s] := by
  have hsegments : (s.withId id).segments = s.segments := by
    cases s with
    | type d => cases d; rfl
    | method d => cases d; rfl
    | vars d => rfl
    | call c => rfl
    | raw r => rfl
  have hvars : (s.withId id).allVars.map (·.declarators) = s.allVars.map (·.declarators) := by
    cases s with
    | type d => cases d; rfl
    | method d => cases d; rfl
    | vars d => rfl
    | call c => rfl
    | raw r => rfl
  have hlead : (s.withId id).lead = s.lead := by cases s <;> rfl
  rw [even_singleton_iff, even_singleton_iff, hsegments, hvars, hlead]

theorem Even.throughout_print {s : Statement} (h : Even e [s]) : e.Throughout s.print := by
  have hprint : printSegments (segmentsOf [s]) = s.print := by
    rw [print_segmentsOf, printStatements, printStatements, String.append_empty]
  rw [← hprint]
  exact h.segments.throughout_print

theorem Block.Even.throughout_print {b : Block} (h : b.Even e) : e.Throughout b.print := by
  have hopen : e.Throughout "\x7b" := LineEnding.throughout_of_unbroken (by decide)
  have hclose : e.Throughout "\x7d" := LineEnding.throughout_of_unbroken (by decide)
  rw [b.print_eq, ← print_segmentsOf]
  exact (((h.lead.append hopen).append h.statements.segments.throughout_print).append h.close).append
    hclose

/-- A line break in a body is one in the declaration. -/
theorem breaks_type {d : TypeDecl} (h : Breaks (segmentsOf d.body.statements)) :
    Breaks (segmentsOf [.type d]) := by
  rw [segmentsOf, Statement.segments, d.segments_eq, d.body.segments_eq]
  simp [h]

theorem breaks_method {d : MethodDecl} {b : Block} (hb : d.body = some b)
    (h : Breaks (segmentsOf b.statements)) : Breaks (segmentsOf [.method d]) := by
  rw [segmentsOf, Statement.segments, d.segments_of_some hb, b.segments_eq]
  simp [h]

/-! ## Units -/

/-- An import begins with its key word, so its space can be told from its text. -/
theorem Import.uniform_segments_iff {i : Import} : Uniform e i.segments ↔ e.Throughout i.print := by
  have hprint : i.print = i.lead.text ++
      ((if i.isStatic then "import static " else "import ") ++ i.target ++ ";") := by
    simp only [Import.print, String.append_assoc]
  rw [hprint, Import.segments, uniform_cons_iff, uniform_cons_iff, Segment.print_space,
    Segment.print_code]
  constructor
  · rintro ⟨hlead, htext, -⟩
    exact hlead.append htext
  · intro h
    refine ⟨h.left, h.right (.inr ?_), uniform_nil⟩
    cases i.isStatic <;> simp [String.toList_append]

structure CompilationUnit.Even (e : LineEnding) (u : CompilationUnit) : Prop where
  lead : e.Throughout u.lead.text
  package : Uniform e ((u.package.map (·.segments)).getD [])
  imports : ∀ i ∈ u.imports, Uniform e i.segments
  types : Source.Even e u.types
  close : e.Throughout u.close.text

theorem CompilationUnit.Even.uniform_segments {u : CompilationUnit} (h : u.Even e) :
    Uniform e u.segments := by
  unfold CompilationUnit.segments
  simp only [uniform_append_iff, uniform_cons_iff, uniform_flatMap_iff, uniform_nil, and_true]
  exact ⟨⟨⟨⟨h.lead, h.package⟩, h.imports⟩, h.types.segments⟩, h.close⟩

theorem CompilationUnit.Even.throughout_print {u : CompilationUnit} (h : u.Even e) :
    e.Throughout u.print := by
  rw [← print_segments]
  exact h.uniform_segments.throughout_print

end JavaMigration.Source
