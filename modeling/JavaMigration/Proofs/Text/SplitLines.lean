import Mathlib.Data.List.Chain
import JavaMigration.Text.Lines

/-!
# Texts put together from lines

A text is its lines one after the other. The other way round, lines written one after the other are
read as the same lines if each of them is parted from the next: it has an ending, and the two do not
make one line ending where they meet (`splitLines_flatten`). Lines that are not parted are read as one,
so fewer are read than were written (`countP_splitLines_flatten`).
-/

namespace JavaMigration.Text

/-! ## The lines of a text -/

theorem flatten_consLine (c : Char) (ls : List (List Char)) :
    (consLine c ls).flatten = c :: ls.flatten := by
  cases ls <;> rfl

theorem flatten_splitLines (s : List Char) : (splitLines s).flatten = s := by
  fun_induction splitLines s with
  | case1 => rfl
  | case2 r ih => simp [ih]
  | case3 c r hno h ih => simp [ih]
  | case4 c r hno h ih => rw [flatten_consLine, ih]

/-- A text is its lines one after the other. -/
theorem lines_injective {a b : String} (h : lines a = lines b) : a = b := by
  have hlines : splitLines a.toList = splitLines b.toList :=
    List.map_injective_iff.mpr (fun _ _ => String.ofList_injective) h
  have hflat := congrArg List.flatten hlines
  rw [flatten_splitLines, flatten_splitLines] at hflat
  exact String.toList_injective hflat

theorem splitLines_eq_nil_iff {s : List Char} : splitLines s = [] ↔ s = [] := by
  constructor
  · intro h
    rw [← flatten_splitLines s, h]
    rfl
  · rintro rfl
    rfl

def isLineBreak (c : Char) : Bool := c == '\n' || c == '\r'

/-- Whether a text ends with a line ending. -/
def endsLine (l : List Char) : Bool := l.getLast?.any isLineBreak

theorem splitLines_cons {c : Char} (h : isLineBreak c = false) (r : List Char) :
    splitLines (c :: r) = consLine c (splitLines r) := by
  rw [splitLines]
  · exact if_neg (ne_true_of_eq_false h)
  · rintro r' rfl
    cases h

/-! ## Single lines -/

/-- A text that is one line. -/
def IsLine (l : List Char) : Prop := splitLines l = [l]

theorem IsLine.ne_nil {l : List Char} (h : IsLine l) : l ≠ [] := by
  rintro rfl
  cases h

/-- A line is a line ending, or a character in front of the rest of the line. -/
theorem IsLine.cases {l : List Char} (h : IsLine l) :
    l = ['\r', '\n'] ∨ (∃ c, isLineBreak c ∧ l = [c]) ∨
      ∃ c r, isLineBreak c = false ∧ l = c :: r ∧ (r = [] ∨ IsLine r) := by
  unfold IsLine at h
  fun_cases splitLines l with
  | case1 => cases h
  | case2 r =>
    rw [splitLines, List.cons.injEq, splitLines_eq_nil_iff] at h
    exact .inl (by rw [h.2])
  | case3 c r hno hbreak =>
    rw [splitLines, if_pos hbreak, List.cons.injEq, splitLines_eq_nil_iff] at h
    · exact .inr (.inl ⟨c, hbreak, by rw [h.2]⟩)
    · exact hno
  | case4 c r hno hbreak =>
    have hc : isLineBreak c = false := Bool.eq_false_iff.mpr hbreak
    rw [splitLines_cons hc] at h
    refine .inr (.inr ⟨c, r, hc, rfl, ?_⟩)
    cases hr : splitLines r with
    | nil => exact .inl (splitLines_eq_nil_iff.mp hr)
    | cons first rest =>
      rw [hr, consLine, List.cons.injEq, List.cons.injEq] at h
      obtain ⟨⟨-, rfl⟩, rfl⟩ := h
      exact .inr hr

/-- A character may be put in front of a line. -/
theorem IsLine.cons {c : Char} {l : List Char} (h : IsLine l) (hc : isLineBreak c = false) :
    IsLine (c :: l) := by
  rw [IsLine, splitLines_cons hc, h]
  rfl

theorem isLine_singleton (c : Char) : IsLine [c] := by
  by_cases h : isLineBreak c
  · rw [isLineBreak, Bool.or_eq_true, beq_iff_eq, beq_iff_eq] at h
    rcases h with rfl | rfl <;> rfl
  · rw [IsLine, splitLines_cons (Bool.eq_false_iff.mpr h)]
    rfl

theorem isLine_of_mem_splitLines {s l : List Char} (h : l ∈ splitLines s) : IsLine l := by
  induction s using splitLines.induct generalizing l with
  | case1 => cases h
  | case2 r ih =>
    rcases List.mem_cons.mp h with rfl | h
    · rfl
    · exact ih h
  | case3 c r hno hbreak ih =>
    rw [splitLines, if_pos hbreak] at h
    · rcases List.mem_cons.mp h with rfl | h
      · exact isLine_singleton c
      · exact ih h
    · exact hno
  | case4 c r hno hbreak ih =>
    have hc : isLineBreak c = false := Bool.eq_false_iff.mpr hbreak
    rw [splitLines_cons hc] at h
    cases hr : splitLines r with
    | nil =>
      rw [hr] at h
      rw [List.mem_singleton.mp h]
      exact isLine_singleton c
    | cons first rest =>
      rw [hr] at h ih
      rcases List.mem_cons.mp h with rfl | h
      · exact (ih List.mem_cons_self).cons hc
      · exact ih (List.mem_cons_of_mem _ h)

/-! ## A line in front of a text -/

/-- Whether a line is parted from what is behind it: it has an ending, and that is not a carriage return
in front of a line feed. -/
def Parted (l t : List Char) : Prop :=
  endsLine l ∧ ¬(l.getLast? = some '\r' ∧ t.head? = some '\n')

theorem endsLine_cons {l : List Char} (h : l ≠ []) (c : Char) : endsLine (c :: l) = endsLine l := by
  obtain ⟨d, l, rfl⟩ := List.exists_cons_of_ne_nil h
  rw [endsLine, endsLine, List.getLast?_cons_cons]

theorem parted_cons {l : List Char} (h : l ≠ []) (c : Char) (t : List Char) :
    Parted (c :: l) t ↔ Parted l t := by
  rw [Parted, Parted, endsLine_cons h]
  obtain ⟨d, l, rfl⟩ := List.exists_cons_of_ne_nil h
  rw [List.getLast?_cons_cons]

/-- All lines of a text but the last one have an ending. -/
theorem pairwise_splitLines (s : List Char) : (splitLines s).Pairwise fun l _ => endsLine l := by
  induction s using splitLines.induct with
  | case1 => exact .nil
  | case2 r ih => exact List.pairwise_cons.mpr ⟨fun _ _ => rfl, ih⟩
  | case3 c r hno hbreak ih =>
    rw [splitLines, if_pos hbreak]
    · exact List.pairwise_cons.mpr ⟨fun _ _ => hbreak, ih⟩
    · exact hno
  | case4 c r hno hbreak ih =>
    rw [splitLines_cons (Bool.eq_false_iff.mpr hbreak)]
    cases hr : splitLines r with
    | nil => exact List.pairwise_singleton _ _
    | cons first rest =>
      rw [hr] at ih
      obtain ⟨hfirst, hrest⟩ := List.pairwise_cons.mp ih
      have hline : IsLine first := isLine_of_mem_splitLines (by rw [hr]; exact List.mem_cons_self)
      refine List.pairwise_cons.mpr ⟨fun l hl => ?_, hrest⟩
      rw [endsLine_cons hline.ne_nil]
      exact hfirst l hl

/-- If a text ends with a line ending, all its lines do. -/
theorem endsLine_of_mem_splitLines {s l : List Char} (h : endsLine s) (hl : l ∈ splitLines s) :
    endsLine l := by
  have hpairs := pairwise_splitLines s
  obtain hnil | ⟨front, last, hlast⟩ := List.eq_nil_or_concat (splitLines s)
  · rw [hnil] at hl
    cases hl
  rw [List.concat_eq_append] at hlast
  rw [hlast] at hpairs hl
  rcases List.mem_append.mp hl with hl | hl
  · exact (List.pairwise_append.mp hpairs).2.2 l hl last (List.mem_singleton_self last)
  · have hline : IsLine last := by
      refine isLine_of_mem_splitLines (s := s) ?_
      rw [hlast]
      exact List.mem_append_right _ (List.mem_singleton_self last)
    rw [List.mem_singleton.mp hl]
    rw [← flatten_splitLines s, hlast, endsLine, List.flatten_append, List.flatten_singleton,
      List.getLast?_append_of_ne_nil _ hline.ne_nil] at h
    exact h

theorem splitLines_append_of_parted {l t : List Char} (hl : IsLine l) (h : Parted l t) :
    splitLines (l ++ t) = l :: splitLines t := by
  induction l with
  | nil => exact absurd rfl hl.ne_nil
  | cons c l ih =>
    rcases hl.cases with heq | ⟨d, hbreak, heq⟩ | ⟨d, r, hd, heq, hr⟩
    · cases heq
      rfl
    · cases heq
      rw [List.singleton_append, splitLines]
      · exact if_pos hbreak
      · rintro r rfl rfl
        exact h.2 ⟨rfl, rfl⟩
    · cases heq
      rw [List.cons_append, splitLines_cons hd]
      rcases hr with rfl | hr
      · have hends : isLineBreak c := h.1
        exact absurd (hd.symm.trans hends) Bool.false_ne_true
      · rw [ih hr ((parted_cons hr.ne_nil c t).mp h)]
        rfl

/-- A line that is not parted from the next is joined to it. -/
theorem splitLines_append_of_not_parted {l t first : List Char} {rest : List (List Char)}
    (hl : IsLine l) (h : ¬Parted l t) (ht : splitLines t = first :: rest) :
    splitLines (l ++ t) = (l ++ first) :: rest := by
  induction l with
  | nil => exact absurd rfl hl.ne_nil
  | cons c l ih =>
    rcases hl.cases with heq | ⟨d, hbreak, heq⟩ | ⟨d, r, hd, heq, hr⟩
    · cases heq
      exact absurd ⟨rfl, fun hboth => by cases hboth.1⟩ h
    · cases heq
      have hmeet : c = '\r' ∧ t.head? = some '\n' := by
        by_contra hnot
        exact h ⟨hbreak, fun hboth => hnot ⟨Option.some.inj hboth.1, hboth.2⟩⟩
      obtain ⟨rfl, hhead⟩ := hmeet
      obtain ⟨t, rfl⟩ := List.head?_eq_some_iff.mp hhead
      have hfeed : splitLines ('\n' :: t) = ['\n'] :: splitLines t := rfl
      rw [hfeed, List.cons.injEq] at ht
      obtain ⟨rfl, rfl⟩ := ht
      rfl
    · cases heq
      rw [List.cons_append, splitLines_cons hd]
      rcases hr with rfl | hr
      · rw [List.nil_append, ht]
        rfl
      · rw [ih hr fun hparted => h ((parted_cons hr.ne_nil c t).mpr hparted)]
        rfl

/-! ## Lines one after the other -/

theorem head?_splitLines {t first : List Char} {rest : List (List Char)}
    (h : splitLines t = first :: rest) : first.head? = t.head? := by
  have hline : IsLine first := isLine_of_mem_splitLines (by rw [h]; exact List.mem_cons_self)
  obtain ⟨c, first, rfl⟩ := List.exists_cons_of_ne_nil hline.ne_nil
  rw [← flatten_splitLines t, h]
  rfl

theorem parted_flatten {l b : List Char} {ls : List (List Char)} (hb : b ≠ []) :
    Parted l (b :: ls).flatten ↔ Parted l b := by
  obtain ⟨c, b, rfl⟩ := List.exists_cons_of_ne_nil hb
  exact Iff.rfl

variable {ls : List (List Char)}

/-- Lines are read as they were written if each is parted from the next. -/
theorem splitLines_flatten (hlines : ∀ l ∈ ls, IsLine l) (h : ls.IsChain Parted) :
    splitLines ls.flatten = ls := by
  induction ls with
  | nil => rfl
  | cons l ls ih =>
    obtain ⟨hl, hlines⟩ := List.forall_mem_cons.mp hlines
    cases ls with
    | nil => rw [List.flatten_cons, List.flatten_nil, List.append_nil]; exact hl
    | cons b ls =>
      obtain ⟨hparted, hrest⟩ := List.isChain_cons_cons.mp h
      have hb := (hlines b List.mem_cons_self).ne_nil
      rw [List.flatten_cons, splitLines_append_of_parted hl ((parted_flatten hb).mpr hparted),
        ih hlines hrest]

/-- Of the lines that begin with one of some characters no more are read than were written. If every
line that is not parted is in front of such a line, as many are read only if all lines are parted. -/
theorem countP_splitLines_flatten (p : Char → Bool) (hlines : ∀ l ∈ ls, IsLine l)
    (h : ls.IsChain fun l b => Parted l b ∨ b.head?.any p) :
    (splitLines ls.flatten).countP (·.head?.any p) ≤ ls.countP (·.head?.any p) ∧
      ((splitLines ls.flatten).countP (·.head?.any p) = ls.countP (·.head?.any p) →
        ls.IsChain Parted) := by
  induction ls with
  | nil => exact ⟨Nat.le_refl _, fun _ => .nil⟩
  | cons l ls ih =>
    obtain ⟨hl, hlines⟩ := List.forall_mem_cons.mp hlines
    cases ls with
    | nil =>
      rw [List.flatten_cons, List.flatten_nil, List.append_nil, hl]
      exact ⟨Nat.le_refl _, fun _ => .singleton l⟩
    | cons b ls =>
      obtain ⟨hpair, hrest⟩ := List.isChain_cons_cons.mp h
      obtain ⟨hle, hchain⟩ := ih hlines hrest
      have hb := (hlines b List.mem_cons_self).ne_nil
      rw [List.flatten_cons, List.countP_cons]
      by_cases hparted : Parted l b
      · rw [splitLines_append_of_parted hl ((parted_flatten hb).mpr hparted), List.countP_cons]
        refine ⟨Nat.add_le_add_right hle _, fun heq => ?_⟩
        exact List.isChain_cons_cons.mpr ⟨hparted, hchain (Nat.add_right_cancel heq)⟩
      · -- the line behind begins with one of the characters and is lost
        have hp := hpair.resolve_left hparted
        obtain ⟨first, rest, hsplit⟩ : ∃ first rest, splitLines (b :: ls).flatten = first :: rest := by
          refine List.exists_cons_of_ne_nil fun hnil => ?_
          rw [splitLines_eq_nil_iff, List.flatten_cons, List.append_eq_nil_iff] at hnil
          exact hb hnil.1
        have hfirst : first.head?.any p := by
          obtain ⟨c, b, rfl⟩ := List.exists_cons_of_ne_nil hb
          rw [head?_splitLines hsplit]
          exact hp
        have hjoined : (l ++ first).head?.any p = l.head?.any p := by
          obtain ⟨c, l, rfl⟩ := List.exists_cons_of_ne_nil hl.ne_nil
          rfl
        rw [hsplit, List.countP_cons, if_pos hfirst] at hle
        rw [splitLines_append_of_not_parted hl (fun h => hparted ((parted_flatten hb).mp h)) hsplit,
          List.countP_cons, hjoined]
        exact ⟨by omega, fun heq => by omega⟩

end JavaMigration.Text
