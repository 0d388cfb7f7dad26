import JavaMigration.Proofs.Diff.Entries

/-!
# Hunks

A hunk is a part of the lines of a diff, and what is left out between the hunks is kept by the edit
(`excerpts_hunks`). So all the changes are in the hunks, and their lines are in order. Every hunk but
the first begins with kept lines.
-/

namespace JavaMigration.Diff

/-! ## Excerpts -/

/-- Some parts of a diff, where all that is not in one of them is kept. -/
inductive Excerpts : List (List Entry) → List Entry → Prop
  | nil {gap : List Entry} : (∀ e ∈ gap, e.1 = .keep) → Excerpts [] gap
  | cons {gap part rest : List Entry} {parts : List (List Entry)} :
    (∀ e ∈ gap, e.1 = .keep) → Excerpts parts rest → Excerpts (part :: parts) (gap ++ part ++ rest)

namespace Excerpts

variable {parts : List (List Entry)} {all gap part rest : List Entry}

theorem empty : Excerpts [] [] := .nil fun _ h => nomatch h

/-- A part in front of everything. -/
theorem first (part : List Entry) (h : Excerpts parts rest) : Excerpts (part :: parts) (part ++ rest) := by
  have hcons : Excerpts (part :: parts) ([] ++ part ++ rest) := .cons (fun _ h => nomatch h) h
  rwa [List.nil_append] at hcons

theorem flatten_sublist (h : Excerpts parts all) : parts.flatten.Sublist all := by
  induction h with
  | nil => exact List.nil_sublist _
  | cons _ _ ih => exact (List.sublist_append_right _ _).append ih

theorem infix_of_mem (h : Excerpts parts all) (hpart : part ∈ parts) : part <:+: all := by
  induction h with
  | nil => cases hpart
  | cons _ _ ih =>
    rcases List.mem_cons.mp hpart with rfl | hpart
    · exact List.infix_append _ _ _
    · exact (ih hpart).trans (List.suffix_append _ _).isInfix

/-- All the lines that come or go are in the parts. -/
theorem countP_flatten (h : Excerpts parts all) {tag : Tag} (htag : tag ≠ .keep) :
    parts.flatten.countP (·.1 == tag) = all.countP (·.1 == tag) := by
  have hnone {gap : List Entry} (hgap : ∀ e ∈ gap, e.1 = .keep) : gap.countP (·.1 == tag) = 0 := by
    rw [List.countP_eq_zero]
    intro e he heq
    exact htag ((beq_iff_eq.mp heq).symm.trans (hgap e he))
  induction h with
  | nil hgap => rw [hnone hgap]; rfl
  | cons hgap _ ih =>
    rw [List.flatten_cons, List.countP_append, List.countP_append, List.countP_append, hnone hgap, ih,
      Nat.zero_add]

theorem keepBefore (h : Excerpts parts all) (hgap : ∀ e ∈ gap, e.1 = .keep) :
    Excerpts parts (gap ++ all) := by
  cases h with
  | nil h => exact .nil (List.forall_mem_append.mpr ⟨hgap, h⟩)
  | cons h hrest =>
    rw [← List.append_assoc, ← List.append_assoc]
    exact .cons (List.forall_mem_append.mpr ⟨hgap, h⟩) hrest

theorem keepBehind (h : Excerpts parts all) (hgap : ∀ e ∈ gap, e.1 = .keep) :
    Excerpts parts (all ++ gap) := by
  induction h with
  | nil h => exact .nil (List.forall_mem_append.mpr ⟨h, hgap⟩)
  | cons h _ ih =>
    rw [List.append_assoc]
    exact .cons h ih

/-- A part in which nothing is changed may be left out. -/
theorem of_cons (h : Excerpts (part :: parts) all) (hpart : ∀ e ∈ part, e.1 = .keep) :
    Excerpts parts all := by
  cases h with
  | cons h hrest => exact hrest.keepBefore (List.forall_mem_append.mpr ⟨h, hpart⟩)

end Excerpts

theorem keep_of_not_hasChange {hunk : List Segment} (h : ¬hasChange hunk) :
    ∀ e ∈ entriesOf hunk, e.1 = .keep := by
  intro e he
  obtain ⟨s, hs, hes⟩ := List.mem_flatMap.mp he
  cases s with
  | kept lines => exact keep_of_mem_map e hes
  | changed deleted inserted => exact absurd (List.any_eq_true.mpr ⟨_, hs, rfl⟩) h

theorem exists_trimFirst (ss : List Segment) :
    ∃ gap, entriesOf ss = gap ++ entriesOf (trimFirst ss) ∧ ∀ e ∈ gap, e.1 = .keep := by
  unfold trimFirst
  split
  · next lines rest =>
    refine ⟨(lines.take (lines.length - context)).map (.keep, ·), ?_, keep_of_mem_map⟩
    rw [entriesOf_cons, entriesOf_cons, ← List.append_assoc]
    congr 1
    rw [Segment.entries, Segment.entries, ← List.map_append, List.take_append_drop]
  · exact ⟨[], rfl, List.forall_mem_nil _⟩

theorem exists_trimLast (ss : List Segment) :
    ∃ gap, entriesOf ss = entriesOf (trimLast ss) ++ gap ∧ ∀ e ∈ gap, e.1 = .keep := by
  fun_induction trimLast ss with
  | case1 => exact ⟨[], rfl, List.forall_mem_nil _⟩
  | case2 lines =>
    refine ⟨(lines.drop context).map (.keep, ·), ?_, keep_of_mem_map⟩
    rw [entriesOf_cons, entriesOf_cons, entriesOf_nil, List.append_nil, List.append_nil]
    rw [Segment.entries, Segment.entries, ← List.map_append, List.take_append_drop]
  | case3 s rest _ ih =>
    obtain ⟨gap, hrest, hgap⟩ := ih
    exact ⟨gap, by rw [entriesOf_cons, entriesOf_cons, hrest, List.append_assoc], hgap⟩

theorem excerpts_cutHunks (current ss : List Segment) :
    Excerpts ((cutHunks current ss).map entriesOf) (entriesOf current.reverse ++ entriesOf ss) := by
  have hpush (s : Segment) (current rest : List Segment) :
      entriesOf (s :: current).reverse ++ entriesOf rest =
        entriesOf current.reverse ++ entriesOf (s :: rest) := by
    simp
  fun_induction cutHunks current ss with
  | case1 current => exact .first _ .empty
  | case2 current lines rest hlong ih =>
    -- what is left out between the two hunks
    let gap := (lines.drop context).take (lines.length - 2 * context)
    have hlines : lines = lines.take context ++ (gap ++ lines.drop (lines.length - context)) := by
      have hdrop : lines.drop (lines.length - context) =
          (lines.drop context).drop (lines.length - 2 * context) := by
        rw [List.drop_drop]
        congr 1
        omega
      rw [hdrop, List.take_append_drop, List.take_append_drop]
    have hkept : (Segment.kept lines).entries = (Segment.kept (lines.take context)).entries ++
        (gap.map (.keep, ·) ++ (Segment.kept (lines.drop (lines.length - context))).entries) := by
      simp only [Segment.entries, ← List.map_append]
      rw [← hlines]
    have hall := (ih.keepBefore (@keep_of_mem_map gap)).first
      (entriesOf (Segment.kept (lines.take context) :: current).reverse)
    have hsplit : entriesOf current.reverse ++ entriesOf (.kept lines :: rest) =
        entriesOf (Segment.kept (lines.take context) :: current).reverse ++ (gap.map (.keep, ·) ++
          (entriesOf [Segment.kept (lines.drop (lines.length - context))].reverse ++
            entriesOf rest)) := by
      rw [entriesOf_cons, hkept]
      simp
    rw [hsplit]
    exact hall
  | case3 current lines rest _ ih => rwa [hpush] at ih
  | case4 current s rest _ ih => rwa [hpush] at ih

/-- The hunks of a diff leave out kept lines only. -/
theorem excerpts_hunks (ss : List Segment) :
    Excerpts ((hunks ss).map entriesOf) (entriesOf ss) := by
  obtain ⟨front, hfront, hkept⟩ := exists_trimFirst ss
  obtain ⟨back, hback, hkept'⟩ := exists_trimLast (trimFirst ss)
  have hcut := excerpts_cutHunks [] (trimLast (trimFirst ss))
  rw [List.reverse_nil, entriesOf_nil, List.nil_append] at hcut
  have hall := (hcut.keepBehind hkept').keepBefore hkept
  rw [← hback, ← hfront] at hall
  unfold hunks
  generalize cutHunks [] (trimLast (trimFirst ss)) = cut at hall ⊢
  generalize entriesOf ss = all at hall ⊢
  clear hcut hfront hback
  induction cut generalizing all with
  | nil => exact hall
  | cons hunk cut ih =>
    by_cases hchange : hasChange hunk
    · rw [List.filter_cons_of_pos hchange]
      cases hall with
      | cons hgap hrest => exact .cons hgap (ih _ hrest)
    · rw [List.filter_cons_of_neg hchange]
      exact ih _ (hall.of_cons (keep_of_not_hasChange hchange))

/-! ## What is in the hunks -/

/-- A change is in one of the hunks. -/
theorem exists_hunk_of_isChanged {ss : List Segment} {s : Segment} (hs : s ∈ ss) (hchanged : s.isChanged) :
    ∃ hunk ∈ hunks ss, s ∈ hunk := by
  have hfirst : s ∈ trimFirst ss := by
    unfold trimFirst
    split
    · refine List.mem_cons_of_mem _ ((List.mem_cons.mp hs).resolve_left ?_)
      rintro rfl
      cases hchanged
    · exact hs
  have hlast {ss : List Segment} (hs : s ∈ ss) : s ∈ trimLast ss := by
    fun_induction trimLast ss with
    | case1 => cases hs
    | case2 lines =>
      rw [List.mem_singleton.mp hs] at hchanged
      cases hchanged
    | case3 t rest _ ih => exact List.mem_cons.mpr ((List.mem_cons.mp hs).imp_right ih)
  have hcut {current ss : List Segment} (hs : s ∈ current ∨ s ∈ ss) :
      ∃ hunk ∈ cutHunks current ss, s ∈ hunk := by
    fun_induction cutHunks current ss with
    | case1 current =>
      exact ⟨_, List.mem_singleton_self _, List.mem_reverse.mpr (hs.resolve_right List.not_mem_nil)⟩
    | case2 current lines rest _ ih =>
      rcases hs with hs | hs
      · exact ⟨_, List.mem_cons_self, List.mem_reverse.mpr (List.mem_cons_of_mem _ hs)⟩
      · have hrest : s ∈ rest := by
          refine (List.mem_cons.mp hs).resolve_left ?_
          rintro rfl
          cases hchanged
        obtain ⟨hunk, hhunk, hmem⟩ := ih (.inr hrest)
        exact ⟨hunk, List.mem_cons_of_mem _ hhunk, hmem⟩
    | case3 current lines rest _ ih =>
      exact ih (by simpa only [List.mem_cons, or_assoc, or_left_comm] using hs)
    | case4 current t rest _ ih =>
      exact ih (by simpa only [List.mem_cons, or_assoc, or_left_comm] using hs)
  obtain ⟨hunk, hhunk, hmem⟩ := hcut (.inr (hlast hfirst))
  refine ⟨hunk, List.mem_filter.mpr ⟨hhunk, List.any_eq_true.mpr ⟨s, hmem, ?_⟩⟩, hmem⟩
  cases s with
  | kept lines => cases hchanged
  | changed deleted inserted => rfl

/-- Whether there is a kept line. -/
def HasKept (hunk : List Segment) : Prop := ∃ lines, Segment.kept lines ∈ hunk ∧ lines ≠ []

theorem HasKept.exists_entry {hunk : List Segment} (h : HasKept hunk) :
    ∃ e ∈ entriesOf hunk, e.1 = .keep := by
  obtain ⟨lines, hlines, hne⟩ := h
  obtain ⟨line, lines, rfl⟩ := List.exists_cons_of_ne_nil hne
  exact ⟨(.keep, line), List.mem_flatMap.mpr ⟨_, hlines, List.mem_cons_self⟩, rfl⟩

/-- A hunk begins with kept lines if there are enough in front of it. -/
theorem hasKept_of_long {lines : List String} (h : lines.length > 2 * context) :
    HasKept [.kept (lines.drop (lines.length - context))] := by
  refine ⟨_, List.mem_singleton_self _, fun hnil => ?_⟩
  have hlength := congrArg List.length hnil
  rw [List.length_drop, List.length_nil, context] at hlength
  rw [context] at h
  omega

theorem hasKept_of_mem_cutHunks {current ss hunk : List Segment} (h : HasKept current)
    (hhunk : hunk ∈ cutHunks current ss) : HasKept hunk := by
  have hcons {current : List Segment} (h : HasKept current) (s : Segment) : HasKept (s :: current) := by
    obtain ⟨lines, hlines, hne⟩ := h
    exact ⟨lines, List.mem_cons_of_mem _ hlines, hne⟩
  have hreverse {current : List Segment} (h : HasKept current) : HasKept current.reverse := by
    obtain ⟨lines, hlines, hne⟩ := h
    exact ⟨lines, List.mem_reverse.mpr hlines, hne⟩
  fun_induction cutHunks current ss with
  | case1 current =>
    rw [List.mem_singleton.mp hhunk]
    exact hreverse h
  | case2 current lines rest hlong ih =>
    rcases List.mem_cons.mp hhunk with rfl | hhunk
    · exact hreverse (hcons h _)
    · exact ih (hasKept_of_long hlong) hhunk
  | case3 current lines rest _ ih => exact ih (hcons h _) hhunk
  | case4 current s rest _ ih => exact ih (hcons h _) hhunk

/-- Every hunk but the first begins with kept lines. -/
theorem pairwise_hunks (ss : List Segment) : (hunks ss).Pairwise fun _ hunk => HasKept hunk := by
  refine List.Pairwise.filter _ ?_
  generalize trimLast (trimFirst ss) = ss, ([] : List Segment) = current
  fun_induction cutHunks current ss with
  | case1 => exact List.pairwise_singleton _ _
  | case2 current lines rest hlong ih =>
    exact List.pairwise_cons.mpr
      ⟨fun hunk hhunk => hasKept_of_mem_cutHunks (hasKept_of_long hlong) hhunk, ih⟩
  | case3 _ _ _ _ ih => exact ih
  | case4 _ _ _ _ ih => exact ih

end JavaMigration.Diff
