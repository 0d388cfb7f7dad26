import JavaMigration.Text.Split

/-!
# The pieces of a text

Cutting a text at a character: the pieces make up the text again (`pieces_eq`), and a part in front
of a separator has its pieces in front.
-/

namespace JavaMigration.Text

/-- There is at least one piece, and the pieces with separators between them are the text. -/
theorem pieces_eq (sep : Char) (s : List Char) :
    ∃ first rest, pieces sep s = first :: rest ∧ s = first ++ rest.flatMap (sep :: ·) := by
  induction s with
  | nil => exact ⟨[], [], rfl, rfl⟩
  | cons c s ih =>
    obtain ⟨first, rest, hpieces, hs⟩ := ih
    unfold pieces
    rw [hpieces]
    split
    · next hc => exact ⟨[], first :: rest, rfl, by rw [hc, List.flatMap_cons, hs]; rfl⟩
    · exact ⟨c :: first, rest, rfl, by rw [List.cons_append, ← hs]⟩

theorem pieces_ne_nil (sep : Char) (s : List Char) : pieces sep s ≠ [] := by
  obtain ⟨first, rest, hpieces, -⟩ := pieces_eq sep s
  rw [hpieces]
  exact List.cons_ne_nil first rest

/-- A separator cuts a text in two, whose pieces are those of the whole. -/
theorem pieces_append_sep (sep : Char) (s t : List Char) :
    pieces sep (s ++ sep :: t) = pieces sep s ++ pieces sep t := by
  induction s with
  | nil => exact if_pos rfl
  | cons c s ih =>
    rw [List.cons_append, pieces, pieces, ih]
    by_cases hc : c = sep
    · rw [if_pos hc, if_pos hc, List.cons_append]
    · obtain ⟨p, ps, hp⟩ := List.exists_cons_of_ne_nil (pieces_ne_nil sep s)
      rw [if_neg hc, if_neg hc, hp, List.cons_append, List.cons_append]

theorem exists_pieces_cons {sep c : Char} (r : List Char) (h : c ≠ sep) :
    ∃ p ps, pieces sep (c :: r) = (c :: p) :: ps := by
  rw [pieces, if_neg h]
  cases pieces sep r with
  | nil => exact ⟨[], [], rfl⟩
  | cons p ps => exact ⟨p, ps, rfl⟩

/-- Cutting at the last separator gives the last of the pieces. -/
theorem cutLast_cases (sep : Char) (s : List Char) :
    (cutLast sep s = none ∧ pieces sep s = [s]) ∨
      ∃ before last front, cutLast sep s = some (before, last) ∧ front ≠ [] ∧
        pieces sep s = front ++ [last] ∧ last ⊆ s := by
  induction s with
  | nil => exact .inl ⟨rfl, rfl⟩
  | cons c r ih =>
    unfold cutLast pieces
    obtain ⟨hnone, hpieces⟩ | ⟨before, last, front, hsome, hne, hpieces, hsubset⟩ := ih
    · rw [hnone, hpieces]
      by_cases hc : c = sep
      · refine .inr ⟨[], r, [[]], by simp [hc], List.cons_ne_nil _ _, by simp [hc], ?_⟩
        exact List.subset_cons_self _ _
      · exact .inl ⟨by simp [hc], by simp [hc]⟩
    · obtain ⟨first, more, rfl⟩ := List.exists_cons_of_ne_nil hne
      rw [hsome, hpieces]
      refine .inr ⟨c :: before, last,
        if c = sep then [] :: first :: more else (c :: first) :: more, rfl, ?_, ?_,
        List.Subset.trans hsubset (List.subset_cons_self _ _)⟩
      · split <;> exact List.cons_ne_nil _ _
      · split <;> rfl

/-- A character is the separator or in one of the pieces. -/
theorem mem_pieces {sep c : Char} {s : List Char} (hc : c ≠ sep) (h : c ∈ s) :
    ∃ p ∈ pieces sep s, c ∈ p := by
  induction s with
  | nil => cases h
  | cons d r ih =>
    unfold pieces
    rcases List.mem_cons.mp h with rfl | h
    · rw [if_neg hc]
      split <;> exact ⟨_, List.mem_cons_self, List.mem_cons_self⟩
    · obtain ⟨p, hp, hmem⟩ := ih h
      split
      · exact ⟨p, List.mem_cons_of_mem _ hp, hmem⟩
      · split
        · next hnone => simp [hnone] at hp
        · next q qs hpieces =>
          rw [hpieces] at hp
          rcases List.mem_cons.mp hp with rfl | hp
          · exact ⟨_, List.mem_cons_self, List.mem_cons_of_mem _ hmem⟩
          · exact ⟨p, List.mem_cons_of_mem _ hp, hmem⟩

/-! ## Dots -/

/-- Some texts with dots between them. -/
def dotted : List (List Char) → List Char
  | [] => []
  | p :: ps => p ++ ps.flatMap ('.' :: ·)

theorem dotted_pieces (s : List Char) : dotted (pieces '.' s) = s := by
  obtain ⟨first, rest, hpieces, hs⟩ := pieces_eq '.' s
  rw [hpieces, dotted, ← hs]

theorem dotted_append_cons (ps : List (List Char)) (q : List Char) (qs : List (List Char)) :
    ∃ rest, dotted (ps ++ q :: qs) = dotted ps ++ rest ∧ (ps = [] ∨ ∃ t, rest = '.' :: t) := by
  cases ps with
  | nil => exact ⟨_, rfl, .inl rfl⟩
  | cons p ps =>
    refine ⟨'.' :: (q ++ qs.flatMap ('.' :: ·)), ?_, .inr ⟨_, rfl⟩⟩
    rw [List.cons_append, dotted, dotted, List.flatMap_append, List.flatMap_cons, List.append_assoc]
    rfl

end JavaMigration.Text
