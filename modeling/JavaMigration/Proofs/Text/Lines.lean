import JavaMigration.Text.Lines

/-!
# Lines and their endings

A text that has one line ending throughout: what it is made of has the same one, if it is cut where
no line ending stands, and what is put together from such texts has it again.
-/

namespace JavaMigration.Text

/-! ## Cutting at a character -/

theorem cutFirst_eq {sep : Char} {s front back : List Char}
    (h : cutFirst sep s = some (front, back)) : s = front ++ sep :: back := by
  induction s generalizing front with
  | nil => cases h
  | cons c s ih =>
    unfold cutFirst at h
    split at h
    · next hc =>
      cases h
      rw [hc]
      rfl
    · obtain ⟨⟨before, behind⟩, hcut, heq⟩ := Option.map_eq_some_iff.mp h
      cases heq
      rw [ih hcut]
      rfl

theorem not_mem_of_cutFirst {sep : Char} {s : List Char} (h : cutFirst sep s = none) : sep ∉ s := by
  induction s with
  | nil => exact List.not_mem_nil
  | cons c s ih =>
    unfold cutFirst at h
    split at h
    · cases h
    · next hc =>
      exact List.not_mem_cons_of_ne_of_not_mem (Ne.symm hc) (ih (Option.map_eq_none_iff.mp h))

theorem cutFirst_append {sep : Char} {front : List Char} (hfront : sep ∉ front) (back : List Char) :
    cutFirst sep (front ++ sep :: back) = some (front, back) := by
  induction front with
  | nil => exact if_pos rfl
  | cons c front ih =>
    rw [List.cons_append, cutFirst, if_neg (List.ne_of_not_mem_cons hfront).symm,
      ih (List.not_mem_of_not_mem_cons hfront)]
    rfl

theorem cutLast_eq {sep : Char} {s before last : List Char}
    (h : cutLast sep s = some (before, last)) : s = before ++ sep :: last := by
  induction s generalizing before with
  | nil => cases h
  | cons c s ih =>
    unfold cutLast at h
    split at h
    · next p hp =>
      cases h
      rw [ih hp]
      rfl
    · split at h
      · next hc =>
        cases h
        rw [hc]
        rfl
      · cases h

theorem not_mem_of_cutLast {sep : Char} {s : List Char} (h : cutLast sep s = none) : sep ∉ s := by
  induction s with
  | nil => exact List.not_mem_nil
  | cons c s ih =>
    unfold cutLast at h
    split at h
    · cases h
    · next hs =>
      split at h
      · cases h
      · next hc => exact List.not_mem_cons_of_ne_of_not_mem (Ne.symm hc) (ih hs)

/-- Behind the last occurrence there is no other. -/
theorem not_mem_last {sep : Char} {s before last : List Char}
    (h : cutLast sep s = some (before, last)) : sep ∉ last := by
  induction s generalizing before with
  | nil => cases h
  | cons c s ih =>
    unfold cutLast at h
    split at h
    · next p hp =>
      cases h
      exact ih hp
    · next hs =>
      split at h
      · cases h
        exact not_mem_of_cutLast hs
      · cases h

theorem dropStart?_eq_some_iff {start s r : List Char} :
    dropStart? start s = some r ↔ s = start ++ r := by
  induction start generalizing s with
  | nil => exact ⟨fun h => Option.some.inj h, fun h => congrArg some h⟩
  | cons p start ih =>
    cases s with
    | nil => simp [dropStart?]
    | cons c s =>
      rw [dropStart?]
      split
      · next hc => rw [ih, hc, List.cons_append, List.cons.injEq, eq_self_iff_true, true_and]
      · next hc => simp [Ne.symm hc]

theorem dropStart?_append (start r : List Char) : dropStart? start (start ++ r) = some r :=
  dropStart?_eq_some_iff.mpr rfl

/-! ## Line endings -/

theorem newline_mem_lineEnding (s : String) : '\n' ∈ (lineEnding s).toList := by
  unfold lineEnding
  split
  · split <;> decide
  · decide

/-- The first line feed decides. -/
theorem lineEnding_of_first {s : String} {front back : List Char}
    (hs : s.toList = front ++ '\n' :: back) (hfront : '\n' ∉ front) :
    lineEnding s = if front.getLast? == some '\r' then "\r\n" else "\n" := by
  rw [lineEnding, hs, cutFirst_append hfront]

theorem lineEnding_append {s : String} (h : '\n' ∈ s.toList) (t : String) :
    lineEnding (s ++ t) = lineEnding s := by
  obtain ⟨front, back, hs, hfront⟩ := List.eq_append_cons_of_mem h
  have happend : (s ++ t).toList = front ++ '\n' :: (back ++ t.toList) := by
    rw [String.toList_append, hs, List.append_assoc, List.cons_append]
  rw [lineEnding_of_first hs hfront, lineEnding_of_first happend hfront]

theorem lineEnding_of_unbroken {s : String} (h : '\n' ∉ s.toList) : lineEnding s = "\n" := by
  unfold lineEnding
  split
  · next heq => exact absurd (by rw [cutFirst_eq heq]; simp) h
  · rfl

/-- The line ending of a text is found again at the end of a first line. -/
theorem lineEnding_break (line : String) (hline : '\n' ∉ line.toList)
    (hlast : line.toList.getLast? ≠ some '\r') (s t : String) :
    lineEnding (line ++ (lineEnding s ++ t)) = lineEnding s := by
  have hcases : lineEnding s = "\n" ∨ lineEnding s = "\r\n" := by
    unfold lineEnding
    split
    · split
      · exact .inr rfl
      · exact .inl rfl
    · exact .inl rfl
  rcases hcases with h | h
  · have hs : (line ++ ("\n" ++ t)).toList = line.toList ++ '\n' :: t.toList := by simp
    rw [h, lineEnding_of_first hs hline]
    simpa using hlast
  · have hs : (line ++ ("\r\n" ++ t)).toList = (line.toList ++ ['\r']) ++ '\n' :: t.toList := by simp
    rw [h, lineEnding_of_first hs (by simpa using hline)]
    simp

/-- Of a part of a line only the last character counts. -/
theorem lineEnding_replace {s t : String} {c : Char} (hs : '\n' ∉ s.toList) (ht : '\n' ∉ t.toList)
    (hslast : s.toList.getLast? = some c) (htlast : t.toList.getLast? = some c) (a b : String) :
    lineEnding (a ++ (s ++ b)) = lineEnding (a ++ (t ++ b)) := by
  by_cases ha : '\n' ∈ a.toList
  · rw [lineEnding_append ha, lineEnding_append ha]
  · by_cases hb : '\n' ∈ b.toList
    · obtain ⟨front, back, hback, hfront⟩ := List.eq_append_cons_of_mem hb
      have hfirst : ∀ r : String, '\n' ∉ r.toList → r.toList.getLast? = some c →
          lineEnding (a ++ (r ++ b)) =
            if front.getLast?.or (some c) == some '\r' then "\r\n" else "\n" := by
        intro r hr hlast
        have htext : (a ++ (r ++ b)).toList = (a.toList ++ (r.toList ++ front)) ++ '\n' :: back := by
          simp [hback]
        rw [lineEnding_of_first htext (by simp [ha, hr, hfront])]
        simp [List.getLast?_append, hlast]
      rw [hfirst s hs hslast, hfirst t ht htlast]
    · rw [lineEnding_of_unbroken (by simp [ha, hs, hb]),
        lineEnding_of_unbroken (by simp [ha, ht, hb])]

/-- A character that is part of no line ending. -/
def InLine (c : Char) : Prop := c ≠ '\n' ∧ c ≠ '\r'

instance (c : Char) : Decidable (InLine c) := inferInstanceAs (Decidable (_ ∧ _))

/-- Every character of a text is in its line. -/
def Unbroken (s : List Char) : Prop := ∀ c ∈ s, InLine c

instance (s : List Char) : Decidable (Unbroken s) := List.decidableBAll InLine s

/-- How lines end. -/
inductive LineEnding where
  | lf
  | crlf
  deriving DecidableEq, Repr

namespace LineEnding

def text : LineEnding → String
  | lf => "\n"
  | crlf => "\r\n"

/-- The lines of a text end so throughout: there is no carriage return, or there is one in front of
every line feed. -/
def Throughout : LineEnding → String → Prop
  | lf, s => '\r' ∉ s.toList
  | crlf, s => ∀ front back, s.toList = front ++ '\n' :: back → front.getLast? = some '\r'

/-- Whether there is a carriage return in front of every line feed, where `returned` says whether
there is one in front of the text. -/
def returns (returned : Bool) : List Char → Bool
  | [] => true
  | c :: r => (c != '\n' || returned) && returns (c == '\r') r

theorem returns_iff (returned : Bool) (s : List Char) :
    returns returned s ↔ ∀ front back, s = front ++ '\n' :: back →
      if front = [] then returned else front.getLast? = some '\r' := by
  induction s generalizing returned with
  | nil => simp [returns]
  | cons c r ih =>
    have hlast : ∀ front : List Char, (c :: front).getLast? = some '\r' ↔
        if front = [] then (c == '\r') = true else front.getLast? = some '\r' := by
      intro front
      cases front <;> simp
    rw [returns, Bool.and_eq_true, ih]
    constructor
    · rintro ⟨hc, hr⟩ front back hs
      cases front with
      | nil =>
        cases hs
        simpa using hc
      | cons d front =>
        cases hs
        rw [if_neg (List.cons_ne_nil _ _), hlast]
        exact hr front back rfl
    · intro h
      constructor
      · rw [Bool.or_eq_true, bne_iff_ne]
        by_cases hc : c = '\n'
        · exact .inr (by simpa using h [] r (by rw [hc]; rfl))
        · exact .inl hc
      · intro front back hr
        rw [← hlast]
        simpa using h (c :: front) back (by rw [hr]; rfl)

instance (e : LineEnding) (s : String) : Decidable (e.Throughout s) :=
  match e with
  | lf => inferInstanceAs (Decidable ('\r' ∉ s.toList))
  | crlf => decidable_of_iff (returns false s.toList = true) (by
      rw [returns_iff]
      refine forall_congr' fun front => forall_congr' fun back => imp_congr_right fun _ => ?_
      cases front <;> simp)

variable {e : LineEnding} {s t : String}

theorem throughout_of_unbroken (h : Unbroken s.toList) : e.Throughout s := by
  cases e with
  | lf => exact fun hmem => (h _ hmem).2 rfl
  | crlf => exact fun front back hs => absurd rfl (h '\n' (by simp [hs])).1

@[simp] theorem throughout_empty (e : LineEnding) : e.Throughout "" :=
  throughout_of_unbroken (by decide)

@[simp] theorem throughout_text (e : LineEnding) : e.Throughout e.text := by
  cases e with
  | lf => exact show '\r' ∉ "\n".toList by decide
  | crlf =>
    intro front back h
    rcases front with _ | ⟨c, _ | ⟨d, front⟩⟩
    · cases h
    · cases h
      rfl
    · simp [text] at h

theorem Throughout.append (hs : e.Throughout s) (ht : e.Throughout t) : e.Throughout (s ++ t) := by
  cases e with
  | lf =>
    intro hmem
    rw [String.toList_append] at hmem
    exact (List.mem_append.mp hmem).elim hs ht
  | crlf =>
    intro front back h
    rw [String.toList_append] at h
    rcases List.append_eq_append_iff.mp h with ⟨front', rfl, hback⟩ | ⟨back', hfront, hback⟩
    · rw [List.getLast?_append, ht front' back hback]
      rfl
    · cases back' with
      | nil => cases ht [] back (by simpa using hback.symm)
      | cons c back' =>
        cases hback
        exact hs front back' hfront

theorem Throughout.left (h : e.Throughout (s ++ t)) : e.Throughout s := by
  cases e with
  | lf => exact fun hmem => h (by simp [hmem])
  | crlf => exact fun front back hs => h front (back ++ t.toList) (by simp [hs])

/-- A text may be cut in two, but not inside a line ending. -/
theorem Throughout.right (h : e.Throughout (s ++ t))
    (hcut : s.toList.getLast? ≠ some '\r' ∨ t.toList.head? ≠ some '\n') : e.Throughout t := by
  cases e with
  | lf => exact fun hmem => h (by simp [hmem])
  | crlf =>
    intro front back ht
    have hlast := h (s.toList ++ front) back (by simp [ht])
    rw [List.getLast?_append] at hlast
    cases hfront : front.getLast? with
    | some c =>
      rw [hfront] at hlast
      exact hlast
    | none =>
      rw [hfront] at hlast
      rw [List.getLast?_eq_none_iff.mp hfront] at ht
      rcases hcut with hcut | hcut
      · exact absurd hlast hcut
      · exact absurd (by rw [ht]; rfl) hcut

@[simp] theorem newline_mem_text (e : LineEnding) : '\n' ∈ e.text.toList := by
  cases e <;> decide

/-- A text that is part of one line. -/
structure InOneLine (e : LineEnding) (s : String) : Prop where
  throughout : e.Throughout s
  newline_not_mem : '\n' ∉ s.toList

theorem Throughout.inOneLine (h : e.Throughout s) (hsub : t.toList ⊆ s.toList)
    (hline : '\n' ∉ t.toList) : e.InOneLine t := by
  refine ⟨?_, hline⟩
  cases e with
  | lf => exact fun hmem => h (hsub hmem)
  | crlf => exact fun front back ht => absurd (by simp [ht]) hline

theorem InOneLine.of_subset (h : e.InOneLine s) (hsub : t.toList ⊆ s.toList) : e.InOneLine t :=
  h.throughout.inOneLine hsub fun hmem => h.newline_not_mem (hsub hmem)

theorem InOneLine.append (hs : e.InOneLine s) (ht : e.InOneLine t) : e.InOneLine (s ++ t) := by
  refine ⟨hs.throughout.append ht.throughout, ?_⟩
  rw [String.toList_append, List.mem_append, not_or]
  exact ⟨hs.newline_not_mem, ht.newline_not_mem⟩

theorem inOneLine_of_unbroken (h : Unbroken s.toList) : e.InOneLine s :=
  ⟨throughout_of_unbroken h, fun hmem => (h _ hmem).1 rfl⟩

/-- The line ending of a text is found. -/
theorem lineEnding_eq (h : e.Throughout s) (hbreak : e = .crlf → '\n' ∈ s.toList) :
    lineEnding s = e.text := by
  unfold lineEnding
  cases hcut : cutFirst '\n' s.toList with
  | none =>
    cases e with
    | lf => rfl
    | crlf => exact absurd (hbreak rfl) (not_mem_of_cutFirst hcut)
  | some parts =>
    obtain ⟨line, rest⟩ := parts
    have hs := cutFirst_eq hcut
    cases e with
    | lf =>
      have hline : ¬line.getLast? = some '\r' := fun hlast =>
        h (hs ▸ List.mem_append_left _ (List.mem_of_getLast? hlast))
      simp [hline, text]
    | crlf => simp [h line rest hs, text]

end LineEnding

end JavaMigration.Text
