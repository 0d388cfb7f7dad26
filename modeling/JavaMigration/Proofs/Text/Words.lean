import Mathlib.Data.List.Infix
import JavaMigration.Text.Split

/-!
# Whole words

The search for a word goes from the left and passes over whatever begins inside an occurrence. It
misses nothing by that: the character in front of what is passed over belongs to the occurrence, so
a word that begins behind a character that is in no word is never passed over (`wordFrom_of_apart`).
-/

namespace JavaMigration.Text

variable {word front back : List Char} {prev : Option Char}

theorem wordFrom_append (hword : word ≠ []) (hprev : prev.any isNameChar = false)
    (hback : back.head?.any isNameChar = false) : wordFrom word prev 0 (word ++ back) := by
  cases word with
  | nil => exact absurd rfl hword
  | cons c word =>
    have hoccurs : (c :: word).isPrefixOf (c :: (word ++ back)) :=
      List.isPrefixOf_iff_prefix.mpr ⟨back, rfl⟩
    have hdrop : (c :: (word ++ back)).drop (c :: word).length = back :=
      List.drop_left
    rw [List.cons_append, wordFrom, if_pos hoccurs, hdrop, hprev, hback]
    rfl

/-- The last character of a part that an occurrence covers is in the word. -/
theorem getLast_mem_of_covered {s : List Char} (hne : front ≠ []) (hoccurs : word <+: front ++ s)
    (hlength : front.length ≤ word.length) : front.getLast hne ∈ word := by
  have hinside : front <+: word :=
    List.prefix_of_prefix_length_le (List.prefix_append front s) hoccurs hlength
  exact hinside.subset (List.getLast_mem hne)

/-- A word behind a character that is neither a name character nor in the word itself is found. -/
theorem wordFrom_of_apart (hword : word ≠ [])
    (hfront : ∀ c ∈ front.getLast?, isNameChar c = false ∧ c ∉ word)
    (hback : back.head?.any isNameChar = false) :
    wordFrom word none 0 (front ++ (word ++ back)) := by
  suffices h : ∀ (prev : Option Char) (k : Nat), k ≤ front.length →
      (front = [] → prev.any isNameChar = false) →
      wordFrom word prev k (front ++ (word ++ back)) from h none 0 (Nat.zero_le _) fun _ => rfl
  induction front with
  | nil =>
    intro prev k hk hprev
    rw [Nat.le_zero.mp hk]
    exact wordFrom_append hword (hprev rfl) hback
  | cons c front ih =>
    intro prev k hk hprev
    have hlast : ∀ d ∈ front.getLast?, isNameChar d = false ∧ d ∉ word := by
      intro d hd
      refine hfront d ?_
      rw [List.getLast?_cons, Option.mem_def.mp hd]
      rfl
    have hself : front = [] → (some c).any isNameChar = false := by
      rintro rfl
      exact (hfront c rfl).1
    cases k with
    | succ k => exact ih hlast (some c) k (Nat.le_of_succ_le_succ hk) hself
    | zero =>
      rw [List.cons_append, wordFrom]
      split
      · next hoccurs =>
        -- an occurrence here does not reach behind `front`, whose last character is not in it
        have hshort : word.length < (c :: front).length := by
          by_contra hlong
          have hmem := getLast_mem_of_covered (List.cons_ne_nil c front)
            (List.isPrefixOf_iff_prefix.mp hoccurs) (Nat.le_of_not_lt hlong)
          exact (hfront _ (List.getLast?_eq_some_getLast _)).2 hmem
        rw [Bool.or_eq_true]
        refine .inr (ih hlast (some c) _ ?_ hself)
        rw [List.length_cons] at hshort
        omega
      · exact ih hlast (some c) 0 (Nat.zero_le _) hself

/-- What is found is a word with no name character at either side. -/
theorem exists_of_wordFrom {k : Nat} {s : List Char} (h : wordFrom word prev k s) :
    ∃ front back, s = front ++ (word ++ back) ∧ (front.getLast?.or prev).any isNameChar = false ∧
      back.head?.any isNameChar = false := by
  -- what is found behind the first character is found in the whole text
  have hcons {c : Char} {r : List Char} (h : ∃ front back, r = front ++ (word ++ back) ∧
      (front.getLast?.or (some c)).any isNameChar = false ∧
      back.head?.any isNameChar = false) (prev : Option Char) :
      ∃ front back, c :: r = front ++ (word ++ back) ∧
        (front.getLast?.or prev).any isNameChar = false ∧ back.head?.any isNameChar = false := by
    obtain ⟨front, back, rfl, hfront, hback⟩ := h
    refine ⟨c :: front, back, rfl, ?_, hback⟩
    rw [List.getLast?_cons]
    cases hlast : front.getLast? with
    | none => rwa [hlast] at hfront
    | some d => rwa [hlast] at hfront
  induction s generalizing prev k with
  | nil => cases k <;> cases h
  | cons c r ih =>
    cases k with
    | succ k => exact hcons (ih h) prev
    | zero =>
      rw [wordFrom] at h
      split at h
      · next hoccurs =>
        obtain ⟨back, hback⟩ := List.isPrefixOf_iff_prefix.mp hoccurs
        rw [Bool.or_eq_true, Bool.and_eq_true, Bool.not_eq_true', Bool.not_eq_true', ← hback,
          List.drop_left] at h
        rcases h with ⟨hprev, hhead⟩ | hrest
        · exact ⟨[], back, hback.symm, hprev, hhead⟩
        · exact hcons (ih hrest) prev
      · exact hcons (ih h) prev

/-- A word of name characters is found exactly if it stands somewhere with no name character at either
side. -/
theorem containsWord_iff {text word : String} (hne : word ≠ "") (hword : word.toList.all isNameChar) :
    containsWord text word ↔ ∃ l r : String, text = l ++ word ++ r ∧
      ¬l.toList.getLast?.any isNameChar ∧ ¬r.toList.head?.any isNameChar := by
  have hnonempty : word.toList ≠ [] := fun h => hne (String.toList_eq_nil_iff.mp h)
  have hisEmpty : word.isEmpty = false := by
    rw [Bool.eq_false_iff]
    exact fun h => hne (String.isEmpty_iff.mp h)
  rw [containsWord, hisEmpty, Bool.not_false, Bool.true_and]
  constructor
  · intro h
    obtain ⟨front, back, htext, hfront, hback⟩ := exists_of_wordFrom h
    refine ⟨String.ofList front, String.ofList back, ?_, ?_, ?_⟩
    · rw [← String.toList_inj, htext]
      simp
    · rw [Option.or_none] at hfront
      simpa using hfront
    · simpa using hback
  · rintro ⟨l, r, rfl, hl, hr⟩
    rw [String.toList_append, String.toList_append, List.append_assoc]
    refine wordFrom_of_apart hnonempty (fun c hc => ?_) (Bool.not_eq_true _ ▸ hr)
    have hc' : isNameChar c = false := by
      rw [Option.mem_def.mp hc] at hl
      simpa using hl
    exact ⟨hc', fun hmem => Bool.false_ne_true (hc'.symm.trans (List.all_eq_true.mp hword c hmem))⟩

/-- The last `aa` is found although the search passes over the occurrence in the middle of `aaa`. -/
theorem containsWord_behind_overlap :
    "aa" ≠ "" ∧ "aa".toList.all isNameChar ∧
      (containsWord "aaa aa" "aa" ↔ ∃ l r : String, "aaa aa" = l ++ "aa" ++ r ∧
        ¬l.toList.getLast?.any isNameChar ∧ ¬r.toList.head?.any isNameChar) :=
  ⟨by decide, by decide, containsWord_iff (by decide) (by decide)⟩

end JavaMigration.Text
