import Mathlib.Order.Defs.LinearOrder
import JavaMigration.Dependency.Version
import JavaMigration.Proofs.Text.Pieces

/-!
# The order of versions

The numbers of two versions are compared at the first place where they differ, and missing numbers
are zeros (`compareNumbers_lt_iff`). So versions are in a total preorder, in which a zero at the
end does not count, and what a selector picks is above every other version it accepts.
-/

namespace JavaMigration.Dependency

open Text

/-! ## Numbers -/

section Numbers

variable {as bs cs : List Nat}

/-- One place is compared after the other, and missing numbers are zeros. -/
theorem compareNumbers_step (as bs : List Nat) :
    compareNumbers as bs =
      (compare (as.getD 0 0) (bs.getD 0 0)).then (compareNumbers as.tail bs.tail) := by
  match as, bs with
  | [], [] => rfl
  | [], b :: bs =>
    by_cases hb : b = 0
    · subst hb
      simp [compareNumbers]
    · have hlt : compare 0 b = .lt := Nat.compare_eq_lt.mpr (Nat.pos_of_ne_zero hb)
      simp [compareNumbers, hb, hlt]
  | a :: as, [] =>
    by_cases ha : a = 0
    · subst ha
      cases as <;> simp [compareNumbers]
    · have hgt : compare a 0 = .gt := Nat.compare_eq_gt.mpr (Nat.pos_of_ne_zero ha)
      simp [compareNumbers, ha, hgt]
  | a :: as, b :: bs => rfl

/-- What holds of two empty lists, and of two lists if it holds behind their first places, holds
of all. -/
theorem numbers_induction {motive : List Nat → List Nat → Prop} (nil : motive [] [])
    (step : ∀ as bs : List Nat, motive as.tail bs.tail → motive as bs) (as bs : List Nat) :
    motive as bs := by
  induction as generalizing bs with
  | nil =>
    induction bs with
    | nil => exact nil
    | cons b bs ih => exact step [] (b :: bs) ih
  | cons a as ih => exact step (a :: as) bs (ih bs.tail)

theorem getD_succ (as : List Nat) (i : Nat) : as.getD (i + 1) 0 = as.tail.getD i 0 := by
  cases as <;> rfl

theorem compareNumbers_swap (as bs : List Nat) :
    (compareNumbers as bs).swap = compareNumbers bs as := by
  induction as, bs using numbers_induction with
  | nil => rfl
  | step as bs ih =>
    rw [compareNumbers_step, compareNumbers_step bs, Ordering.swap_then, Nat.compare_swap, ih]

/-- Numbers are equal if they are at every place. -/
theorem compareNumbers_eq_iff :
    compareNumbers as bs = .eq ↔ ∀ i, as.getD i 0 = bs.getD i 0 := by
  induction as, bs using numbers_induction with
  | nil => exact iff_of_true rfl fun _ => rfl
  | step as bs ih =>
    rw [compareNumbers_step, Ordering.then_eq_eq, Nat.compare_eq_eq, ih]
    constructor
    · rintro ⟨hfirst, hrest⟩ (_ | i)
      · exact hfirst
      · rw [getD_succ, getD_succ, hrest]
    · intro h
      exact ⟨h 0, fun i => by rw [← getD_succ, ← getD_succ, h]⟩

/-- Otherwise the first place at which they differ decides. -/
theorem compareNumbers_lt_iff :
    compareNumbers as bs = .lt ↔
      ∃ i, (∀ j < i, as.getD j 0 = bs.getD j 0) ∧ as.getD i 0 < bs.getD i 0 := by
  induction as, bs using numbers_induction with
  | nil => exact iff_of_false nofun fun ⟨_, _, h⟩ => Nat.lt_irrefl _ h
  | step as bs ih =>
    rw [compareNumbers_step, Ordering.then_eq_lt, Nat.compare_eq_lt, Nat.compare_eq_eq, ih]
    constructor
    · rintro (hlt | ⟨hfirst, i, hbefore, hlt⟩)
      · exact ⟨0, nofun, hlt⟩
      · refine ⟨i + 1, ?_, by rwa [getD_succ, getD_succ]⟩
        rintro (_ | j) hj
        · exact hfirst
        · rw [getD_succ, getD_succ, hbefore j (by omega)]
    · rintro ⟨_ | i, hbefore, hlt⟩
      · exact .inl hlt
      · refine .inr ⟨hbefore 0 (by omega), i, fun j hj => ?_, by rwa [getD_succ, getD_succ] at hlt⟩
        rw [← getD_succ, ← getD_succ, hbefore (j + 1) (by omega)]

/-- Of two places that decide, the first one decides from the least to the greatest. -/
theorem compareNumbers_lt_trans (hab : compareNumbers as bs = .lt)
    (hbc : compareNumbers bs cs = .lt) : compareNumbers as cs = .lt := by
  rw [compareNumbers_lt_iff] at hab hbc ⊢
  obtain ⟨i, hi, hlti⟩ := hab
  obtain ⟨k, hk, hltk⟩ := hbc
  refine ⟨min i k, fun j hj => (hi j (by omega)).trans (hk j (by omega)), ?_⟩
  rcases Nat.lt_trichotomy i k with h | rfl | h
  · rw [Nat.min_eq_left (Nat.le_of_lt h), ← hk i h]
    exact hlti
  · rw [Nat.min_self]
    exact Nat.lt_trans hlti hltk
  · rw [Nat.min_eq_right (Nat.le_of_lt h), hi k h]
    exact hltk

instance : Std.TransCmp compareNumbers where
  eq_swap := (compareNumbers_swap _ _).symm
  isLE_trans {as bs cs} hab hbc := by
    rw [Ordering.isLE_iff_eq_lt_or_eq_eq] at hab hbc ⊢
    rcases hab with hab | hab <;> rcases hbc with hbc | hbc
    · exact .inl (compareNumbers_lt_trans hab hbc)
    · rw [compareNumbers_lt_iff] at hab ⊢
      simp only [← compareNumbers_eq_iff.mp hbc]
      exact .inl hab
    · rw [compareNumbers_lt_iff] at hbc ⊢
      simp only [compareNumbers_eq_iff.mp hab]
      exact .inl hbc
    · rw [compareNumbers_eq_iff] at hab hbc ⊢
      exact .inr fun i => (hab i).trans (hbc i)

end Numbers

/-! ## Versions -/

instance : Std.TransCmp compareVersions :=
  have : Std.TransCmp fun a b => compareNumbers (numbers a) (numbers b) :=
    { eq_swap := Std.OrientedCmp.eq_swap
      isLE_trans := Std.TransCmp.isLE_trans }
  inferInstanceAs <| Std.TransCmp <|
    compareLex (fun a b => compareNumbers (numbers a) (numbers b))
      (compareOn fun v => (isRelease v).toNat)

theorem compareVersions_swap (a b : String) :
    compareVersions b a = (compareVersions a b).swap := Std.OrientedCmp.eq_swap

theorem compareVersions_self (version : String) : compareVersions version version = .eq :=
  Std.ReflCmp.compare_self

theorem compareVersions_eq_iff {a b : String} :
    compareVersions a b = .eq ↔
      (∀ i, (numbers a).getD i 0 = (numbers b).getD i 0) ∧ isRelease a = isRelease b := by
  have hflag : (isRelease a).toNat = (isRelease b).toNat ↔ isRelease a = isRelease b := by
    cases isRelease a <;> cases isRelease b <;> simp
  rw [compareVersions, Ordering.then_eq_eq, compareNumbers_eq_iff, Nat.compare_eq_eq, hflag]

/-! ## A zero more -/

theorem component?_zero : component? ['0'] = some 0 := by decide

theorem numericFront_append_zero (ps : List (List Char)) :
    numericFront (ps ++ [['0']]) = numericFront ps ∨
      numericFront (ps ++ [['0']]) = numericFront ps ++ [0] := by
  induction ps with
  | nil => exact .inr (by simp [numericFront, component?_zero])
  | cons p ps ih =>
    rw [List.cons_append, numericFront, numericFront]
    cases component? p with
    | none => exact .inl rfl
    | some n => exact ih.imp (congrArg (n :: ·)) (congrArg (n :: ·))

theorem getD_append_zero (as : List Nat) (i : Nat) : (as ++ [0]).getD i 0 = as.getD i 0 := by
  simp only [List.getD_eq_getElem?_getD, List.getElem?_append]
  split
  · rfl
  · next h =>
    rw [List.getElem?_eq_none (Nat.le_of_not_lt h)]
    cases i - as.length <;> rfl

/-- A zero at the end of a version does not count. -/
theorem compareVersions_append_zero (a : String) : compareVersions (a ++ ".0") a = .eq := by
  have hpieces : pieces '.' (a ++ ".0").toList = pieces '.' a.toList ++ [['0']] := by
    rw [String.toList_append]
    exact pieces_append_sep '.' a.toList ['0']
  rw [compareVersions_eq_iff]
  constructor
  · intro i
    rw [numbers, hpieces, List.flatMap_append, show [['0']].flatMap (pieces '-') = [['0']] from rfl]
    rcases numericFront_append_zero ((pieces '.' a.toList).flatMap (pieces '-')) with h | h
    · rw [h]
      rfl
    · rw [h, getD_append_zero]
      rfl
  · rw [isRelease, hpieces, List.all_append, List.all_cons, component?_zero]
    exact Bool.and_true _

/-! ## Selecting -/

namespace Selector

theorem newest?_eq_none_iff {vs : List String} : newest? vs = none ↔ vs = [] := by
  cases vs with
  | nil => exact iff_of_true rfl rfl
  | cons v vs =>
    refine iff_of_false ?_ (List.cons_ne_nil v vs)
    unfold newest?
    split
    · split <;> exact Option.some_ne_none _
    · exact Option.some_ne_none _

/-- What is picked is one of the versions, and none of them is above it. -/
theorem newest?_eq_some {vs : List String} {w : String} (h : newest? vs = some w) :
    w ∈ vs ∧ ∀ v ∈ vs, (compareVersions v w).isLE := by
  induction vs generalizing w with
  | nil => cases h
  | cons v vs ih =>
    rw [newest?] at h
    cases hrest : newest? vs with
    | none =>
      rw [hrest] at h
      obtain rfl := Option.some.inj h
      rw [newest?_eq_none_iff.mp hrest]
      simp [compareVersions_self]
    | some u =>
      obtain ⟨hu, hle⟩ := ih hrest
      rw [hrest] at h
      dsimp only at h
      by_cases hgt : compareVersions v u = .gt
      · rw [if_pos (beq_iff_eq.mpr hgt)] at h
        obtain rfl := Option.some.inj h
        have huv : (compareVersions u v).isLE := by
          rw [compareVersions_swap, hgt]
          rfl
        refine ⟨List.mem_cons_self, List.forall_mem_cons.mpr ⟨?_, fun x hx => ?_⟩⟩
        · rw [compareVersions_self]
          rfl
        · exact Std.TransCmp.isLE_trans (hle x hx) huv
      · rw [beq_eq_false_iff_ne.mpr hgt, if_neg Bool.false_ne_true] at h
        obtain rfl := Option.some.inj h
        exact ⟨List.mem_cons_of_mem v hu,
          List.forall_mem_cons.mpr ⟨Ordering.isLE_iff_ne_gt.mpr hgt, hle⟩⟩

variable {s : Selector} {known : List String}

theorem select_eq_none_iff : s.select known = none ↔ ∀ v ∈ known, s.accepts v = false := by
  rw [select, newest?_eq_none_iff, List.filter_eq_nil_iff]
  simp only [Bool.not_eq_true]

theorem select_eq_some {w : String} (h : s.select known = some w) :
    w ∈ known ∧ s.accepts w ∧ ∀ v ∈ known, s.accepts v → (compareVersions v w).isLE := by
  obtain ⟨hw, hle⟩ := newest?_eq_some h
  obtain ⟨hknown, haccepts⟩ := List.mem_filter.mp hw
  exact ⟨hknown, haccepts, fun v hv hv' => hle v (List.mem_filter.mpr ⟨hv, hv'⟩)⟩

end Selector

/-- Versions are in a total preorder, in which a zero at the end does not count. A selector picks
nothing exactly if it accepts none of the known versions, and else one of those that it accepts,
with none of the others above it. -/
theorem versions_ordered_and_newest_selected :
    (∀ a b, compareVersions b a = (compareVersions a b).swap) ∧
      (∀ a b c, (compareVersions a b).isLE → (compareVersions b c).isLE →
        (compareVersions a c).isLE) ∧
      (∀ a b, compareVersions (a ++ ".0") b = compareVersions a b ∧
        compareVersions b (a ++ ".0") = compareVersions b a) ∧
      ∀ (s : Selector) (known : List String),
        (s.select known = none ↔ ∀ v ∈ known, s.accepts v = false) ∧
          ∀ w, s.select known = some w →
            w ∈ known ∧ s.accepts w ∧ ∀ v ∈ known, s.accepts v → (compareVersions v w).isLE := by
  refine ⟨compareVersions_swap, fun a b c hab hbc => ?_, fun a b => ?_, fun s known => ?_⟩
  · exact Std.TransCmp.isLE_trans hab hbc
  · have hzero := compareVersions_append_zero a
    exact ⟨Std.TransCmp.congr_left hzero, Std.TransCmp.congr_right hzero⟩
  · exact ⟨Selector.select_eq_none_iff, fun w hw => Selector.select_eq_some hw⟩

/-- A pre-release is below the release of its number and so below what is above that. -/
theorem pre_release_is_below :
    (compareVersions "5.0-alpha" "5").isLE ∧ (compareVersions "5" "5.0.1").isLE ∧
      (compareVersions "5.0-alpha" "5.0.1").isLE ∧
      (Selector.wildcard [4]).select ["4.12", "4.9.3", "5"] = some "4.12" ∧
      ∀ v ∈ ["4.12", "4.9.3", "5"], (Selector.wildcard [4]).accepts v →
        (compareVersions v "4.12").isLE := by
  obtain ⟨-, htrans, -, hselect⟩ := versions_ordered_and_newest_selected
  have hbelow : (compareVersions "5.0-alpha" "5").isLE := by decide
  have habove : (compareVersions "5" "5.0.1").isLE := by decide
  have hpicked : (Selector.wildcard [4]).select ["4.12", "4.9.3", "5"] = some "4.12" := by decide
  exact ⟨hbelow, habove, htrans _ _ _ hbelow habove, hpicked, ((hselect _ _).2 _ hpicked).2.2⟩

end JavaMigration.Dependency
