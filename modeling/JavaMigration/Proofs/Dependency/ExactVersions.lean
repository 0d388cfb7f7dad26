import Mathlib.Data.List.DropRight
import JavaMigration.Proofs.Dependency.VersionOrder

/-!
# Asking for one version

A version is written as dotted numerals with a qualifier behind them, which a release does not
have. The order of versions sees the numbers at the front and whether there is a qualifier, but not
what the qualifier says. So who asks for a release gets that release, up to zeros at the end of it,
and who asks for a pre-release may get another one of the same number (`exact_selects_same_iff`).
-/

namespace JavaMigration.Dependency

open Text

/-! ## The two parts of a version -/

def isNumeric (p : List Char) : Bool := (component? p).isSome

/-- The numbers that a version begins with, as they are written between its dots. -/
def numerals (version : String) : List (List Char) :=
  (pieces '.' (version.toList.takeWhile (· != '-'))).takeWhile isNumeric

/-- What stands behind the numerals. -/
def qualifier (version : String) : List Char :=
  version.toList.drop (dotted (numerals version)).length

def isZeroNumeral (p : List Char) : Bool := component? p == some 0

/-- Two texts that are the same up to numerals for zero at the end of their numerals. -/
def SameVersion (v w : String) : Prop :=
  (numerals v).rdropWhile isZeroNumeral = (numerals w).rdropWhile isZeroNumeral ∧
    qualifier v = qualifier w

instance (v w : String) : Decidable (SameVersion v w) := inferInstanceAs (Decidable (_ ∧ _))

/-- The numerals are as numbers are printed, without signs and without zeros in front. -/
def hasPlainNumerals (version : String) : Bool :=
  (numerals version).all fun p => (component? p).any fun n => p == Nat.toDigits 10 n

/-! ## Numerals and numbers -/

/-- The parts of a text between its dots and hyphens. -/
def components (s : List Char) : List (List Char) := (pieces '.' s).flatMap (pieces '-')

theorem components_dot (s : List Char) : components ('.' :: s) = [] :: components s := rfl

theorem components_hyphen (s : List Char) : components ('-' :: s) = [] :: components s := by
  obtain ⟨p, ps, hp⟩ := List.exists_cons_of_ne_nil (pieces_ne_nil '.' s)
  rw [components, components, pieces, if_neg (by decide), hp]
  rfl

/-- A character that does not cut a text is put in front of its first part. -/
theorem components_cons {c : Char} (hdot : c ≠ '.') (hhyphen : c ≠ '-') (s : List Char) :
    ∃ q qs, components s = q :: qs ∧ components (c :: s) = (c :: q) :: qs := by
  obtain ⟨p, ps, hp⟩ := List.exists_cons_of_ne_nil (pieces_ne_nil '.' s)
  obtain ⟨q, qs, hq⟩ := List.exists_cons_of_ne_nil (pieces_ne_nil '-' p)
  refine ⟨q, qs ++ ps.flatMap (pieces '-'), ?_, ?_⟩
  · rw [components, hp, List.flatMap_cons, hq, List.cons_append]
  · rw [components, pieces, if_neg hdot, hp, List.flatMap_cons, pieces, if_neg hhyphen, hq]
    rfl

theorem components_append_hyphen (s t : List Char) :
    components (s ++ '-' :: t) = components s ++ components t := by
  induction s with
  | nil => exact components_hyphen t
  | cons c s ih =>
    by_cases hdot : c = '.'
    · subst hdot
      rw [List.cons_append, components_dot, components_dot, ih, List.cons_append]
    · by_cases hhyphen : c = '-'
      · subst hhyphen
        rw [List.cons_append, components_hyphen, components_hyphen, ih, List.cons_append]
      · obtain ⟨q, qs, hs, hcs⟩ := components_cons hdot hhyphen s
        obtain ⟨q', qs', ht, hct⟩ := components_cons hdot hhyphen (s ++ '-' :: t)
        rw [ih, hs, List.cons_append] at ht
        obtain ⟨rfl, rfl⟩ := List.cons.inj ht
        rw [List.cons_append, hct, hcs, List.cons_append]

theorem components_of_not_mem {s : List Char} (h : '-' ∉ s) : components s = pieces '.' s := by
  induction s with
  | nil => rfl
  | cons c s ih =>
    have ih := ih (List.not_mem_of_not_mem_cons h)
    by_cases hdot : c = '.'
    · subst hdot
      rw [components_dot, ih]
      rfl
    · obtain ⟨q, qs, hs, hcs⟩ := components_cons hdot (List.ne_of_not_mem_cons h).symm s
      rw [hcs, pieces, if_neg hdot, ← ih, hs]

/-- The numbers of some parts, and those behind them if the parts are all numbers. -/
theorem numericFront_append (ps qs : List (List Char)) :
    numericFront (ps ++ qs) =
      (ps.takeWhile isNumeric).filterMap component? ++
        if ps.all isNumeric then numericFront qs else [] := by
  induction ps with
  | nil => rfl
  | cons p ps ih =>
    rw [List.cons_append, numericFront, List.takeWhile_cons, List.all_cons]
    cases hp : component? p with
    | none => simp [isNumeric, hp]
    | some n => simp [isNumeric, hp, ih]

/-- The parts behind a hyphen that a text begins with. -/
def partsBehind : List Char → List (List Char)
  | '-' :: t => components t
  | _ => []

theorem components_append {s r : List Char} (hs : '-' ∉ s) (hr : r = [] ∨ ∃ t, r = '-' :: t) :
    components (s ++ r) = pieces '.' s ++ partsBehind r := by
  obtain rfl | ⟨t, rfl⟩ := hr
  · rw [List.append_nil, components_of_not_mem hs, partsBehind, List.append_nil]
    nofun
  · rw [components_append_hyphen, components_of_not_mem hs, partsBehind]

/-- A version is cut at its first hyphen, and its numerals are in front of that. -/
theorem exists_cut (version : String) :
    ∃ s r, version.toList = s ++ r ∧ '-' ∉ s ∧ (r = [] ∨ ∃ t, r = '-' :: t) ∧
      numerals version = (pieces '.' s).takeWhile isNumeric := by
  have hnot : '-' ∉ version.toList.takeWhile (· != '-') := fun h => by
    exact absurd (@List.mem_takeWhile_imp _ (· != '-') _ _ h) (by decide)
  refine ⟨_, _, List.takeWhile_append_dropWhile.symm, hnot, ?_, rfl⟩
  have hhead := List.head?_dropWhile_not (· != '-') version.toList
  cases hr : version.toList.dropWhile (· != '-') with
  | nil => exact .inl rfl
  | cons c t =>
    rw [hr] at hhead
    have hc : c = '-' := by simpa using hhead
    exact .inr ⟨t, hc ▸ rfl⟩

/-- Either all in front of the first hyphen is numerals and the qualifier is what is left, or the
qualifier begins with the dot behind the last numeral. -/
theorem qualifier_cases {s r : List Char} {version : String} (htext : version.toList = s ++ r)
    (hnumerals : numerals version = (pieces '.' s).takeWhile isNumeric) :
    version.toList = dotted (numerals version) ++ qualifier version ∧
      if (pieces '.' s).all isNumeric then numerals version = pieces '.' s ∧ qualifier version = r
      else numerals version = [] ∨ ∃ t, qualifier version = '.' :: t := by
  by_cases hall : (pieces '.' s).all isNumeric
  · have hself : numerals version = pieces '.' s := by
      rw [hnumerals]
      exact List.takeWhile_eq_self_iff.mpr (List.all_eq_true.mp hall)
    have hqualifier : qualifier version = r := by
      rw [qualifier, hself, dotted_pieces, htext, List.drop_left]
    rw [if_pos hall, hqualifier, hself, dotted_pieces]
    exact ⟨htext, rfl, rfl⟩
  · have hrest : (pieces '.' s).dropWhile isNumeric ≠ [] := fun h =>
      hall (List.all_eq_true.mpr (List.dropWhile_eq_nil_iff.mp h))
    obtain ⟨q, qs, hcons⟩ := List.exists_cons_of_ne_nil hrest
    have hsplit : numerals version ++ q :: qs = pieces '.' s := by
      rw [hnumerals, ← hcons, List.takeWhile_append_dropWhile]
    obtain ⟨rest, hdotted, hdot⟩ := dotted_append_cons (numerals version) q qs
    rw [hsplit, dotted_pieces] at hdotted
    have hqualifier : qualifier version = rest ++ r := by
      rw [qualifier, htext, hdotted, List.append_assoc, List.drop_left]
    rw [if_neg hall, hqualifier, htext, hdotted, List.append_assoc]
    exact ⟨rfl, hdot.imp_right fun ⟨t, ht⟩ => ⟨t ++ r, by rw [ht]; rfl⟩⟩

/-- A version reads as its numerals with the qualifier behind them. -/
theorem dotted_numerals_append_qualifier (version : String) :
    dotted (numerals version) ++ qualifier version = version.toList := by
  obtain ⟨s, r, htext, -, -, hnumerals⟩ := exists_cut version
  exact (qualifier_cases htext hnumerals).1.symm

/-- The numbers of a version are those of its numerals, and of what is behind a hyphen if that
follows them. -/
theorem numbers_eq (version : String) :
    numbers version = (numerals version).filterMap component? ++
      if numerals version = [] then [] else numericFront (partsBehind (qualifier version)) := by
  obtain ⟨s, r, htext, hs, hr, hnumerals⟩ := exists_cut version
  have hnumbers : numbers version = numericFront (pieces '.' s ++ partsBehind r) := by
    rw [← components_append hs hr, ← htext]
    rfl
  have hcases := (qualifier_cases htext hnumerals).2
  rw [hnumbers, numericFront_append, ← hnumerals]
  congr 1
  by_cases hall : (pieces '.' s).all isNumeric
  · rw [if_pos hall] at hcases ⊢
    rw [hcases.1, hcases.2, if_neg (pieces_ne_nil '.' s)]
  · rw [if_neg hall] at hcases ⊢
    obtain hempty | ⟨t, hdot⟩ := hcases
    · rw [if_pos hempty]
    · rw [hdot]
      split <;> rfl

/-! ## Releases -/

theorem not_mem_of_isNumeric {p : List Char} (h : isNumeric p) : '-' ∉ p := by
  intro hmem
  obtain ⟨n, hn⟩ := Option.isSome_iff_exists.mp h
  unfold component? at hn
  extract_lets digits at hn
  have hdigits : '-' ∈ digits := by
    cases p with
    | nil => cases hmem
    | cons c p =>
      by_cases hc : c = '+'
      · subst hc
        exact (List.mem_cons.mp hmem).resolve_left (by decide)
      · have hself : digits = c :: p := by simp [digits, dropStart?, Ne.symm hc]
        rwa [hself]
  split at hn
  · cases hn
  · next hdigit =>
    rw [Bool.or_eq_true, not_or, Bool.not_eq_true', Bool.not_eq_false] at hdigit
    exact absurd (List.all_eq_true.mp hdigit.2 _ hdigits) (by decide)

/-- There is no hyphen in a release. -/
theorem not_mem_of_isRelease {version : String} (h : isRelease version) :
    '-' ∉ version.toList := by
  intro hmem
  obtain ⟨p, hp, hyphen⟩ := mem_pieces (by decide : '-' ≠ '.') hmem
  exact not_mem_of_isNumeric (List.all_eq_true.mp h p hp) hyphen

theorem qualifier_of_isRelease {version : String} (h : isRelease version) :
    qualifier version = [] := by
  obtain ⟨s, r, htext, -, hr, hnumerals⟩ := exists_cut version
  have hrest : r = [] := hr.resolve_right fun ⟨t, ht⟩ =>
    not_mem_of_isRelease h (by rw [htext, ht]; simp)
  have hcases := (qualifier_cases htext hnumerals).2
  rw [hrest, List.append_nil] at htext
  rw [← htext, show (pieces '.' version.toList).all isNumeric = true from h, if_pos rfl] at hcases
  rw [hcases.2, hrest]

/-! ## Zeros at the end -/

theorem rdropWhile_append {α : Type} (p : α → Bool) (as bs : List α) :
    (as ++ bs).rdropWhile p =
      if (bs.rdropWhile p).isEmpty then as.rdropWhile p else as ++ bs.rdropWhile p := by
  unfold List.rdropWhile
  rw [List.reverse_append, List.dropWhile_append, List.isEmpty_reverse]
  split
  · rfl
  · rw [List.reverse_append, List.reverse_reverse]

theorem rdropWhile_cons {α : Type} (p : α → Bool) (a : α) (as : List α) :
    (a :: as).rdropWhile p =
      if (as.rdropWhile p).isEmpty then if p a then [] else [a] else a :: as.rdropWhile p := by
  have hsingle : [a].rdropWhile p = if p a then [] else [a] := by
    by_cases ha : p a <;> simp [List.rdropWhile, ha]
  rw [← List.singleton_append, rdropWhile_append, hsingle]
  rfl

/-- Without the zeros at the end. -/
def trimZeros (as : List Nat) : List Nat := as.rdropWhile (· == 0)

/-- What is left is settled by the first number, a zero if there is none, and the others. -/
theorem trimZeros_step (as : List Nat) :
    trimZeros as =
      if (trimZeros as.tail).isEmpty then if as.getD 0 0 == 0 then [] else [as.getD 0 0]
      else as.getD 0 0 :: trimZeros as.tail := by
  cases as with
  | nil => rfl
  | cons a as => exact rdropWhile_cons _ a as

/-- Numbers that compare equal are the same without the zeros at the end. -/
theorem trimZeros_eq_of_compareNumbers {as bs : List Nat} (h : compareNumbers as bs = .eq) :
    trimZeros as = trimZeros bs := by
  rw [compareNumbers_eq_iff] at h
  induction as, bs using numbers_induction with
  | nil => rfl
  | step as bs ih =>
    have htail := ih fun i => by rw [← getD_succ, ← getD_succ, h]
    rw [trimZeros_step as, trimZeros_step bs, htail, h 0]

theorem trimZeros_append_cancel {as bs cs : List Nat}
    (h : trimZeros (as ++ cs) = trimZeros (bs ++ cs)) : trimZeros as = trimZeros bs := by
  unfold trimZeros at h ⊢
  rw [rdropWhile_append, rdropWhile_append] at h
  split at h
  · exact h
  · rw [List.append_cancel_right h]

theorem trimZeros_eq_nil_of_append {as bs : List Nat} (h : trimZeros (as ++ bs) = []) :
    trimZeros as = [] := by
  unfold trimZeros at h ⊢
  rw [List.rdropWhile_eq_nil_iff] at h ⊢
  exact fun a ha => h a (List.mem_append_left bs ha)

/-- Plain numerals are the numbers that they stand for, printed. -/
theorem rdropWhile_numerals {ps : List (List Char)}
    (h : ∀ p ∈ ps, ∃ n, component? p = some n ∧ p = Nat.toDigits 10 n) :
    ps.rdropWhile isZeroNumeral = (trimZeros (ps.filterMap component?)).map (Nat.toDigits 10) := by
  induction ps with
  | nil => rfl
  | cons p ps ih =>
    obtain ⟨⟨n, hn, hp⟩, hps⟩ := List.forall_mem_cons.mp h
    have hzero : isZeroNumeral p = (n == 0) := by rw [isZeroNumeral, hn]; rfl
    rw [rdropWhile_cons, ih hps, List.filterMap_cons_some hn, trimZeros_step (n :: _),
      List.isEmpty_map, hzero, List.tail_cons, List.getD_cons_zero]
    split
    · split
      · rfl
      · rw [hp]; rfl
    · rw [List.map_cons, ← hp]

/-! ## Asking for one version -/

theorem exists_of_hasPlainNumerals {version : String} (h : hasPlainNumerals version) :
    ∀ p ∈ numerals version, ∃ n, component? p = some n ∧ p = Nat.toDigits 10 n := by
  intro p hp
  obtain ⟨n, hn, heq⟩ := (Option.any_eq_true _ _).mp (List.all_eq_true.mp h p hp)
  exact ⟨n, hn, beq_iff_eq.mp heq⟩

/-- Versions that compare equal are the same as far as their qualifiers are. -/
theorem sameVersion_iff {v w : String} (hv : hasPlainNumerals v) (hw : hasPlainNumerals w)
    (h : compareVersions v w = .eq) : SameVersion v w ↔ qualifier v = qualifier w := by
  refine ⟨fun hsame => hsame.2, fun hqualifier => ⟨?_, hqualifier⟩⟩
  rw [rdropWhile_numerals (exists_of_hasPlainNumerals hv),
    rdropWhile_numerals (exists_of_hasPlainNumerals hw)]
  have hnumbers : compareNumbers (numbers v) (numbers w) = .eq :=
    compareNumbers_eq_iff.mpr (compareVersions_eq_iff.mp h).1
  have htrim := trimZeros_eq_of_compareNumbers hnumbers
  rw [numbers_eq, numbers_eq, hqualifier] at htrim
  congr 1
  split at htrim <;> split at htrim
  · next hnil hnil' => rw [hnil, hnil']
  · next hnil _ =>
    rw [hnil] at htrim ⊢
    exact (trimZeros_eq_nil_of_append htrim.symm).symm
  · next _ hnil =>
    rw [hnil] at htrim ⊢
    exact trimZeros_eq_nil_of_append htrim
  · exact trimZeros_append_cancel htrim

/-- A hyphen more makes no difference to the order of pre-releases. -/
theorem compareVersions_append_hyphen {v : String} (h : isRelease v = false) :
    compareVersions (v ++ "-") v = .eq := by
  have htext : (v ++ "-").toList = v.toList ++ '-' :: [] := String.toList_append
  have hrelease : isRelease (v ++ "-") = false := by
    rw [← Bool.not_eq_true]
    exact fun hrelease => not_mem_of_isRelease hrelease (by rw [htext]; simp)
  have hnumbers : numbers (v ++ "-") = numbers v := by
    have hcomponents : components (v ++ "-").toList = components v.toList ++ [[]] := by
      rw [htext, components_append_hyphen]
      rfl
    have hself := numericFront_append (components v.toList) []
    rw [List.append_nil] at hself
    rw [show numbers (v ++ "-") = numericFront (components (v ++ "-").toList) from rfl, hcomponents,
      numericFront_append]
    exact hself.symm
  rw [compareVersions_eq_iff, hnumbers, hrelease, h]
  exact ⟨fun _ => rfl, rfl⟩

theorem numerals_append_hyphen (v : String) : numerals (v ++ "-") = numerals v := by
  have htext : (v ++ "-").toList = v.toList ++ ['-'] := String.toList_append
  rw [numerals, numerals, htext, List.takeWhile_append]
  split
  · next h =>
    rw [List.takeWhile_cons_of_neg (by decide), List.append_nil,
      (List.takeWhile_prefix _).eq_of_length h]
  · rfl

/-- A pre-release is confused with the one that has a hyphen more. -/
theorem not_sameVersion_append_hyphen (v : String) : ¬SameVersion (v ++ "-") v := by
  rintro ⟨-, hqualifier⟩
  have htext := dotted_numerals_append_qualifier (v ++ "-")
  rw [numerals_append_hyphen, hqualifier, dotted_numerals_append_qualifier, String.toList_append,
    List.self_eq_append_right] at htext
  exact absurd htext (by decide)

theorem select_exact_singleton {v w : String} (h : compareVersions w v = .eq) :
    (Selector.exact v).select [w] = some w := by
  have haccepts : (Selector.exact v).accepts w = true := beq_iff_eq.mpr h
  rw [Selector.select, List.filter_cons_of_pos haccepts]
  rfl

/-- Who asks for a version by a plainly written text gets, of plainly written ones, always the same
version exactly if it is a release. Of other versions it is the same one as long as its qualifier
is. -/
theorem exact_selects_same_iff {s v : String} (hs : Selector.ofText s = .exact v)
    (hv : hasPlainNumerals v) :
    ((∀ known w, (Selector.ofText s).select known = some w → hasPlainNumerals w →
        SameVersion w v) ↔ isRelease v) ∧
      ∀ known w, (Selector.ofText s).select known = some w → hasPlainNumerals w →
        (SameVersion w v ↔ qualifier w = qualifier v) := by
  have hequal : ∀ known w, (Selector.exact v).select known = some w → compareVersions w v = .eq :=
    fun known w hw => beq_iff_eq.mp (Selector.select_eq_some hw).2.1
  rw [hs]
  refine ⟨⟨fun hsame => ?_, fun hrelease known w hw hplain => ?_⟩, fun known w hw hplain => ?_⟩
  · rw [← Bool.not_eq_false]
    intro hrelease
    have hplain : hasPlainNumerals (v ++ "-") := by rwa [hasPlainNumerals, numerals_append_hyphen]
    have hselect := select_exact_singleton (compareVersions_append_hyphen hrelease)
    exact not_sameVersion_append_hyphen v (hsame _ _ hselect hplain)
  · have h := hequal known w hw
    have hrelease' : isRelease w := (compareVersions_eq_iff.mp h).2.trans hrelease
    rw [sameVersion_iff hplain hv h, qualifier_of_isRelease hrelease,
      qualifier_of_isRelease hrelease']
  · exact sameVersion_iff hplain hv (hequal known w hw)

/-- A release is found under a longer text for it. -/
theorem release_is_selected_as_asked :
    Selector.ofText " 4.9" = .exact "4.9" ∧ hasPlainNumerals "4.9" ∧ isRelease "4.9" ∧
      (Selector.ofText " 4.9").select ["4.9-rc", "4.9.0", "5"] = some "4.9.0" ∧
      hasPlainNumerals "4.9.0" ∧ SameVersion "4.9.0" "4.9" := by
  have hs : Selector.ofText " 4.9" = .exact "4.9" := by decide +kernel
  have hselect : (Selector.ofText " 4.9").select ["4.9-rc", "4.9.0", "5"] = some "4.9.0" := by
    rw [hs]
    decide
  have hsame := (exact_selects_same_iff hs (by decide)).1.mpr (by decide) _ _ hselect (by decide)
  exact ⟨hs, by decide, by decide, hselect, by decide, hsame⟩

/-- One pre-release is taken for another. -/
theorem other_pre_release_is_selected :
    Selector.ofText "5.0.0-alpha.14" = .exact "5.0.0-alpha.14" ∧
      (Selector.ofText "5.0.0-alpha.14").select ["5.0.0-alpha.14", "5.0.0-beta.1"] =
        some "5.0.0-beta.1" ∧
      ¬SameVersion "5.0.0-beta.1" "5.0.0-alpha.14" := by
  have hs : Selector.ofText "5.0.0-alpha.14" = .exact "5.0.0-alpha.14" := by decide +kernel
  refine ⟨hs, ?_, by decide⟩
  rw [hs]
  decide

end JavaMigration.Dependency
