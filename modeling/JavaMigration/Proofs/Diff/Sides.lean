import Mathlib.Data.List.Basic
import JavaMigration.Diff.Unified
import JavaMigration.Proofs.Text.SplitLines

/-!
# The two sides of an edit script

An edit script is read from two sides, and nothing that is done to it changes what is read: the
script between two lists has them as its sides, and moving its runs keeps both. So two texts differ
if and only if a line comes or goes.
-/

namespace JavaMigration.Diff

variable {α : Type}

/-! ## Sides -/

/-- What is read from the side that leaves a tag out. -/
def Script.side (out : Tag) (s : Script α) : List α := s.flatMap (·.without out)

@[simp] theorem Script.side_nil (out : Tag) : Script.side out ([] : Script α) = [] := rfl

@[simp] theorem Script.side_cons (out : Tag) (r : Run α) (s : Script α) :
    Script.side out (r :: s) = r.without out ++ Script.side out s := List.flatMap_cons

@[simp] theorem Script.side_append (out : Tag) (s t : Script α) :
    Script.side out (s ++ t) = Script.side out s ++ Script.side out t := List.flatMap_append

theorem Run.without_of_ne {out tag : Tag} (h : tag ≠ out) (entries : List α) :
    (⟨tag, entries⟩ : Run α).without out = entries := if_neg h

theorem Script.side_run (out tag : Tag) (entries : List α) :
    Script.side out (run tag entries) = if tag = out then [] else entries := by
  unfold run
  cases entries with
  | nil => simp
  | cons a as => simp [Run.without]

/-- A script between two lists has them as its sides. -/
def Joins (s : Script α) (old new : List α) : Prop := s.old = old ∧ s.new = new

theorem Joins.append {s t : Script α} {a b c d : List α} (hs : Joins s a b) (ht : Joins t c d) :
    Joins (s ++ t) (a ++ c) (b ++ d) := by
  obtain ⟨rfl, rfl⟩ := hs
  obtain ⟨rfl, rfl⟩ := ht
  exact ⟨Script.side_append .., Script.side_append ..⟩

theorem joins_keep (entries : List α) : Joins (run .keep entries) entries entries :=
  ⟨Script.side_run .., Script.side_run ..⟩

theorem joins_replace (old new : List α) : Joins (run .delete old ++ run .insert new) old new := by
  constructor
  · exact (Script.side_append .insert _ _).trans (by simp [Script.side_run])
  · exact (Script.side_append .delete _ _).trans (by simp [Script.side_run])

/-! ## Short scripts -/

theorem append_drop_of_prefix {front as : List α} (h : front <+: as) :
    front ++ as.drop front.length = as := by
  obtain ⟨back, rfl⟩ := h
  rw [List.drop_left]

theorem take_append_of_suffix {back as : List α} (h : back <:+ as) :
    as.take (as.length - back.length) ++ back = as := by
  obtain ⟨front, rfl⟩ := h
  rw [List.length_append, Nat.add_sub_cancel, List.take_left]

section Shortest

variable [DecidableEq α]

theorem commonPrefix_prefix (as bs : List α) :
    commonPrefix as bs <+: as ∧ commonPrefix as bs <+: bs := by
  induction as generalizing bs with
  | nil => simp [commonPrefix]
  | cons a as ih =>
    cases bs with
    | nil => simp [commonPrefix]
    | cons b bs =>
      unfold commonPrefix
      split
      · next h =>
        subst h
        exact ⟨(List.prefix_cons_inj a).mpr (ih bs).1, (List.prefix_cons_inj a).mpr (ih bs).2⟩
      · exact ⟨List.nil_prefix, List.nil_prefix⟩

theorem commonPrefix_self (as : List α) : commonPrefix as as = as := by
  induction as with
  | nil => rfl
  | cons a as ih => rw [commonPrefix, if_pos rfl, ih]

theorem commonSuffix_suffix (as bs : List α) :
    (commonPrefix as.reverse bs.reverse).reverse <:+ as ∧
      (commonPrefix as.reverse bs.reverse).reverse <:+ bs := by
  obtain ⟨has, hbs⟩ := commonPrefix_prefix as.reverse bs.reverse
  exact ⟨by simpa using List.reverse_suffix.mpr has, by simpa using List.reverse_suffix.mpr hbs⟩

theorem joins_between {rec : List α → List α → Script α} (h : ∀ as bs, Joins (rec as bs) as bs)
    (old new : List α) : Joins (between rec old new) old new := by
  unfold between
  split
  · exact joins_replace old new
  · split
    · next x y _ =>
      have hparts := (h (old.take x) (new.take y)).append (h (old.drop x) (new.drop y))
      rwa [List.take_append_drop, List.take_append_drop] at hparts
    · exact joins_replace old new

theorem joins_scriptFrom (depth : Nat) (old new : List α) :
    Joins (scriptFrom depth old new) old new := by
  induction depth generalizing old new with
  | zero => exact joins_replace old new
  | succ depth ih =>
    obtain ⟨hold, hnew⟩ := commonPrefix_prefix old new
    unfold scriptFrom
    extract_lets front old' new' back old'' new''
    obtain ⟨hold', hnew'⟩ := commonSuffix_suffix old' new'
    have hmiddle := (joins_keep front).append ((joins_between ih old'' new'').append (joins_keep back))
    rw [take_append_of_suffix hold', take_append_of_suffix hnew', append_drop_of_prefix hold,
      append_drop_of_prefix hnew, ← List.append_assoc] at hmiddle
    exact hmiddle

theorem joins_script (old new : List α) : Joins (script old new) old new :=
  joins_scriptFrom _ old new

theorem script_self (as : List α) : script as as = run .keep as := by
  simp [script, scriptFrom, commonPrefix_self, between, run]

/-! ## Compact scripts -/

theorem rotate_eq {kept moving kept' moved passed : List α}
    (h : rotate kept moving = (kept', moved, passed)) :
    kept = passed ++ kept' ∧ moving ++ kept = passed ++ moved ++ kept' := by
  induction kept generalizing moving kept' moved passed with
  | nil => cases moving <;> obtain ⟨rfl, rfl, rfl⟩ := h <;> simp
  | cons a kept ih =>
    cases moving with
    | nil =>
      obtain ⟨rfl, rfl, rfl⟩ := h
      simp
    | cons b moving =>
      unfold rotate at h
      split at h
      · next hab =>
        subst hab
        obtain ⟨rfl, rfl, rfl⟩ := h
        obtain ⟨hkept, hboth⟩ := @ih (moving ++ [a]) _ _ _ rfl
        refine ⟨by rw [List.cons_append, ← hkept], ?_⟩
        rw [List.cons_append, List.cons_append, List.cons_append, ← hboth, List.append_assoc]
        rfl
      · obtain ⟨rfl, rfl, rfl⟩ := h
        simp

/-- A run in front of kept entries reads like the entries it passes, the run afterwards and the
entries that it does not pass. -/
theorem without_slide {tag out : Tag} (hout : out ≠ .keep)
    {kept moving kept' moved passed : List α} (h : slide tag kept moving = (kept', moved, passed)) :
    (⟨tag, moving⟩ : Run α).without out ++ kept =
      passed ++ (⟨tag, moved⟩ : Run α).without out ++ kept' := by
  unfold slide at h
  split at h
  · next hinsert =>
    subst hinsert
    obtain ⟨hkept, hboth⟩ := rotate_eq h
    cases out with
    | keep => exact absurd rfl hout
    | insert => simpa [Run.without] using hkept
    | delete => simpa [Run.without] using hboth
  · obtain ⟨rfl, rfl, rfl⟩ := h
    rfl

/-- The same for a run behind kept entries, where the entries are listed backwards. -/
theorem without_slide_reverse {tag out : Tag} (hout : out ≠ .keep)
    {kept moving kept' moved passed : List α}
    (h : slide tag kept.reverse moving.reverse = (kept', moved, passed)) :
    kept ++ (⟨tag, moving⟩ : Run α).without out =
      kept'.reverse ++ (⟨tag, moved.reverse⟩ : Run α).without out ++ passed.reverse := by
  have hreverse : ∀ l : List α,
      (⟨tag, l.reverse⟩ : Run α).without out = ((⟨tag, l⟩ : Run α).without out).reverse := by
    intro l
    unfold Run.without
    split <;> simp
  have hslide := congrArg List.reverse (without_slide hout h)
  simpa [hreverse] using hslide

omit [DecidableEq α] in
theorem side_keepBefore {out : Tag} (hout : out ≠ .keep) (entries : List α) (s : Script α) :
    (keepBefore entries s).side out = entries ++ s.side out := by
  unfold keepBefore
  split <;> simp [Run.without_of_ne (Ne.symm hout)]

omit [DecidableEq α] in
theorem side_keepBehind {out : Tag} (hout : out ≠ .keep) (entries : List α) (s : Script α) :
    Script.side out (keepBehind entries s).reverse = Script.side out s.reverse ++ entries := by
  unfold keepBehind
  split <;> simp [Run.without_of_ne (Ne.symm hout)]

omit [DecidableEq α] in
/-- Two runs with different tags, neither of which is kept, trade places. -/
theorem without_comm {out : Tag} (hout : out ≠ .keep) {r : Run α} (hr : r.tag ≠ .keep) {tag : Tag}
    (htag : tag ≠ .keep) (hne : r.tag ≠ tag) (entries : List α) :
    r.without out ++ (⟨tag, entries⟩ : Run α).without out =
      (⟨tag, entries⟩ : Run α).without out ++ r.without out := by
  obtain ⟨tag', entries'⟩ := r
  cases out <;> cases tag <;> cases tag' <;> simp_all [Run.without]

omit [DecidableEq α] in
theorem without_append (out tag : Tag) (as bs : List α) :
    (⟨tag, as ++ bs⟩ : Run α).without out =
      (⟨tag, as⟩ : Run α).without out ++ (⟨tag, bs⟩ : Run α).without out := by
  unfold Run.without
  split <;> simp

/-- The script around a run that is being moved. -/
def Focus.script (f : Focus α) : Script α := f.before.reverse ++ ⟨f.tag, f.entries⟩ :: f.behind

theorem side_moveUp {tag out : Tag} (htag : tag ≠ .keep) (hout : out ≠ .keep) (entries : List α)
    (before behind : Script α) :
    (moveUp tag entries before behind).script.side out =
      Script.side out before.reverse ++ (⟨tag, entries⟩ : Run α).without out ++ behind.side out := by
  induction before generalizing entries behind with
  | nil => simp [moveUp, Focus.script]
  | cons r before ih =>
    by_cases hr : r.tag = .keep
    · obtain ⟨_, kept⟩ := r
      obtain rfl : _ = Tag.keep := hr
      cases hslide : slide tag kept.reverse entries.reverse with
      | mk kept' rest =>
        obtain ⟨moved, passed⟩ := rest
        have hread := without_slide_reverse hout hslide
        simp only [moveUp, hslide]
        split
        · next hempty =>
          obtain rfl := List.isEmpty_iff.mp hempty
          rw [ih, side_keepBefore hout]
          simp [Run.without_of_ne (Ne.symm hout), hread]
        · simp [Focus.script, side_keepBefore hout, Run.without_of_ne (Ne.symm hout), hread]
    · rw [moveUp]
      · split
        · next hsame =>
          subst hsame
          rw [ih, without_append]
          simp
        · next hne =>
          rw [ih]
          simp [without_comm hout hr htag hne]
      · rintro kept rfl
        exact hr rfl

theorem moveUp_tag (tag : Tag) (entries : List α) (before behind : Script α) :
    (moveUp tag entries before behind).tag = tag := by
  fun_induction moveUp tag entries before behind <;> simp_all

theorem side_moveDown {tag out : Tag} (htag : tag ≠ .keep) (hout : out ≠ .keep) (entries : List α)
    (before behind : Script α) :
    (moveDown tag entries before behind).script.side out =
      Script.side out before.reverse ++ (⟨tag, entries⟩ : Run α).without out ++ behind.side out := by
  induction behind generalizing entries before with
  | nil => simp [moveDown, Focus.script]
  | cons r behind ih =>
    by_cases hr : r.tag = .keep
    · obtain ⟨_, kept⟩ := r
      obtain rfl : _ = Tag.keep := hr
      cases hslide : slide tag kept entries with
      | mk kept' rest =>
        obtain ⟨moved, passed⟩ := rest
        have hread := congrArg (· ++ Script.side out behind) (without_slide hout hslide)
        simp only [List.append_assoc] at hread
        simp only [moveDown, hslide]
        split
        · next hempty =>
          obtain rfl := List.isEmpty_iff.mp hempty
          rw [ih, side_keepBehind hout]
          simp [Run.without_of_ne (Ne.symm hout), hread]
        · simp [Focus.script, side_keepBehind hout, Run.without_of_ne (Ne.symm hout), hread]
    · rw [moveDown]
      · split
        · next hsame =>
          subst hsame
          rw [ih, without_append]
          simp
        · next hne =>
          rw [ih]
          simp [without_comm hout hr htag hne]
      · rintro kept rfl
        exact hr rfl

theorem moveDown_tag (tag : Tag) (entries : List α) (before behind : Script α) :
    (moveDown tag entries before behind).tag = tag := by
  fun_induction moveDown tag entries before behind <;> simp_all

theorem side_compactFrom {tag out : Tag} (htag : tag ≠ .keep) (hout : out ≠ .keep) (bound : Nat)
    (before behind : Script α) :
    (compactFrom tag bound before behind).side out =
      Script.side out before.reverse ++ behind.side out := by
  induction bound generalizing before behind with
  | zero => simp [compactFrom]
  | succ bound ih =>
    cases behind with
    | nil => simp [compactFrom]
    | cons r behind =>
      unfold compactFrom
      split
      · next hsame =>
        subst hsame
        have hup := side_moveUp htag hout r.entries before behind
        have hdown := side_moveDown htag hout (moveUp r.tag r.entries before behind).entries
          (moveUp r.tag r.entries before behind).before (moveUp r.tag r.entries before behind).behind
        simp only [Focus.script, moveUp_tag, moveDown_tag, Script.side_append, Script.side_cons,
          List.append_assoc] at hup hdown
        simp only [ih, List.reverse_cons, Script.side_append, Script.side_cons, Script.side_nil,
          List.append_nil, List.append_assoc]
        rw [hdown, hup]
      · rw [ih]
        simp

theorem side_compact {out : Tag} (hout : out ≠ .keep) (s : Script α) :
    (compact s).side out = s.side out := by
  unfold compact
  rw [side_compactFrom (by decide) hout, side_compactFrom (by decide) hout]
  rfl

theorem joins_compact {s : Script α} {old new : List α} (h : Joins s old new) :
    Joins (compact s) old new :=
  ⟨(side_compact (by decide) s).trans h.1, (side_compact (by decide) s).trans h.2⟩

theorem compactFrom_keep {tag : Tag} (htag : tag ≠ .keep) (bound : Nat) (as : List α) :
    compactFrom tag bound [] (run .keep as) = run .keep as := by
  cases bound with
  | zero => rfl
  | succ bound =>
    cases as with
    | nil => rfl
    | cons a as =>
      simp only [run, List.isEmpty_cons, Bool.false_eq_true, if_false, compactFrom,
        if_neg (Ne.symm htag)]
      cases bound <;> rfl

theorem compact_keep (as : List α) : compact (run .keep as) = run .keep as := by
  unfold compact
  rw [compactFrom_keep (by decide), compactFrom_keep (by decide)]

end Shortest

/-! ## Segments -/

/-- The lines of a segment before the change. -/
def Segment.old : Segment → List String
  | kept lines => lines
  | changed deleted _ => deleted

/-- The lines of a segment after the change. -/
def Segment.new : Segment → List String
  | kept lines => lines
  | changed _ inserted => inserted

theorem flatMap_cons (r : Run String) (rest : List Segment) :
    (Segment.cons r rest).flatMap Segment.old = r.without .insert ++ rest.flatMap Segment.old ∧
      (Segment.cons r rest).flatMap Segment.new = r.without .delete ++ rest.flatMap Segment.new := by
  obtain ⟨tag, entries⟩ := r
  unfold Segment.cons
  split <;> simp_all [Run.without, Segment.old, Segment.new]

theorem flatMap_segments (s : Script String) :
    (s.foldr Segment.cons []).flatMap Segment.old = s.old ∧
      (s.foldr Segment.cons []).flatMap Segment.new = s.new := by
  induction s with
  | nil => exact ⟨rfl, rfl⟩
  | cons r s ih =>
    obtain ⟨hold, hnew⟩ := flatMap_cons r (s.foldr Segment.cons [])
    rw [List.foldr_cons, hold, hnew, ih.1, ih.2]
    exact ⟨rfl, rfl⟩

/-- The segments between two texts are read as the lines of the one and of the other. -/
theorem segments_sides (old new : String) :
    (segments old new).flatMap Segment.old = Text.lines old ∧
      (segments old new).flatMap Segment.new = Text.lines new := by
  obtain ⟨hold, hnew⟩ := joins_compact (joins_script (Text.lines old) (Text.lines new))
  obtain ⟨hold', hnew'⟩ := flatMap_segments (compact (script (Text.lines old) (Text.lines new)))
  exact ⟨hold'.trans hold, hnew'.trans hnew⟩

/-! ## Summaries -/

theorem old_eq_new_of_no_changes {ss : List Segment}
    (hdeleted : ss.flatMap Segment.deleted = []) (hinserted : ss.flatMap Segment.inserted = []) :
    ss.flatMap Segment.old = ss.flatMap Segment.new := by
  rw [List.flatMap_eq_nil_iff] at hdeleted hinserted
  refine List.flatMap_congr fun s hs => ?_
  cases s with
  | kept lines => rfl
  | changed deleted inserted =>
    exact (hdeleted _ hs : deleted = []).trans (hinserted _ hs : inserted = []).symm

/-- A file counts as changed if and only if its two texts differ. -/
theorem files_ofTexts (old new : String) :
    (Summary.ofTexts old new).files = if old = new then 0 else 1 := by
  unfold Summary.ofTexts
  split
  · next h =>
    subst h
    have hsegments : segments old old = (run .keep (Text.lines old)).foldr Segment.cons [] := by
      rw [segments, script_self, compact_keep]
    cases hlines : Text.lines old <;>
      simp [hsegments, hlines, run, Segment.cons, Segment.inserted, Segment.deleted]
  · next h =>
    dsimp only
    rw [if_pos]
    by_contra hnone
    simp only [gt_iff_lt, Bool.or_eq_true, decide_eq_true_eq, not_or, Nat.not_lt, Nat.le_zero_eq,
      List.length_eq_zero_iff] at hnone
    obtain ⟨hold, hnew⟩ := segments_sides old new
    have hsame := old_eq_new_of_no_changes hnone.2 hnone.1
    rw [hold, hnew] at hsame
    exact h (Text.lines_injective hsame)

end JavaMigration.Diff
