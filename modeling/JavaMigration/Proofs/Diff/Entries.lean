import Mathlib.Data.List.Chain
import JavaMigration.Proofs.Diff.Sides

/-!
# The lines of a diff

A diff lists the lines of its segments with their tags. The lines on either side are those of a text,
so a line without an ending has at most lines of the other side behind it (`pairwise_entriesBetween`).
Kept lines and changes take turns (`alternating_segments`), so an inserted line is never directly in
front of a deleted one.
-/

namespace JavaMigration.Diff

open Text

/-! ## Lines with tags -/

/-- A line of a diff. -/
abbrev Entry : Type := Tag × String

/-- The lines of a segment, the deleted ones first. -/
def Segment.entries : Segment → List Entry
  | kept lines => lines.map (.keep, ·)
  | changed deleted inserted => deleted.map (.delete, ·) ++ inserted.map (.insert, ·)

def entriesOf (ss : List Segment) : List Entry := ss.flatMap Segment.entries

/-- The lines on the side that leaves a tag out. -/
def sideOf (out : Tag) (es : List Entry) : List String :=
  (es.filter (·.1 != out)).map Prod.snd

@[simp] theorem entriesOf_nil : entriesOf [] = [] := rfl

@[simp] theorem entriesOf_cons (s : Segment) (ss : List Segment) :
    entriesOf (s :: ss) = s.entries ++ entriesOf ss := List.flatMap_cons

@[simp] theorem entriesOf_append (ss ts : List Segment) :
    entriesOf (ss ++ ts) = entriesOf ss ++ entriesOf ts := List.flatMap_append

theorem keep_of_mem_map {lines : List String} : ∀ e ∈ lines.map (Tag.keep, ·), e.1 = .keep := by
  simp

theorem sideOf_append (out : Tag) (es fs : List Entry) :
    sideOf out (es ++ fs) = sideOf out es ++ sideOf out fs := by
  rw [sideOf, List.filter_append, List.map_append]
  rfl

theorem sideOf_map (out tag : Tag) (lines : List String) :
    sideOf out (lines.map (tag, ·)) = if tag = out then [] else lines := by
  rw [sideOf, List.filter_map]
  by_cases h : tag = out
  · rw [if_pos h, List.filter_eq_nil_iff.mpr (by simp [h])]
    rfl
  · rw [if_neg h, List.filter_eq_self.mpr (by simp [h]), List.map_map]
    exact List.map_id _

theorem sideOf_sublist {es fs : List Entry} (h : es.Sublist fs) (out : Tag) :
    (sideOf out es).Sublist (sideOf out fs) :=
  (h.filter _).map _

/-- The sides of the lines are those of the segments. -/
theorem sideOf_entriesOf (ss : List Segment) :
    sideOf .insert (entriesOf ss) = ss.flatMap Segment.old ∧
      sideOf .delete (entriesOf ss) = ss.flatMap Segment.new := by
  induction ss with
  | nil => exact ⟨rfl, rfl⟩
  | cons s ss ih =>
    rw [entriesOf_cons, sideOf_append, sideOf_append, ih.1, ih.2]
    cases s <;> simp [Segment.entries, sideOf_append, sideOf_map, Segment.old, Segment.new]

/-- The lines with a tag are counted as the summary counts them. -/
theorem countP_entriesOf (ss : List Segment) :
    (entriesOf ss).countP (·.1 == .insert) = (ss.flatMap Segment.inserted).length ∧
      (entriesOf ss).countP (·.1 == .delete) = (ss.flatMap Segment.deleted).length := by
  induction ss with
  | nil => exact ⟨rfl, rfl⟩
  | cons s ss ih =>
    rw [entriesOf_cons, List.countP_append, List.countP_append, ih.1, ih.2]
    cases s <;>
      simp [Segment.entries, Segment.inserted, Segment.deleted, List.countP_map, Function.comp_def]

/-! ## Line endings -/

/-- Whether a line of a diff has a line ending. -/
def Entry.isEnded (e : Entry) : Bool := endsLine e.2.toList

theorem pairwise_lines (s : String) : (lines s).Pairwise fun l _ => endsLine l.toList := by
  rw [lines, List.pairwise_map]
  exact (pairwise_splitLines s.toList).imp fun h => by rwa [String.toList_ofList]

theorem isLine_of_mem_lines {s l : String} (h : l ∈ lines s) : IsLine l.toList := by
  obtain ⟨line, hline, rfl⟩ := List.mem_map.mp h
  rw [String.toList_ofList]
  exact isLine_of_mem_splitLines hline

theorem mem_of_mem_lines {s l : String} (h : l ∈ lines s) {c : Char} (hc : c ∈ l.toList) :
    c ∈ s.toList := by
  obtain ⟨line, hline, rfl⟩ := List.mem_map.mp h
  rw [String.toList_ofList] at hc
  rw [← flatten_splitLines s.toList]
  exact List.mem_flatten.mpr ⟨line, hline, hc⟩

theorem endsLine_of_mem_lines {s l : String} (hs : endsLine s.toList) (h : l ∈ lines s) :
    endsLine l.toList := by
  obtain ⟨line, hline, rfl⟩ := List.mem_map.mp h
  rw [String.toList_ofList]
  exact endsLine_of_mem_splitLines hs hline

/-- The lines between two texts, the kept and the changed ones. -/
def entriesBetween (old new : String) : List Entry := entriesOf (segments old new)

theorem sideOf_entriesBetween (old new : String) :
    sideOf .insert (entriesBetween old new) = lines old ∧
      sideOf .delete (entriesBetween old new) = lines new := by
  obtain ⟨hold, hnew⟩ := sideOf_entriesOf (segments old new)
  exact ⟨hold.trans (segments_sides old new).1, hnew.trans (segments_sides old new).2⟩

theorem mem_lines_of_mem_entriesBetween {old new : String} {e : Entry}
    (h : e ∈ entriesBetween old new) : e.2 ∈ lines old ∨ e.2 ∈ lines new := by
  obtain ⟨hold, hnew⟩ := sideOf_entriesBetween old new
  by_cases htag : e.1 = .insert
  · refine .inr (hnew ▸ List.mem_map_of_mem (List.mem_filter.mpr ⟨h, ?_⟩))
    rw [htag]
    rfl
  · exact .inl (hold ▸ List.mem_map_of_mem (List.mem_filter.mpr ⟨h, bne_iff_ne.mpr htag⟩))

theorem isLine_of_mem_entriesBetween {old new : String} {e : Entry}
    (h : e ∈ entriesBetween old new) : IsLine e.2.toList :=
  (mem_lines_of_mem_entriesBetween h).elim isLine_of_mem_lines isLine_of_mem_lines

/-- Two lines that are on no common side. -/
def Entry.Opposes (e f : Entry) : Prop :=
  e.1 = .delete ∧ f.1 = .insert ∨ e.1 = .insert ∧ f.1 = .delete

theorem Entry.Opposes.changed {e f : Entry} (h : e.Opposes f) : f.1 ≠ .keep := by
  rcases h with ⟨-, hinsert⟩ | ⟨-, hdelete⟩
  · rw [hinsert]
    decide
  · rw [hdelete]
    decide

/-- Only a deleted and an inserted line can have one without an ending in front of the other: any other
two lines are on one side. -/
theorem pairwise_entriesBetween (old new : String) :
    (entriesBetween old new).Pairwise fun e f => e.isEnded ∨ e.Opposes f := by
  obtain ⟨hold, hnew⟩ := sideOf_entriesBetween old new
  have hside {out : Tag} {s : String} (h : sideOf out (entriesBetween old new) = lines s) :
      (entriesBetween old new).Pairwise fun e f => e.1 ≠ out → f.1 ≠ out → e.isEnded := by
    have hpairs := pairwise_lines s
    rw [← h, sideOf, List.pairwise_map, List.pairwise_filter] at hpairs
    exact hpairs.imp fun hpair he hf => hpair (bne_iff_ne.mpr he) (bne_iff_ne.mpr hf)
  refine ((hside hold).and (hside hnew)).imp ?_
  rintro ⟨tag, line⟩ ⟨tag', line'⟩ ⟨hold, hnew⟩
  cases tag <;> cases tag' <;> simp_all [Entry.Opposes]

/-! ## Kept lines between changes -/

section Keeps

variable {α : Type}

/-- No run of kept entries is empty. -/
def KeepsFilled (s : Script α) : Prop := ∀ r ∈ s, r.tag = .keep → r.entries ≠ []

theorem keepsFilled_run (tag : Tag) (entries : List α) : KeepsFilled (run tag entries) := by
  intro r hr _
  unfold run at hr
  split at hr
  · cases hr
  · next hne =>
    rw [List.mem_singleton.mp hr]
    exact fun h => hne (List.isEmpty_iff.mpr h)

theorem KeepsFilled.append {s t : Script α} (hs : KeepsFilled s) (ht : KeepsFilled t) :
    KeepsFilled (s ++ t) := by
  intro r hr
  exact (List.mem_append.mp hr).elim (hs r) (ht r)

theorem KeepsFilled.reverse {s : Script α} (hs : KeepsFilled s) : KeepsFilled s.reverse :=
  fun r hr => hs r (List.mem_reverse.mp hr)

theorem keepsFilled_cons {r : Run α} {s : Script α} :
    KeepsFilled (r :: s) ↔ (r.tag = .keep → r.entries ≠ []) ∧ KeepsFilled s :=
  List.forall_mem_cons

theorem keepsFilled_keepBefore {s : Script α} (hs : KeepsFilled s) (entries : List α) :
    KeepsFilled (keepBefore entries s) := by
  unfold keepBefore
  split
  · exact hs
  · next hne =>
    refine keepsFilled_cons.mpr ⟨fun _ h => ?_, (keepsFilled_cons.mp hs).2⟩
    exact hne (List.append_eq_nil_iff.mp h).1
  · next hne _ => exact keepsFilled_cons.mpr ⟨fun _ => hne, hs⟩

theorem keepsFilled_keepBehind {s : Script α} (hs : KeepsFilled s) (entries : List α) :
    KeepsFilled (keepBehind entries s) := by
  unfold keepBehind
  split
  · exact hs
  · next hne =>
    refine keepsFilled_cons.mpr ⟨fun _ h => ?_, (keepsFilled_cons.mp hs).2⟩
    exact hne (List.append_eq_nil_iff.mp h).2
  · next hne _ => exact keepsFilled_cons.mpr ⟨fun _ => hne, hs⟩

variable [DecidableEq α]

theorem keepsFilled_between {rec : List α → List α → Script α}
    (h : ∀ as bs, KeepsFilled (rec as bs)) (old new : List α) :
    KeepsFilled (between rec old new) := by
  have hreplace := (keepsFilled_run .delete old).append (keepsFilled_run .insert new)
  unfold between
  split
  · exact hreplace
  · split
    · exact (h _ _).append (h _ _)
    · exact hreplace

theorem keepsFilled_script (old new : List α) : KeepsFilled (script old new) := by
  unfold script
  generalize old.length + new.length + 1 = depth
  induction depth generalizing old new with
  | zero => exact (keepsFilled_run .delete old).append (keepsFilled_run .insert new)
  | succ depth ih =>
    unfold scriptFrom
    exact ((keepsFilled_run .keep _).append (keepsFilled_between ih _ _)).append
      (keepsFilled_run .keep _)

theorem keepsFilled_moveUp (tag : Tag) (entries : List α) {before behind : Script α}
    (hbefore : KeepsFilled before) (hbehind : KeepsFilled behind) :
    KeepsFilled (moveUp tag entries before behind).before ∧
      KeepsFilled (moveUp tag entries before behind).behind := by
  fun_induction moveUp tag entries before behind with
  | case1 => exact ⟨hbefore, hbehind⟩
  | case2 entries kept before behind _ _ _ _ behind' _ ih =>
    exact ih (keepsFilled_cons.mp hbefore).2 (keepsFilled_keepBefore hbehind _)
  | case3 entries kept before behind _ _ _ _ behind' hne =>
    refine ⟨keepsFilled_cons.mpr ⟨fun _ h => hne ?_, (keepsFilled_cons.mp hbefore).2⟩,
      keepsFilled_keepBefore hbehind _⟩
    rw [List.reverse_eq_nil_iff.mp h]
    rfl
  | case4 entries behind r before _ _ ih => exact ih (keepsFilled_cons.mp hbefore).2 hbehind
  | case5 entries behind r before _ _ ih =>
    obtain ⟨hr, hbefore⟩ := keepsFilled_cons.mp hbefore
    exact ih hbefore (keepsFilled_cons.mpr ⟨hr, hbehind⟩)

theorem keepsFilled_moveDown (tag : Tag) (entries : List α) {before behind : Script α}
    (hbefore : KeepsFilled before) (hbehind : KeepsFilled behind) :
    KeepsFilled (moveDown tag entries before behind).before ∧
      KeepsFilled (moveDown tag entries before behind).behind := by
  fun_induction moveDown tag entries before behind with
  | case1 => exact ⟨hbefore, hbehind⟩
  | case2 entries before kept behind _ _ _ _ before' _ ih =>
    exact ih (keepsFilled_keepBehind hbefore _) (keepsFilled_cons.mp hbehind).2
  | case3 entries before kept behind _ _ _ _ before' hne =>
    refine ⟨keepsFilled_keepBehind hbefore _,
      keepsFilled_cons.mpr ⟨fun _ h => hne ?_, (keepsFilled_cons.mp hbehind).2⟩⟩
    exact List.isEmpty_iff.mpr h
  | case4 entries before r behind _ _ ih => exact ih hbefore (keepsFilled_cons.mp hbehind).2
  | case5 entries before r behind _ _ ih =>
    obtain ⟨hr, hbehind⟩ := keepsFilled_cons.mp hbehind
    exact ih (keepsFilled_cons.mpr ⟨hr, hbefore⟩) hbehind

theorem keepsFilled_compactFrom {tag : Tag} (htag : tag ≠ .keep) (bound : Nat) {before behind : Script α}
    (hbefore : KeepsFilled before) (hbehind : KeepsFilled behind) :
    KeepsFilled (compactFrom tag bound before behind) := by
  fun_induction compactFrom tag bound before behind with
  | case1 => exact hbefore.reverse.append hbehind
  | case2 => exact hbefore.reverse
  | case3 before bound r behind _ up down ih =>
    obtain ⟨hup, hup'⟩ := keepsFilled_moveUp tag r.entries hbefore (keepsFilled_cons.mp hbehind).2
    obtain ⟨hdown, hdown'⟩ := keepsFilled_moveDown tag up.entries hup hup'
    exact ih (keepsFilled_cons.mpr ⟨fun h => absurd h htag, hdown⟩) hdown'
  | case4 before bound r behind _ ih =>
    obtain ⟨hr, hbehind⟩ := keepsFilled_cons.mp hbehind
    exact ih (keepsFilled_cons.mpr ⟨hr, hbefore⟩) hbehind

theorem keepsFilled_compact {s : Script α} (h : KeepsFilled s) : KeepsFilled (compact s) := by
  unfold compact
  exact keepsFilled_compactFrom (by decide) _ nofun
    (keepsFilled_compactFrom (by decide) _ nofun h)

end Keeps

def Segment.isChanged : Segment → Bool
  | changed .. => true
  | kept _ => false

/-- No two changes are next to each other, and between two there are kept lines. -/
structure Alternating (ss : List Segment) : Prop where
  filled : ∀ lines, Segment.kept lines ∈ ss → lines ≠ []
  apart : ss.IsChain fun s t => ¬(s.isChanged ∧ t.isChanged)

theorem Alternating.tail {s : Segment} {ss : List Segment} (h : Alternating (s :: ss)) :
    Alternating ss :=
  ⟨fun lines hlines => h.filled lines (List.mem_cons_of_mem s hlines), h.apart.tail⟩

/-- Another segment may be put in the place of the first one. -/
theorem Alternating.replace {s t : Segment} {ss : List Segment} (h : Alternating (s :: ss))
    (hchanged : t.isChanged = s.isChanged) (hfilled : ∀ lines, t = .kept lines → lines ≠ []) :
    Alternating (t :: ss) := by
  refine ⟨fun lines hlines => ?_, h.apart.imp_head fun hapart => by rwa [hchanged]⟩
  rcases List.mem_cons.mp hlines with heq | hrest
  · exact hfilled lines heq.symm
  · exact h.tail.filled lines hrest

theorem Alternating.cons {s : Segment} {ss : List Segment} (h : Alternating ss)
    (hapart : ∀ t ∈ ss.head?, ¬(s.isChanged ∧ t.isChanged))
    (hfilled : ∀ lines, s = .kept lines → lines ≠ []) : Alternating (s :: ss) := by
  refine ⟨fun lines hlines => ?_, List.isChain_cons.mpr ⟨hapart, h.apart⟩⟩
  rcases List.mem_cons.mp hlines with heq | hrest
  · exact hfilled lines heq.symm
  · exact h.filled lines hrest

theorem alternating_cons {r : Run String} {ss : List Segment} (h : Alternating ss)
    (hr : r.tag = .keep → r.entries ≠ []) : Alternating (Segment.cons r ss) := by
  unfold Segment.cons
  split
  · next htag =>
    refine h.replace rfl fun lines heq => ?_
    obtain rfl := Segment.kept.inj heq
    exact fun hnil => hr htag (List.append_eq_nil_iff.mp hnil).1
  · next htag _ =>
    refine h.cons (fun _ _ hboth => nomatch hboth.1) fun lines heq => ?_
    obtain rfl := Segment.kept.inj heq
    exact hr htag
  · exact h.replace rfl nofun
  · next hno =>
    refine h.cons (fun t ht hboth => ?_) nofun
    cases t with
    | kept lines => cases hboth.2
    | changed deleted inserted =>
      obtain ⟨ss, rfl⟩ := List.head?_eq_some_iff.mp ht
      exact hno _ _ _ rfl
  · exact h.replace rfl nofun
  · next hno =>
    refine h.cons (fun t ht hboth => ?_) nofun
    cases t with
    | kept lines => cases hboth.2
    | changed deleted inserted =>
      obtain ⟨ss, rfl⟩ := List.head?_eq_some_iff.mp ht
      exact hno _ _ _ rfl

/-- Kept lines and changes take turns between two texts. -/
theorem alternating_segments (old new : String) : Alternating (segments old new) := by
  unfold segments
  have hfilled := keepsFilled_compact (keepsFilled_script (lines old) (lines new))
  generalize compact (script (lines old) (lines new)) = s at hfilled ⊢
  induction s with
  | nil => exact ⟨nofun, .nil⟩
  | cons r s ih =>
    obtain ⟨hr, hs⟩ := keepsFilled_cons.mp hfilled
    exact alternating_cons (ih hs) hr

/-! ## Lines next to each other -/

/-- Two lines that can be next to each other if every deleted line in front of an inserted one has an
ending. -/
def Meets (e f : Entry) : Prop :=
  e.1 = .keep ∨ f.1 = .keep ∨ e.1 = f.1 ∨ e.1 = .delete ∧ f.1 = .insert ∧ e.isEnded

/-- So no line without an ending is next to one that it could be in front of. -/
theorem Meets.isEnded {e f : Entry} (h : Meets e f) (hpair : e.isEnded ∨ e.Opposes f) : e.isEnded := by
  rcases hpair with hended | ⟨hdelete, hinsert⟩ | ⟨hinsert, hdelete⟩
  · exact hended
  · rw [Meets, hdelete, hinsert] at h
    simpa using h
  · rw [Meets, hdelete, hinsert] at h
    simp at h

/-- Whether the deleted lines of every change have an ending, if lines are inserted behind them. -/
def ChangesEnded (ss : List Segment) : Prop :=
  ∀ deleted inserted, Segment.changed deleted inserted ∈ ss → inserted ≠ [] →
    ∀ l ∈ deleted.getLast?, endsLine l.toList

theorem isChain_meets_map (tag : Tag) (lines : List String) :
    (lines.map ((tag, ·) : String → Entry)).IsChain Meets := by
  rw [List.isChain_map]
  exact List.Pairwise.isChain (List.pairwise_of_forall fun _ _ => .inr (.inr (.inl rfl)))

theorem isChain_entriesOf {ss : List Segment} (h : Alternating ss) (hended : ChangesEnded ss) :
    (entriesOf ss).IsChain Meets := by
  induction ss with
  | nil => exact .nil
  | cons s ss ih =>
    have hrest := ih h.tail fun _ _ hmem => hended _ _ (List.mem_cons_of_mem _ hmem)
    rw [entriesOf_cons]
    refine List.IsChain.append ?_ hrest fun e he f hf => ?_
    · cases s with
      | kept lines => exact isChain_meets_map .keep lines
      | changed deleted inserted =>
        refine (isChain_meets_map .delete deleted).append (isChain_meets_map .insert inserted) ?_
        intro e he f hf
        rw [List.getLast?_map, Option.mem_def, Option.map_eq_some_iff] at he
        rw [List.head?_map, Option.mem_def, Option.map_eq_some_iff] at hf
        obtain ⟨l, hl, rfl⟩ := he
        obtain ⟨m, hm, rfl⟩ := hf
        have hne : inserted ≠ [] := by
          rintro rfl
          cases hm
        exact .inr (.inr (.inr ⟨rfl, rfl, hended deleted inserted List.mem_cons_self hne l hl⟩))
    · cases s with
      | kept lines => exact .inl (keep_of_mem_map e (List.mem_of_getLast? he))
      | changed deleted inserted =>
        -- behind a change there are kept lines, or nothing
        cases ss with
        | nil => cases hf
        | cons t ss =>
          cases t with
          | changed deleted' inserted' =>
            exact absurd ⟨rfl, rfl⟩ (List.isChain_cons_cons.mp h.apart).1
          | kept lines =>
            have hne := h.filled lines (List.mem_cons_of_mem _ List.mem_cons_self)
            obtain ⟨line, lines, rfl⟩ := List.exists_cons_of_ne_nil hne
            cases hf
            exact .inr (.inl rfl)

end JavaMigration.Diff
