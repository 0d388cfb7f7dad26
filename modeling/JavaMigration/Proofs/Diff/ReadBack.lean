import JavaMigration.Proofs.Diff.Hunks

/-!
# Reading a diff back

Behind its header a diff is made of the lines of its hunks, each behind a sign, and an empty line
between two hunks. The signs are put in front of the lines as they are: a line without an ending runs
into the next one, and a carriage return at the end of a hunk takes the empty line for its line feed.
A diff can be read back exactly if neither happens (`unified_reads_back_iff`). When something is run
together there are fewer signs or empty lines than there should be, so counting them tells.
-/

namespace JavaMigration.Diff

open Text

/-! ## Signs -/

def Tag.sign : Tag → Char
  | .keep => ' '
  | .delete => '-'
  | .insert => '+'

/-- A line behind its sign. -/
def Entry.signed (e : Entry) : String := String.ofList (e.1.sign :: e.2.toList)

/-- The hunks of the diff of two texts, line by line. -/
def hunksBetween (old new : String) : List (List Entry) :=
  (hunks (segments old new)).map entriesOf

/-- What is read from a diff behind its header: hunks of signed lines, with an empty line between two
of them. The lines are lines of the two texts in order, and there are as many of each sign as the
summary counts. -/
structure ReadsBack (old new body : String) (parts : List (List Entry)) : Prop where
  lines_eq : lines body = ["\n"].intercalate (parts.map (·.map Entry.signed))
  old_lines : (sideOf .insert parts.flatten).Sublist (lines old)
  new_lines : (sideOf .delete parts.flatten).Sublist (lines new)
  insertions : parts.flatten.countP (·.1 == .insert) = (Summary.ofTexts old new).insertions
  deletions : parts.flatten.countP (·.1 == .delete) = (Summary.ofTexts old new).deletions

/-! ## Lists with separators -/

section Intercalate

variable {α β : Type}

theorem map_intercalate (f : α → β) (sep : List α) (ls : List (List α)) :
    (sep.intercalate ls).map f = (sep.map f).intercalate (ls.map (·.map f)) := by
  induction ls with
  | nil => rfl
  | cons l ls ih =>
    cases ls with
    | nil => simp only [List.map_cons, List.map_nil, List.intercalate_singleton]
    | cons m ls =>
      rw [List.intercalate_cons_cons, List.map_append, List.map_append, ih]
      simp only [List.map_cons, List.intercalate_cons_cons]

theorem flatten_intercalate (sep : List α) (ls : List (List (List α))) :
    ([sep].intercalate ls).flatten = sep.intercalate (ls.map List.flatten) := by
  induction ls with
  | nil => rfl
  | cons l ls ih =>
    cases ls with
    | nil => simp only [List.map_cons, List.map_nil, List.intercalate_singleton]
    | cons m ls =>
      rw [List.intercalate_cons_cons, List.flatten_append, List.flatten_append, ih]
      simp only [List.map_cons, List.intercalate_cons_cons, List.flatten_singleton]

theorem countP_intercalate {p : α → Bool} {sep : α} (h : p sep) (ls : List (List α)) :
    ([sep].intercalate ls).countP p = ls.flatten.countP p + (ls.length - 1) := by
  induction ls with
  | nil => rfl
  | cons l ls ih =>
    cases ls with
    | nil => simp only [List.intercalate_singleton, List.flatten_cons, List.flatten_nil,
        List.append_nil, List.length_singleton, Nat.sub_self, Nat.add_zero]
    | cons m ls =>
      rw [List.intercalate_cons_cons, List.countP_append, List.countP_append, ih,
        @List.flatten_cons _ l (m :: ls), List.countP_append, List.countP_singleton, if_pos h]
      simp only [List.length_cons]
      omega

theorem mem_intercalate {sep a : α} {ls : List (List α)} (h : a ∈ [sep].intercalate ls) :
    a = sep ∨ ∃ l ∈ ls, a ∈ l := by
  induction ls with
  | nil => cases h
  | cons l ls ih =>
    cases ls with
    | nil =>
      rw [List.intercalate_singleton] at h
      exact .inr ⟨l, List.mem_cons_self, h⟩
    | cons m ls =>
      rw [List.intercalate_cons_cons, List.append_assoc] at h
      rcases List.mem_append.mp h with h | h
      · exact .inr ⟨l, List.mem_cons_self, h⟩
      rcases List.mem_cons.mp h with h | h
      · exact .inl h
      · exact (ih h).imp_right fun ⟨l, hl, ha⟩ => ⟨l, List.mem_cons_of_mem _ hl, ha⟩

/-- A separator that goes well with what is behind it. -/
theorem isChain_intercalate {R : α → α → Prop} {sep : α} (h : ∀ a, R sep a) (ls : List (List α)) :
    ([sep].intercalate ls).IsChain R ↔
      (∀ l ∈ ls, l.IsChain R) ∧ ∀ l ∈ ls.dropLast, ∀ a ∈ l.getLast?, R a sep := by
  induction ls with
  | nil => exact ⟨fun _ => ⟨nofun, nofun⟩, fun _ => .nil⟩
  | cons l ls ih =>
    cases ls with
    | nil =>
      rw [List.intercalate_singleton]
      exact ⟨fun hl => ⟨by simpa using hl, nofun⟩, fun hl => hl.1 l List.mem_cons_self⟩
    | cons m ls =>
      have hsep : ([sep] ++ [sep].intercalate (m :: ls)).IsChain R ↔
          ([sep].intercalate (m :: ls)).IsChain R := by
        rw [List.singleton_append, List.isChain_cons]
        exact and_iff_right fun a _ => h a
      rw [List.intercalate_cons_cons, List.append_assoc, List.isChain_append, hsep, ih,
        List.dropLast_cons_of_ne_nil (List.cons_ne_nil m ls), @List.forall_mem_cons _ _ l (m :: ls),
        @List.forall_mem_cons _ _ l (m :: ls).dropLast]
      have hhead : (∀ a ∈ l.getLast?, ∀ b ∈ ([sep] ++ [sep].intercalate (m :: ls)).head?, R a b) ↔
          ∀ a ∈ l.getLast?, R a sep := by
        refine forall₂_congr fun a _ => ?_
        rw [List.singleton_append, List.head?_cons]
        exact ⟨fun hall => hall sep rfl, fun hsep b hb => Option.some.inj hb ▸ hsep⟩
      rw [hhead]
      tauto

theorem isChain_and {R S : α → α → Prop} {l : List α} (hR : l.IsChain R) (hS : l.IsChain S) :
    l.IsChain fun a b => R a b ∧ S a b := by
  induction l with
  | nil => exact .nil
  | cons a l ih =>
    obtain ⟨ha, hl⟩ := List.isChain_cons.mp hR
    obtain ⟨ha', hl'⟩ := List.isChain_cons.mp hS
    exact List.isChain_cons.mpr ⟨fun b hb => ⟨ha b hb, ha' b hb⟩, ih hl hl'⟩

end Intercalate

/-! ## The text of a diff -/

/-- The lines of some hunks as they are written. -/
def writtenLines (parts : List (List Entry)) : List (List Char) :=
  [['\n']].intercalate (parts.map (·.map fun e => e.1.sign :: e.2.toList))

theorem map_writtenLines (parts : List (List Entry)) :
    (writtenLines parts).map String.ofList = ["\n"].intercalate (parts.map (·.map Entry.signed)) := by
  rw [writtenLines, map_intercalate, List.map_map]
  refine congrArg ["\n"].intercalate (List.map_congr_left fun part _ => ?_)
  rw [Function.comp_apply, List.map_map]
  rfl

/-- What the lines of a diff behind its header are. -/
def bodyOf (old new : String) : String :=
  String.intercalate "\n" ((hunks (segments old new)).map fun hunk =>
    String.join (hunk.map (renderSegment plain)))

theorem unified_plain (path old new : String) : unified plain path old new =
    "--- a/" ++ path ++ "\n" ++ ("+++ b/" ++ path ++ "\n") ++ bodyOf old new := by
  rw [unified, bodyOf, renderHeader]
  simp only [plain, String.append_assoc, String.empty_append]

theorem toList_renderSegment (s : Segment) :
    (renderSegment plain s).toList = (s.entries.map fun e => e.1.sign :: e.2.toList).flatten := by
  have hjoin (sign : String) (ls : List String) :
      (String.join (ls.map (sign ++ ·))).toList = (ls.map fun l => sign.toList ++ l.toList).flatten := by
    rw [String.toList_join, List.flatMap_def, List.map_map]
    congr 1
    refine List.map_congr_left fun l _ => ?_
    rw [Function.comp_apply, String.toList_append]
  cases s with
  | kept lines =>
    rw [renderSegment, hjoin, Segment.entries, List.map_map]
    rfl
  | changed deleted inserted =>
    have hplain (sign l : String) : plain.deleted ++ sign ++ l ++ plain.reset = sign ++ l := by
      simp [plain]
    have hplain' (sign l : String) : plain.inserted ++ sign ++ l ++ plain.reset = sign ++ l := by
      simp [plain]
    simp only [renderSegment, hplain, hplain']
    rw [String.toList_append, hjoin, hjoin, Segment.entries, List.map_append, List.map_map,
      List.map_map, List.flatten_append]
    rfl

theorem toList_bodyOf (old new : String) :
    (bodyOf old new).toList = (writtenLines (hunksBetween old new)).flatten := by
  have hfeed : "\n".toList = ['\n'] := rfl
  rw [bodyOf, String.toList_intercalate, writtenLines, flatten_intercalate, hunksBetween, hfeed]
  simp only [List.map_map]
  refine congrArg ['\n'].intercalate (List.map_congr_left fun hunk _ => ?_)
  simp only [Function.comp_apply, String.toList_join, entriesOf, List.map_flatMap,
    List.flatMap_map, toList_renderSegment]
  simp only [List.flatMap_def, List.flatten_flatten, List.map_map, Function.comp_def]

/-! ## Written lines -/

theorem isLineBreak_sign (tag : Tag) : isLineBreak tag.sign = false := by
  cases tag <;> rfl

/-- A sign in front of a line does not change how the line ends. -/
theorem endsLine_signed (e : Entry) : endsLine (e.1.sign :: e.2.toList) = e.isEnded := by
  rw [Entry.isEnded]
  cases h : e.2.toList with
  | nil => exact isLineBreak_sign e.1
  | cons c l => exact endsLine_cons (List.cons_ne_nil c l) _

theorem parted_signed (e f : Entry) :
    Parted (e.1.sign :: e.2.toList) (f.1.sign :: f.2.toList) ↔ e.isEnded := by
  rw [Parted, endsLine_signed]
  refine and_iff_left fun hboth => ?_
  have hfeed : isLineBreak f.1.sign := by
    rw [Option.some.inj hboth.2]
    rfl
  exact absurd (hfeed.symm.trans (isLineBreak_sign f.1)) Bool.noConfusion

/-- In front of an empty line no carriage return may stand. -/
theorem parted_separator (e : Entry) : Parted (e.1.sign :: e.2.toList) ['\n'] ↔
    e.isEnded ∧ e.2.toList.getLast? ≠ some '\r' := by
  rw [Parted, endsLine_signed]
  refine and_congr_right fun _ => not_congr ?_
  rw [List.head?_cons, and_iff_left rfl]
  cases e.2.toList with
  | nil => exact ⟨fun h => absurd (Option.some.inj h) (by cases e.1 <;> decide), fun h => absurd h (by decide)⟩
  | cons c l => rw [List.getLast?_cons_cons]

theorem parted_newline (l : List Char) : Parted ['\n'] l :=
  ⟨rfl, fun hboth => absurd (Option.some.inj hboth.1) (by decide)⟩

/-- The lines of the hunks are read as they are written if the lines of each hunk have endings, except
the last line of the last hunk, and no hunk but the last one ends with a carriage return. -/
theorem isChain_writtenLines (parts : List (List Entry)) : (writtenLines parts).IsChain Parted ↔
    (∀ part ∈ parts, part.IsChain fun e _ => e.isEnded) ∧
      ∀ part ∈ parts.dropLast, ∀ e ∈ part.getLast?,
        e.isEnded ∧ e.2.toList.getLast? ≠ some '\r' := by
  rw [writtenLines, isChain_intercalate parted_newline, ← List.map_dropLast, List.forall_mem_map,
    List.forall_mem_map]
  simp only [List.isChain_map, parted_signed, List.getLast?_map, Option.mem_def,
    Option.map_eq_some_iff, forall_exists_index, and_imp, forall_apply_eq_imp_iff₂,
    parted_separator]

/-- The lines of the hunks that do not begin with a blank. -/
theorem countP_writtenLines (parts : List (List Entry)) :
    (writtenLines parts).countP (·.head?.any (· != ' ')) =
      parts.flatten.countP (·.1 == .insert) + parts.flatten.countP (·.1 == .delete) +
        (parts.length - 1) := by
  have hsign (e : Entry) : (e.1.sign :: e.2.toList).head?.any (· != ' ') = (e.1 != .keep) := by
    cases e with
    | mk tag line => cases tag <;> rfl
  have htag (es : List Entry) : es.countP (·.1 != .keep) =
      es.countP (·.1 == .insert) + es.countP (·.1 == .delete) := by
    induction es with
    | nil => rfl
    | cons e es ih =>
      rw [List.countP_cons, List.countP_cons, List.countP_cons, ih]
      cases e with
      | mk tag line => cases tag <;> simp <;> omega
  rw [writtenLines, countP_intercalate rfl, List.length_map, ← List.map_flatten, List.countP_map,
    ← htag]
  simp only [Function.comp_def, hsign]

/-! ## The hunks between two texts -/

/-- Whether no hunk but the last one ends with a carriage return. -/
def HunksEndPlain (ss : List Segment) : Prop :=
  ∀ hunk ∈ (hunks ss).dropLast, ∀ e ∈ (entriesOf hunk).getLast?, e.2.toList.getLast? ≠ some '\r'

section Between

variable {old new : String} {hunk : List Entry}

theorem infix_entriesBetween (h : hunk ∈ hunksBetween old new) : hunk <:+: entriesBetween old new :=
  (excerpts_hunks (segments old new)).infix_of_mem h

theorem isLine_of_mem_hunksBetween (h : hunk ∈ hunksBetween old new) {e : Entry} (he : e ∈ hunk) :
    IsLine e.2.toList :=
  isLine_of_mem_entriesBetween ((infix_entriesBetween h).subset he)

theorem isLine_of_mem_writtenLines {l : List Char}
    (h : l ∈ writtenLines (hunksBetween old new)) : IsLine l := by
  rcases mem_intercalate h with rfl | ⟨part, hpart, hl⟩
  · exact isLine_singleton '\n'
  · obtain ⟨hunk, hhunk, rfl⟩ := List.mem_map.mp hpart
    obtain ⟨e, he, rfl⟩ := List.mem_map.mp hl
    exact (isLine_of_mem_hunksBetween hhunk he).cons (isLineBreak_sign e.1)

/-- A line of a hunk that has no ending is at the end of the hunk, or in front of a changed line. -/
theorem isChain_ended_or_changed (h : hunk ∈ hunksBetween old new) :
    hunk.IsChain fun e f => e.isEnded ∨ f.1 ≠ .keep := by
  refine List.IsChain.infix ?_ (infix_entriesBetween h)
  exact (pairwise_entriesBetween old new).isChain.imp fun _ _ hpair =>
    hpair.imp_right fun hopposes => hopposes.changed

theorem isChain_parted_or_changed (old new : String) :
    (writtenLines (hunksBetween old new)).IsChain fun l b =>
      Parted l b ∨ b.head?.any (· != ' ') := by
  rw [writtenLines, isChain_intercalate fun l => .inl (parted_newline l), List.forall_mem_map]
  refine ⟨fun hunk hhunk => ?_, fun _ _ _ _ => .inr rfl⟩
  rw [List.isChain_map]
  refine (isChain_ended_or_changed hhunk).imp fun e f hpair => ?_
  rw [parted_signed]
  refine hpair.imp_right fun hkeep => ?_
  obtain ⟨tag, line⟩ := f
  cases tag <;> first | rfl | exact absurd rfl hkeep

/-- Within the hunks all lines but the last ones have an ending if the deleted ones in front of inserted
lines have one. -/
theorem isChain_hunksBetween (old new : String) :
    (∀ hunk ∈ hunksBetween old new, hunk.IsChain fun e _ => e.isEnded) ↔
      ChangesEnded (segments old new) := by
  constructor
  · intro h deleted inserted hchange hne l hl
    obtain ⟨hunk, hhunk, hmem⟩ := exists_hunk_of_isChanged hchange rfl
    have hchain := h _ (List.mem_map_of_mem hhunk)
    have hsegment : (Segment.changed deleted inserted).entries <:+: entriesOf hunk := by
      obtain ⟨front, back, rfl⟩ := List.append_of_mem hmem
      rw [entriesOf_append, entriesOf_cons, ← List.append_assoc]
      exact List.infix_append _ _ _
    obtain ⟨-, -, hmeet⟩ := List.isChain_append.mp ( List.IsChain.infix hchain hsegment)
    obtain ⟨m, inserted, rfl⟩ := List.exists_cons_of_ne_nil hne
    have hlast : (Tag.delete, l) ∈ (deleted.map ((Tag.delete, ·) : String → Entry)).getLast? := by
      rw [List.getLast?_map, Option.mem_def.mp hl]
      rfl
    exact hmeet (.delete, l) hlast (.insert, m) rfl
  · intro h hunk hhunk
    have hmeets := isChain_entriesOf (alternating_segments old new) h
    have hboth := isChain_and hmeets (pairwise_entriesBetween old new).isChain
    exact ( List.IsChain.infix hboth (infix_entriesBetween hhunk)).imp fun _ _ hpair =>
      hpair.1.isEnded hpair.2

/-- All lines of the hunks in front of the last one have an ending, as a kept line is behind them. -/
theorem isEnded_of_mem_dropLast (hhunk : hunk ∈ (hunksBetween old new).dropLast) {e : Entry}
    (he : e ∈ hunk) : e.isEnded := by
  have hpairs := (pairwise_entriesBetween old new).sublist
    (excerpts_hunks (segments old new)).flatten_sublist
  have hkept : (hunksBetween old new).Pairwise fun _ hunk => ∃ f ∈ hunk, f.1 = .keep := by
    refine List.pairwise_map.mpr ((pairwise_hunks _).imp fun h => h.exists_entry)
  have hended : (hunksBetween old new).Pairwise fun hunk _ => ∀ e ∈ hunk, e.isEnded := by
    refine ((List.pairwise_flatten.mp hpairs).2.and hkept).imp ?_
    rintro hunk hunk' ⟨hpair, f, hf, hkeep⟩ e he
    exact (hpair e he f hf).resolve_right fun hopposes => hopposes.changed hkeep
  exact hended.rel_dropLast_getLast hhunk e he

theorem isChain_parted_iff (old new : String) :
    (writtenLines (hunksBetween old new)).IsChain Parted ↔
      ChangesEnded (segments old new) ∧ HunksEndPlain (segments old new) := by
  rw [isChain_writtenLines, isChain_hunksBetween, HunksEndPlain, hunksBetween, ← List.map_dropLast,
    List.forall_mem_map]
  refine and_congr_right fun _ => ⟨fun h hunk hhunk e he => (h hunk hhunk e he).2,
    fun h hunk hhunk e he => ⟨?_, h hunk hhunk e he⟩⟩
  refine @isEnded_of_mem_dropLast old new _ ?_ e (List.mem_of_getLast? he)
  rw [hunksBetween, ← List.map_dropLast]
  exact List.mem_map_of_mem hhunk

/-! ## Reading back -/

theorem countP_hunksBetween (old new : String) :
    (hunksBetween old new).flatten.countP (·.1 == .insert) = (Summary.ofTexts old new).insertions ∧
      (hunksBetween old new).flatten.countP (·.1 == .delete) =
        (Summary.ofTexts old new).deletions := by
  have hall := excerpts_hunks (segments old new)
  obtain ⟨hinsert, hdelete⟩ := countP_entriesOf (segments old new)
  rw [hunksBetween, hall.countP_flatten Tag.noConfusion, hall.countP_flatten Tag.noConfusion, hinsert,
    hdelete]
  simp only [Summary.ofTexts, and_self]

theorem lines_eq_iff (body : String) (parts : List (List Entry)) :
    lines body = ["\n"].intercalate (parts.map (·.map Entry.signed)) ↔
      splitLines body.toList = writtenLines parts := by
  rw [← map_writtenLines]
  exact (List.map_injective_iff.mpr fun _ _ => String.ofList_injective).eq_iff

/-- What is read back has all the signs that were written. If it has as many hunks too, nothing was run
together. -/
theorem ReadsBack.isChain_parted {parts : List (List Entry)}
    (h : ReadsBack old new (bodyOf old new) parts)
    (hlength : (hunksBetween old new).length - 1 ≤ parts.length - 1) :
    (writtenLines (hunksBetween old new)).IsChain Parted := by
  obtain ⟨hle, hchain⟩ := countP_splitLines_flatten (· != ' ')
    (fun l hl => isLine_of_mem_writtenLines hl) (isChain_parted_or_changed old new)
  obtain ⟨hinsert, hdelete⟩ := countP_hunksBetween old new
  rw [← toList_bodyOf, (lines_eq_iff _ _).mp h.lines_eq, countP_writtenLines, countP_writtenLines,
    h.insertions, h.deletions, hinsert, hdelete] at hle hchain
  exact hchain (by omega)

/-- If the lines of a diff are parted, its hunks can be read back. -/
theorem readsBack_hunksBetween (h : (writtenLines (hunksBetween old new)).IsChain Parted) :
    ReadsBack old new (bodyOf old new) (hunksBetween old new) where
  lines_eq := by
    rw [lines_eq_iff, toList_bodyOf]
    exact splitLines_flatten (fun l hl => isLine_of_mem_writtenLines hl) h
  old_lines := by
    rw [← (sideOf_entriesBetween old new).1]
    exact sideOf_sublist (excerpts_hunks _).flatten_sublist _
  new_lines := by
    rw [← (sideOf_entriesBetween old new).2]
    exact sideOf_sublist (excerpts_hunks _).flatten_sublist _
  insertions := (countP_hunksBetween old new).1
  deletions := (countP_hunksBetween old new).2

theorem exists_readsBack_iff (old new : String) :
    (∃ parts, parts.length = (hunksBetween old new).length ∧
      ReadsBack old new (bodyOf old new) parts) ↔
        ChangesEnded (segments old new) ∧ HunksEndPlain (segments old new) := by
  rw [← isChain_parted_iff]
  constructor
  · rintro ⟨parts, hlength, h⟩
    exact h.isChain_parted (by rw [hlength])
  · intro h
    exact ⟨_, rfl, readsBack_hunksBetween h⟩

/-- Texts whose lines end with line feeds can be read back from their diff. Only the last line of the new
text may be without an ending. -/
theorem readsBack_of_feeds (hold : old = "" ∨ endsLine old.toList) (hfeeds : '\r' ∉ old.toList)
    (hfeeds' : '\r' ∉ new.toList) : ReadsBack old new (bodyOf old new) (hunksBetween old new) := by
  refine readsBack_hunksBetween ((isChain_parted_iff old new).mpr
    ⟨fun deleted inserted hchange _ l hl => ?_, fun hunk hhunk e he hreturn => ?_⟩)
  · have hline : l ∈ lines old := by
      rw [← (segments_sides old new).1]
      exact List.mem_flatMap.mpr ⟨_, hchange, List.mem_of_getLast? hl⟩
    rcases hold with rfl | hold
    · cases hline
    · exact endsLine_of_mem_lines hold hline
  · have hmem : e ∈ entriesBetween old new :=
      (infix_entriesBetween (List.mem_map_of_mem (List.dropLast_subset _ hhunk))).subset
        (List.mem_of_getLast? he)
    have hchar := List.mem_of_getLast? hreturn
    rcases mem_lines_of_mem_entriesBetween hmem with hline | hline
    · exact hfeeds (mem_of_mem_lines hline hchar)
    · exact hfeeds' (mem_of_mem_lines hline hchar)

end Between

/-- Behind its two header lines the uncoloured diff of two texts can be read back with all its hunks
exactly if every deleted line in front of an inserted one has an ending, and no hunk but the last one
ends with a carriage return. -/
theorem unified_reads_back_iff (path old new : String) :
    ∃ body, unified plain path old new =
        "--- a/" ++ path ++ "\n" ++ ("+++ b/" ++ path ++ "\n") ++ body ∧
      ((∃ parts, parts.length = (hunks (segments old new)).length ∧
        ReadsBack old new body parts) ↔
          ChangesEnded (segments old new) ∧ HunksEndPlain (segments old new)) := by
  refine ⟨bodyOf old new, unified_plain path old new, ?_⟩
  rw [← exists_readsBack_iff, hunksBetween, List.length_map]

/-- The last lines of two texts without endings are written on one line. -/
theorem joined_lines_do_not_read_back :
    unified plain "A.java" "a" "b" = "--- a/A.java\n+++ b/A.java\n-a+b" ∧
      ¬∃ parts, ReadsBack "a" "b" "-a+b" parts := by
  have hsegments : segments "a" "b" = [.changed ["a"] ["b"]] := by
    have hold : lines "a" = ["a"] := rfl
    have hnew : lines "b" = ["b"] := rfl
    rw [segments, hold, hnew]
    decide +kernel
  have hbody : bodyOf "a" "b" = "-a+b" := by
    refine String.toList_injective ?_
    rw [toList_bodyOf, hunksBetween, hsegments]
    rfl
  refine ⟨?_, ?_⟩
  · rw [unified_plain, hbody]
    rfl
  · rintro ⟨parts, h⟩
    have hone : (hunksBetween "a" "b").length - 1 = 0 := by
      rw [hunksBetween, hsegments]
      rfl
    rw [← hbody] at h
    have hended := ((isChain_parted_iff _ _).mp (h.isChain_parted (by omega))).1
    rw [hsegments] at hended
    have hopen : ¬endsLine "a".toList := by decide
    exact hopen (hended ["a"] ["b"] (List.mem_singleton_self _) (List.cons_ne_nil _ _) "a" rfl)

end JavaMigration.Diff
