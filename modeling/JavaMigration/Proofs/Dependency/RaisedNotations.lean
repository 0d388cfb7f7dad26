import JavaMigration.Proofs.Dependency.Notations

/-!
# A Gradle file with its versions raised

What a version is, is told by what stands around it: it is a maximal run of version characters behind
a quote and `group:artifact:` (`VersionAt`). A file can be cut at all its versions. Raising it writes
the target over those that are older and leaves the rest as it is, and in the result the versions are
at the same cuts: none comes, and none goes.
-/

namespace JavaMigration.Dependency

open Text Stretch

/-! ## Texts cut at versions -/

/-- A text cut at some versions: what is in front of the first one, and each version with what is
behind it up to the next. -/
structure CutText where
  lead : List Char
  versions : List (List Char × List Char)

namespace CutText

def printVersions (vs : List (List Char × List Char)) : List Char :=
  vs.flatMap fun (version, text) => version ++ text

def print (t : CutText) : List Char := t.lead ++ printVersions t.versions

/-- The text with other words in the places of the versions. -/
def map (f : List Char → List Char) (t : CutText) : CutText :=
  { t with versions := t.versions.map fun (version, text) => (f version, text) }

/-- The text behind some more. -/
def behind (front : List Char) (t : CutText) : CutText := { t with lead := front ++ t.lead }

/-- Whether one of the cuts is at a version with this in front of it and behind it. -/
def HasCut (t : CutText) (front version back : List Char) : Prop :=
  ∃ before text after, t.versions = before ++ (version, text) :: after ∧
    front = t.lead ++ printVersions before ∧ back = text ++ printVersions after

variable {t : CutText} {front version back : List Char}

theorem printVersions_cons (version text : List Char) (vs : List (List Char × List Char)) :
    printVersions ((version, text) :: vs) = version ++ text ++ printVersions vs := rfl

theorem print_behind (head : List Char) (t : CutText) : (t.behind head).print = head ++ t.print :=
  List.append_assoc _ _ _

theorem map_id_of_forall {f : List Char → List Char} (h : ∀ version, f version = version)
    (t : CutText) : t.map f = t := by
  have hsame : (fun p : List Char × List Char => (f p.1, p.2)) = id := by
    funext p
    rw [h]
    rfl
  show CutText.mk t.lead (t.versions.map fun p => (f p.1, p.2)) = t
  rw [hsame, List.map_id]

theorem HasCut.print_eq (h : t.HasCut front version back) : t.print = front ++ (version ++ back) := by
  obtain ⟨before, text, after, hversions, rfl, rfl⟩ := h
  rw [print, hversions, printVersions, List.flatMap_append, List.flatMap_cons]
  simp only [printVersions, List.append_assoc]

theorem hasCut_behind {head : List Char} :
    (t.behind head).HasCut front version back ↔
      ∃ front', front = head ++ front' ∧ t.HasCut front' version back := by
  constructor
  · rintro ⟨before, text, after, hversions, rfl, rfl⟩
    exact ⟨_, List.append_assoc _ _ _, before, text, after, hversions, rfl, rfl⟩
  · rintro ⟨_, rfl, before, text, after, hversions, rfl, rfl⟩
    exact ⟨before, text, after, hversions, (List.append_assoc _ _ _).symm, rfl⟩

/-- The first cut or one behind it. -/
theorem hasCut_cons {lead word text : List Char} {vs : List (List Char × List Char)} :
    (CutText.mk lead ((word, text) :: vs)).HasCut front version back ↔
      (version = word ∧ front = lead ∧ back = text ++ printVersions vs) ∨
        ∃ front', front = lead ++ (word ++ front') ∧
          (CutText.mk text vs).HasCut front' version back := by
  constructor
  · rintro ⟨before, text', after, hversions, rfl, rfl⟩
    cases before with
    | nil =>
      cases hversions
      exact .inl ⟨rfl, List.append_nil _, rfl⟩
    | cons first before =>
      obtain ⟨rfl, hvs⟩ := List.cons.inj hversions
      refine .inr ⟨text ++ printVersions before, ?_, before, text', after, hvs, rfl, rfl⟩
      rw [printVersions_cons, List.append_assoc]
  · rintro (⟨rfl, rfl, rfl⟩ | ⟨_, rfl, before, text', after, rfl, rfl, rfl⟩)
    · exact ⟨[], text, vs, rfl, (List.append_nil _).symm, rfl⟩
    · refine ⟨(word, text) :: before, text', after, rfl, ?_, rfl⟩
      rw [printVersions_cons, List.append_assoc]

end CutText

/-! ## Versions of a dependency -/

/-- A version of a dependency in a text: a run of version characters, as long as can be, directly behind
a quote and `group:artifact:`. -/
structure VersionAt (group artifact text front version back : List Char) : Prop where
  text_eq : text = front ++ (version ++ back)
  opened : ∃ before quote, isQuote quote ∧ front = before ++ quote :: notationFront group artifact
  nonempty : version ≠ []
  run : ∀ c ∈ version, inVersion c
  ended : ∀ c ∈ back.head?, inVersion c = false

variable {group artifact text front version back : List Char}

/-- A text is cut at every version of a dependency and nowhere else. -/
def CutText.IsAtVersions (group artifact : List Char) (t : CutText) : Prop :=
  ∀ front version back,
    VersionAt group artifact t.print front version back ↔ t.HasCut front version back

theorem takeWhile_version (hrun : ∀ c ∈ version, inVersion c)
    (hended : ∀ c ∈ back.head?, inVersion c = false) :
    (version ++ back).takeWhile inVersion = version := by
  have hstop : back.head?.all (!inVersion ·) := by
    rw [Option.all_eq_true]
    intro c hc
    rw [hended c hc]
    rfl
  rw [takeWhile_append_of_head version hstop, List.takeWhile_eq_self_iff]
  exact hrun

theorem VersionAt.shift (h : VersionAt group artifact text front version back) (head : List Char) :
    VersionAt group artifact (head ++ text) (head ++ front) version back := by
  obtain ⟨rfl, ⟨before, quote, hquote, rfl⟩, hne, hrun, hended⟩ := h
  refine ⟨(List.append_assoc _ _ _).symm, ⟨head ++ before, quote, hquote, ?_⟩, hne, hrun, hended⟩
  rw [List.append_assoc]

/-- No version begins in front of the first quote. -/
theorem versionAt_append {head : List Char} (hhead : ∀ c ∈ head, isQuote c = false) :
    VersionAt group artifact (head ++ text) front version back ↔
      ∃ front', front = head ++ front' ∧ VersionAt group artifact text front' version back := by
  constructor
  · rintro ⟨htext, ⟨before, quote, hquote, rfl⟩, hne, hrun, hended⟩
    rw [List.append_assoc, List.append_eq_append_iff] at htext
    obtain ⟨before', rfl, htext⟩ | ⟨head', rfl, htext⟩ := htext
    · refine ⟨before' ++ quote :: notationFront group artifact, List.append_assoc _ _ _, ?_,
        ⟨before', quote, hquote, rfl⟩, hne, hrun, hended⟩
      rw [htext, List.append_assoc]
    · cases head' with
      | nil =>
        refine ⟨quote :: notationFront group artifact, by rw [List.append_nil], htext.symm,
          ⟨[], quote, hquote, rfl⟩, hne, hrun, hended⟩
      | cons c head' =>
        obtain ⟨rfl, -⟩ := List.cons.inj htext
        have hno := hhead quote (List.mem_append_right _ List.mem_cons_self)
        exact absurd (hno.symm.trans hquote) Bool.false_ne_true
  · rintro ⟨front', rfl, hversion⟩
    exact hversion.shift head

/-- The version of a stretch is what follows the start of a notation. -/
theorem notationWord?_iff {s : Stretch isQuote} {k : Nat} :
    notationWord? group artifact s = some (k, version) ↔
      ∃ rest, s.text = notationFront group artifact ++ (version ++ rest) ∧ version ≠ [] ∧
        (∀ c ∈ version, inVersion c) ∧ (∀ c ∈ rest.head?, inVersion c = false) ∧
        (notationFront group artifact).length + 1 = k := by
  rw [notationWord?_eq_some_iff]
  constructor
  · rintro ⟨r, htext, rfl, hne, hk⟩
    refine ⟨r.dropWhile inVersion, ?_, hne, fun c hc => List.mem_takeWhile_imp hc, ?_, hk⟩
    · rw [List.takeWhile_append_dropWhile, htext]
    · intro c hc
      have hhead := head?_dropWhile inVersion r
      rw [Option.mem_def.mp hc] at hhead
      simpa using hhead
  · rintro ⟨rest, htext, hne, hrun, hended, hk⟩
    exact ⟨version ++ rest, htext, takeWhile_version hrun hended, hne, hk⟩

/-- The next stretch does not go on with a version. -/
theorem not_inVersion_append {rest r : List Char} (hrest : ∀ c ∈ rest.head?, inVersion c = false)
    (hr : r.head?.all isQuote) : ∀ c ∈ (rest ++ r).head?, inVersion c = false := by
  intro c hc
  cases rest with
  | cons d rest => exact hrest c hc
  | nil =>
    rw [List.nil_append] at hc
    rw [Option.mem_def.mp hc] at hr
    rw [Bool.eq_false_iff]
    exact fun hin => Bool.false_ne_true ((isQuote_of_inVersion hin).symm.trans hr)

section Stretch

variable (hfront : ∀ c ∈ notationFront group artifact, isQuote c = false) {s : Stretch isQuote}
  {r : List Char} (hr : r.head?.all isQuote)

include hfront hr

/-- A version behind the mark of a stretch ends in the stretch. -/
theorem exists_rest_of_mark (htext : s.text ++ r = notationFront group artifact ++ (version ++ back))
    (hrun : ∀ c ∈ version, inVersion c) (hended : ∀ c ∈ back.head?, inVersion c = false) :
    ∃ rest, s.text = notationFront group artifact ++ (version ++ rest) ∧ back = rest ++ r := by
  have hdrop := dropStart?_append_of_marks s.text hfront hr
  rw [dropStart?_eq_some_iff.mpr htext, eq_comm, Option.map_eq_some_iff] at hdrop
  obtain ⟨inner, hinner, hback⟩ := hdrop
  have hstop : r.head?.all (!inVersion ·) := by
    rw [Option.all_eq_true]
    intro c hc
    rw [@not_inVersion_append [] r nofun hr c hc]
    rfl
  have hword : inner.takeWhile inVersion = version := by
    rw [← takeWhile_append_of_head inner hstop, hback, takeWhile_version hrun hended]
  have hsplit : inner = version ++ inner.dropWhile inVersion := by
    rw [← hword, List.takeWhile_append_dropWhile]
  refine ⟨inner.dropWhile inVersion, by rw [← hsplit]; exact dropStart?_eq_some_iff.mp hinner, ?_⟩
  rw [hsplit, List.append_assoc, List.append_cancel_left_eq] at hback
  exact hback.symm

/-- A version is that of the first stretch or behind the first stretch. -/
theorem versionAt_stretch :
    VersionAt group artifact (s.print ++ r) front version back ↔
      (notationWord? group artifact s = some (front.length, version) ∧
          ∃ rest, s.print = front ++ (version ++ rest) ∧ back = rest ++ r) ∨
        ∃ front', front = s.print ++ front' ∧ VersionAt group artifact r front' version back := by
  constructor
  · rintro ⟨htext, ⟨before, quote, hquote, rfl⟩, hne, hrun, hended⟩
    cases before with
    | nil =>
      obtain ⟨rfl, hbehind⟩ := List.cons.inj htext
      obtain ⟨rest, hsplit, rfl⟩ := exists_rest_of_mark hfront hr hbehind hrun hended
      have hstop : ∀ c ∈ rest.head?, inVersion c = false := by
        intro c hc
        refine hended c ?_
        rw [List.head?_append, Option.mem_def.mp hc]
        rfl
      refine .inl ⟨notationWord?_iff.mpr ⟨rest, hsplit, hne, hrun, hstop, rfl⟩, rest, ?_, rfl⟩
      rw [Stretch.print, hsplit]
      rfl
    | cons c before =>
      obtain ⟨rfl, hbehind⟩ := List.cons.inj htext
      have hversion : VersionAt group artifact (s.text ++ r)
          (before ++ quote :: notationFront group artifact) version back :=
        ⟨hbehind, ⟨before, quote, hquote, rfl⟩, hne, hrun, hended⟩
      obtain ⟨front', hsplit, hversion⟩ := (versionAt_append s.text_spec).mp hversion
      exact .inr ⟨front', congrArg (s.mark :: ·) hsplit, hversion⟩
  · rintro (⟨hword, rest, hprint, rfl⟩ | ⟨front', rfl, hversion⟩)
    · obtain ⟨rest', htext, hne, hrun, hended, hk⟩ := notationWord?_iff.mp hword
      rw [Stretch.print, htext, ← List.cons_append] at hprint
      obtain ⟨rfl, hrest⟩ := List.append_inj hprint (by rw [List.length_cons, hk])
      obtain rfl := List.append_cancel_left hrest
      refine ⟨?_, ⟨[], s.mark, s.mark_spec, rfl⟩, hne, hrun, not_inVersion_append hended hr⟩
      simp only [Stretch.print, htext, List.cons_append, List.append_assoc]
    · exact hversion.shift s.print

end Stretch

/-! ## Cutting a text at its quotes -/

/-- Stretches cut at their versions. -/
def cutAt (group artifact : List Char) : List (Stretch isQuote) → CutText
  | [] => ⟨[], []⟩
  | s :: r =>
    match notationWord? group artifact s with
    | none => (cutAt group artifact r).behind s.print
    | some (k, word) =>
      let rest := (cutAt group artifact r).behind (s.print.drop (k + word.length))
      ⟨s.print.take k, (word, rest.lead) :: rest.versions⟩

theorem cutAt_of_some {s : Stretch isQuote} (r : List (Stretch isQuote)) {word rest : List Char}
    (hword : notationWord? group artifact s = some (front.length, word))
    (hprint : s.print = front ++ (word ++ rest)) :
    cutAt group artifact (s :: r) = ⟨front, (word, rest ++ (cutAt group artifact r).lead) ::
      (cutAt group artifact r).versions⟩ := by
  have hdrop : s.print.drop (front.length + word.length) = rest := by
    rw [hprint, ← List.append_assoc, ← List.length_append, List.drop_left]
  have htake : s.print.take front.length = front := by rw [hprint, List.take_left]
  rw [cutAt, hword]
  dsimp only
  rw [hdrop, htake]
  rfl

theorem exists_print_of_notationWord? {s : Stretch isQuote} {k : Nat} {word : List Char}
    (h : notationWord? group artifact s = some (k, word)) :
    ∃ front rest, s.print = front ++ (word ++ rest) ∧ front.length = k := by
  obtain ⟨rest, htext, -, -, -, hk⟩ := notationWord?_iff.mp h
  exact ⟨s.mark :: notationFront group artifact, rest, by rw [Stretch.print, htext]; rfl, hk⟩

theorem print_cutAt (ss : List (Stretch isQuote)) :
    (cutAt group artifact ss).print = printAll ss := by
  induction ss with
  | nil => rfl
  | cons s r ih =>
    cases hword : notationWord? group artifact s with
    | none => rw [cutAt, hword, CutText.print_behind, ih, printAll_cons]
    | some found =>
      obtain ⟨front, rest, hprint, hlength⟩ := exists_print_of_notationWord? hword
      obtain ⟨k, word⟩ := found
      dsimp only at hprint hlength
      rw [← hlength] at hword
      rw [cutAt_of_some r hword hprint, CutText.print, CutText.printVersions_cons, printAll_cons, ← ih,
        hprint, CutText.print]
      simp only [List.append_assoc]

/-- The cuts are at all the versions. -/
theorem versionAt_iff_hasCut (hfront : ∀ c ∈ notationFront group artifact, isQuote c = false)
    (ss : List (Stretch isQuote)) (front version back : List Char) :
    VersionAt group artifact (printAll ss) front version back ↔
      (cutAt group artifact ss).HasCut front version back := by
  induction ss generalizing front with
  | nil =>
    constructor
    · rintro ⟨htext, -, hne, -, -⟩
      simp only [printAll_nil, List.nil_eq, List.append_eq_nil_iff] at htext
      exact absurd htext.2.1 hne
    · rintro ⟨before, _, _, hversions, -, -⟩
      cases before <;> cases hversions
  | cons s r ih =>
    rw [printAll_cons, versionAt_stretch hfront (head?_printAll r)]
    simp only [ih]
    cases hword : notationWord? group artifact s with
    | none =>
      rw [cutAt, hword, CutText.hasCut_behind]
      exact or_iff_right fun h => nomatch h.1
    | some found =>
      obtain ⟨start, rest, hprint, hlength⟩ := exists_print_of_notationWord? hword
      obtain ⟨k, word⟩ := found
      dsimp only at hprint hlength
      rw [← hlength] at hword
      rw [cutAt_of_some r hword hprint, CutText.hasCut_cons, ← hlength, Option.some.injEq,
        Prod.mk.injEq]
      have hlater (front : List Char) :=
        @CutText.hasCut_behind (cutAt group artifact r) front version back rest
      refine or_congr ⟨?_, ?_⟩ ⟨?_, ?_⟩
      · rintro ⟨⟨hstart, rfl⟩, rest', hprint', rfl⟩
        obtain ⟨rfl, hrest⟩ := List.append_inj (hprint.symm.trans hprint') hstart
        obtain rfl := List.append_cancel_left hrest
        rw [List.append_assoc]
        exact ⟨rfl, rfl, congrArg (rest ++ ·) (print_cutAt r).symm⟩
      · rintro ⟨rfl, rfl, rfl⟩
        refine ⟨⟨rfl, rfl⟩, rest, hprint, ?_⟩
        rw [List.append_assoc]
        exact congrArg (rest ++ ·) (print_cutAt r)
      · rintro ⟨front', rfl, hcut⟩
        refine ⟨rest ++ front', by simp only [hprint, List.append_assoc], ?_⟩
        exact (hlater _).mpr ⟨front', rfl, hcut⟩
      · rintro ⟨front', rfl, hcut⟩
        obtain ⟨front'', rfl, hlast⟩ := (hlater _).mp hcut
        exact ⟨front'', by simp only [hprint, List.append_assoc], hlast⟩

/-! ## Raising -/

namespace Rewording

variable {marks : Char → Bool} {new : List Char} {w : Rewording marks new} {ss : List (Stretch marks)}
  {n : Nat} {v : VersionSpot}

/-- A stretch with the new word, if the word it has is chosen. -/
def setIf (w : Rewording marks new) (chosen : List Char → Bool) (s : Stretch marks) : Stretch marks :=
  if (w.word? s).any fun (_, word) => chosen word then w.set s else s

/-- Choosing positions by the words that are there is choosing words. -/
theorem write_eq_map {chosenAt : Nat → Bool} (chosen : List Char → Bool)
    (h : ∀ v ∈ w.places n ss, chosenAt v.start = chosen v.version) :
    w.write chosenAt n ss = ss.map (w.setIf chosen) := by
  induction ss generalizing n with
  | nil => rfl
  | cons s r ih =>
    rw [write, List.map_cons, ih fun v hv => h v (mem_places_cons.mpr (.inr hv))]
    congr 1
    cases hword : w.word? s with
    | none => rw [writeOne_of_none hword, setIf, hword]; rfl
    | some found =>
      obtain ⟨k, word⟩ := found
      have hsame := h ⟨n + k, word⟩ (mem_places_cons.mpr (.inl ⟨k, hword, rfl⟩))
      dsimp only at hsame
      rw [writeOne_of_some hword, hsame, setIf, hword]
      rfl

/-- A place is among the older ones if the version there is older. -/
theorem olderAt_start {target : String} (hv : v ∈ w.places n ss) :
    olderAt target (w.places n ss) v.start = v.isOlder target := by
  rw [Bool.eq_iff_iff, olderAt, List.any_eq_true]
  constructor
  · rintro ⟨u, hu, hchosen⟩
    rw [Bool.and_eq_true, beq_iff_eq] at hchosen
    obtain rfl := start_inj hu hv hchosen.1
    exact hchosen.2
  · intro holder
    exact ⟨v, hv, by rw [beq_self_eq_true, holder]; rfl⟩

end Rewording

/-- The target in the place of an older version; any other version. -/
def raised (target : String) (version : List Char) : List Char :=
  if compareVersions (String.ofList version) target = .lt then target.toList else version

theorem not_older_raised (target : String) (version : List Char) :
    compareVersions (String.ofList (raised target version)) target ≠ .lt := by
  unfold raised
  split
  · rw [String.ofList_toList, compareVersions_self]
    exact nofun
  · next hnot => exact hnot

theorem raised_empty (version : List Char) : raised "" version = version := by
  have holder := isOlder_empty ⟨0, version⟩
  rw [VersionSpot.isOlder, beq_eq_false_iff_ne] at holder
  exact if_neg holder

section Raise

variable {target : String} (hne : target.toList ≠ []) (hnew : ∀ c ∈ target.toList, inVersion c)

/-- A stretch with its version raised. -/
def raiseStretch (group artifact : List Char) : Stretch isQuote → Stretch isQuote :=
  (notations group artifact target.toList hne hnew).setIf fun word =>
    compareVersions (String.ofList word) target == .lt

/-- Stretches with their versions raised are cut as before. -/
theorem cutAt_map_raiseStretch (ss : List (Stretch isQuote)) :
    cutAt group artifact (ss.map (raiseStretch hne hnew group artifact)) =
      (cutAt group artifact ss).map (raised target) := by
  induction ss with
  | nil => rfl
  | cons s r ih =>
    let w := notations group artifact target.toList hne hnew
    rw [List.map_cons, raiseStretch, Rewording.setIf]
    cases hword : w.word? s with
    | none =>
      have hnone : notationWord? group artifact s = none := hword
      rw [Option.any_none, if_neg Bool.false_ne_true, cutAt, hnone, cutAt, hnone]
      exact congrArg (CutText.behind s.print) ih
    | some found =>
      obtain ⟨k, word⟩ := found
      obtain ⟨front, rest, hprint, rfl, -, hset⟩ := w.spec hword
      rw [Option.any_some]
      by_cases holder : compareVersions (String.ofList word) target = .lt
      · have hraised : raised target word = target.toList := if_pos holder
        rw [if_pos (beq_iff_eq.mpr holder), cutAt_of_some _ (w.word?_set hword) hset,
          cutAt_of_some r hword hprint, ← raiseStretch, ih]
        simp only [CutText.map, List.map_cons, hraised]
      · have hkept : raised target word = word := if_neg holder
        rw [if_neg fun h => holder (beq_iff_eq.mp h), cutAt_of_some _ hword hprint,
          cutAt_of_some r hword hprint, ← raiseStretch, ih]
        simp only [CutText.map, List.map_cons, hkept]

/-- Raising what is found in a text is raising its stretches. -/
theorem raiseSpots_gradleSpots (hfront : ∀ c ∈ notationFront group artifact, isQuote c = false)
    {head : List Char} (hhead : ∀ c ∈ head, isQuote c = false) (ss : List (Stretch isQuote)) :
    raiseSpots target (gradleSpots group artifact (head ++ printAll ss)) (head ++ printAll ss) =
      head ++ printAll (ss.map (raiseStretch hne hnew group artifact)) := by
  let w := notations group artifact target.toList hne hnew
  have hspots : gradleSpots group artifact (head ++ printAll ss) = w.places head.length ss :=
    gradleSpots_printAll hfront hhead ss
  rw [hspots, Rewording.raiseSpots_write (fun _ hv => hv) (Rewording.pairwise_places _ _)]
  congr 2
  exact Rewording.write_eq_map (fun word => compareVersions (String.ofList word) target == .lt)
    fun v hv => Rewording.olderAt_start hv

end Raise

/-- A text with no quote in front of its first stretch is cut at its versions. -/
theorem isAtVersions_cutAt (hfront : ∀ c ∈ notationFront group artifact, isQuote c = false)
    {head : List Char} (hhead : ∀ c ∈ head, isQuote c = false) (ss : List (Stretch isQuote)) :
    ((cutAt group artifact ss).behind head).IsAtVersions group artifact := by
  intro front version back
  rw [CutText.print_behind, print_cutAt, versionAt_append hhead, CutText.hasCut_behind]
  simp only [versionAt_iff_hasCut hfront]

/-- Upgrading a Gradle file replaces its older versions by the target and changes nothing else, and in
the result no version is older. -/
theorem Upgrade.upgradeManifest_gradle {u : Upgrade} {target path content : String}
    (htarget : u.target? = some target) (hdotted : isDotted target.toList)
    (hgroup : isPlainName u.group.toList) (hartifact : isPlainName u.artifact.toList)
    (hpath : File.fileName? path ≠ some "pom.xml") :
    ∃ t : CutText, t.print = content.toList ∧ t.IsAtVersions u.group.toList u.artifact.toList ∧
      u.upgradeManifest path content = some (String.ofList (t.map (raised target)).print) ∧
      (t.map (raised target)).IsAtVersions u.group.toList u.artifact.toList ∧
      ∀ front version back,
        VersionAt u.group.toList u.artifact.toList (t.map (raised target)).print front version back →
          compareVersions (String.ofList version) target ≠ .lt := by
  obtain ⟨head, ss, hcontent, hhead⟩ := exists_printAll isQuote content.toList
  have hfront := isQuote_of_mem_notationFront hgroup hartifact
  let cut (ss : List (Stretch isQuote)) : CutText :=
    (cutAt u.group.toList u.artifact.toList ss).behind head
  have hcuts (ss : List (Stretch isQuote)) : (cut ss).IsAtVersions _ _ :=
    isAtVersions_cutAt hfront hhead ss
  have hprint (ss : List (Stretch isQuote)) : (cut ss).print = head ++ printAll ss := by
    rw [CutText.print_behind, print_cutAt]
  -- the result is cut as the text was
  obtain ⟨ss', hmap, hupgraded⟩ : ∃ ss', (cut ss).map (raised target) = cut ss' ∧
      u.upgradeManifest path content = some (String.ofList (head ++ printAll ss')) := by
    have hspots : u.spots path content.toList =
        gradleSpots u.group.toList u.artifact.toList content.toList := by
      rw [spots, if_neg (by simpa using hpath)]
    rw [upgradeManifest, htarget, Option.map_some, hspots, hcontent]
    by_cases hne : target.toList = []
    · obtain rfl : target = "" := String.toList_inj.mp hne
      rw [raiseSpots_of_not_older fun v _ => isOlder_empty v]
      exact ⟨ss, CutText.map_id_of_forall raised_empty _, rfl⟩
    · have hnew : ∀ c ∈ target.toList, inVersion c := fun c hc => inVersion_of_isDotted hdotted hc
      rw [raiseSpots_gradleSpots hne hnew hfront hhead]
      exact ⟨_, congrArg (CutText.behind head) (cutAt_map_raiseStretch hne hnew ss).symm, rfl⟩
  refine ⟨cut ss, (hprint ss).trans hcontent.symm, hcuts ss, ?_, ?_, ?_⟩
  · rw [hupgraded, hmap, hprint]
  · rw [hmap]
    exact hcuts ss'
  · intro front version back hversion
    rw [hmap, hcuts, ← hmap] at hversion
    obtain ⟨before, text, after, hversions, -, -⟩ := hversion
    have hmem : (version, text) ∈ ((cut ss).map (raised target)).versions := by
      rw [hversions]
      exact List.mem_append_right _ List.mem_cons_self
    obtain ⟨⟨old, text'⟩, -, heq⟩ := List.mem_map.mp hmem
    obtain ⟨rfl, rfl⟩ := Prod.mk.inj heq
    exact not_older_raised target old

/-- A file with an older and a newer version of the dependency, and one of another dependency. -/
theorem older_notation_is_raised :
    let u : Upgrade := ⟨"g", "a-b", .exact "4.0", ["4.0"]⟩
    let content := "'g:a-b:3.9@aar' \"g:a-b:5\" 'g:a:1'"
    u.target? = some "4.0" ∧ isDotted "4.0".toList ∧ isPlainName u.group.toList ∧
      isPlainName u.artifact.toList ∧ File.fileName? "build.gradle" ≠ some "pom.xml" ∧
      ∃ t : CutText, t.print = content.toList ∧ t.IsAtVersions u.group.toList u.artifact.toList ∧
        u.upgradeManifest "build.gradle" content =
          some (String.ofList (t.map (raised "4.0")).print) ∧
        (t.map (raised "4.0")).IsAtVersions u.group.toList u.artifact.toList ∧
        ∀ front version back,
          VersionAt u.group.toList u.artifact.toList (t.map (raised "4.0")).print front version back →
            compareVersions (String.ofList version) "4.0" ≠ .lt := by
  intro u content
  refine ⟨by decide, by decide, by decide, by decide, by decide, ?_⟩
  exact Upgrade.upgradeManifest_gradle (by decide : u.target? = some "4.0") (by decide) (by decide)
    (by decide) (by decide)

end JavaMigration.Dependency
