import JavaMigration.Proofs.Dependency.Raising

/-!
# Words between marks

A text cut at its marks lies in stretches, and in some of them there is a version that can be written
anew. Raising spots in such a text is writing the target into the stretches of the older ones,
whichever search they came from (`raiseSpots_write`). What has become of them is then not older
(`isOlder_of_became`).
-/

namespace JavaMigration.Dependency

/-- A mark and the text behind it up to the next one. -/
structure Stretch (marks : Char → Bool) where
  mark : Char
  text : List Char
  mark_spec : marks mark
  text_spec : ∀ c ∈ text, marks c = false

namespace Stretch

variable {marks : Char → Bool}

def print (s : Stretch marks) : List Char := s.mark :: s.text

def printAll (ss : List (Stretch marks)) : List Char := ss.flatMap print

@[simp] theorem printAll_nil : printAll ([] : List (Stretch marks)) = [] := rfl

@[simp] theorem printAll_cons (s : Stretch marks) (r : List (Stretch marks)) :
    printAll (s :: r) = s.print ++ printAll r := rfl

@[simp] theorem printAll_append (ss r : List (Stretch marks)) :
    printAll (ss ++ r) = printAll ss ++ printAll r := List.flatMap_append

/-- Every text can be cut at its marks. -/
theorem exists_printAll (marks : Char → Bool) (s : List Char) :
    ∃ (head : List Char) (ss : List (Stretch marks)),
      s = head ++ printAll ss ∧ ∀ c ∈ head, marks c = false := by
  induction s with
  | nil => exact ⟨[], [], rfl, fun _ h => nomatch h⟩
  | cons c s ih =>
    obtain ⟨head, ss, rfl, hhead⟩ := ih
    cases hc : marks c with
    | true => exact ⟨[], ⟨c, head, hc, hhead⟩ :: ss, rfl, fun _ h => nomatch h⟩
    | false => exact ⟨c :: head, ss, rfl, List.forall_mem_cons.mpr ⟨hc, hhead⟩⟩

/-- Behind a stretch the text is at its end or at a mark. -/
theorem head?_printAll (ss : List (Stretch marks)) : (printAll ss).head?.all marks := by
  cases ss with
  | nil => rfl
  | cons s r => exact s.mark_spec

end Stretch

open Text Stretch

/-- What has become of a version: the new word, if its position was chosen. -/
def Became (new : List Char) (chosen : Nat → Bool) (u v : VersionSpot) : Prop :=
  v.version = if chosen u.start then new else u.version

theorem Became.eq_or_eq {new : List Char} {chosen : Nat → Bool} {u v : VersionSpot}
    (h : Became new chosen u v) : v.version = new ∨ v.version = u.version := by
  rw [Became] at h
  split at h
  · exact .inl h
  · exact .inr h

/-- The word of a stretch with what precedes it in the stretch, and the stretch with the word `new` in
its place. -/
structure Rewording (marks : Char → Bool) (new : List Char) where
  word? : Stretch marks → Option (Nat × List Char)
  set : Stretch marks → Stretch marks
  spec : ∀ {s : Stretch marks} {k : Nat} {word : List Char}, word? s = some (k, word) →
    ∃ front back, s.print = front ++ (word ++ back) ∧ front.length = k ∧ word ≠ [] ∧
      (set s).print = front ++ (new ++ back)
  word?_set : ∀ {s : Stretch marks} {k : Nat} {word : List Char}, word? s = some (k, word) →
    word? (set s) = some (k, new)

namespace Rewording

variable {marks : Char → Bool} {new : List Char} (w : Rewording marks new)

/-- The words of some stretches, the first of which begins at position `n`. -/
def places (n : Nat) : List (Stretch marks) → List VersionSpot
  | [] => []
  | s :: r => ((w.word? s).map fun (k, word) => ⟨n + k, word⟩).toList ++ places (n + s.print.length) r

/-- A stretch at position `n` with the new word, if its word is at a chosen position. -/
def writeOne (chosen : Nat → Bool) (n : Nat) (s : Stretch marks) : Stretch marks :=
  if (w.word? s).any fun (k, _) => chosen (n + k) then w.set s else s

/-- Stretches with the new word at the chosen positions. -/
def write (chosen : Nat → Bool) (n : Nat) : List (Stretch marks) → List (Stretch marks)
  | [] => []
  | s :: r => w.writeOne chosen n s :: write chosen (n + s.print.length) r

variable {w} {s : Stretch marks} {ss r : List (Stretch marks)} {n k : Nat} {word : List Char}
  {v : VersionSpot}

/-! ## Positions -/

theorem lt_length_of_word? (h : w.word? s = some (k, word)) : k < s.print.length := by
  obtain ⟨front, back, hprint, rfl, hword, -⟩ := w.spec h
  have hpositive := List.length_pos_iff.mpr hword
  rw [hprint, List.length_append, List.length_append]
  omega

theorem mem_places_cons :
    v ∈ w.places n (s :: r) ↔
      (∃ k, w.word? s = some (k, v.version) ∧ v.start = n + k) ∨
        v ∈ w.places (n + s.print.length) r := by
  rw [places, List.mem_append, Option.mem_toList, Option.map_eq_some_iff]
  refine or_congr_left ⟨?_, ?_⟩
  · rintro ⟨⟨k, word⟩, hword, rfl⟩
    exact ⟨k, hword, rfl⟩
  · rintro ⟨k, hword, hstart⟩
    refine ⟨(k, v.version), hword, ?_⟩
    show VersionSpot.mk (n + k) v.version = v
    rw [← hstart]

theorem mem_places_append {front : List (Stretch marks)}
    (h : v ∈ w.places (n + (printAll front).length) r) : v ∈ w.places n (front ++ r) := by
  induction front generalizing n with
  | nil => exact h
  | cons s front ih =>
    rw [printAll_cons, List.length_append, ← Nat.add_assoc] at h
    exact mem_places_cons.mpr (.inr (ih h))

theorem le_start_of_mem_places (h : v ∈ w.places n ss) : n ≤ v.start := by
  induction ss generalizing n with
  | nil => cases h
  | cons s r ih =>
    rcases mem_places_cons.mp h with ⟨k, -, hstart⟩ | hrest
    · omega
    · have := ih hrest
      omega

theorem pairwise_places (n : Nat) (ss : List (Stretch marks)) :
    (w.places n ss).Pairwise (·.start < ·.start) := by
  induction ss generalizing n with
  | nil => exact .nil
  | cons s r ih =>
    rw [places]
    cases hword : w.word? s with
    | none => exact ih _
    | some found =>
      refine List.pairwise_cons.mpr ⟨fun v hv => ?_, ih _⟩
      have hlt := lt_length_of_word? hword
      have hle := le_start_of_mem_places hv
      show n + found.1 < v.start
      omega

theorem start_inj {u : VersionSpot} (hu : u ∈ w.places n ss)
    (hv : v ∈ w.places n ss) (h : u.start = v.start) : u = v :=
  List.inj_on_of_nodup_map (List.pairwise_map.mpr ((pairwise_places n ss).imp Nat.ne_of_lt)) hu hv h

/-! ## Writing -/

variable {chosen chosen' : Nat → Bool}

theorem writeOne_of_some (h : w.word? s = some (k, word)) :
    w.writeOne chosen n s = if chosen (n + k) then w.set s else s := by
  rw [writeOne, h]
  rfl

theorem writeOne_of_none (h : w.word? s = none) : w.writeOne chosen n s = s := by
  rw [writeOne, h]
  rfl

/-- Only the positions within a stretch count. -/
theorem writeOne_congr (h : ∀ i, i < n + s.print.length → n ≤ i → chosen i = chosen' i) :
    w.writeOne chosen n s = w.writeOne chosen' n s := by
  cases hword : w.word? s with
  | none => rw [writeOne_of_none hword, writeOne_of_none hword]
  | some found =>
    have hlt := lt_length_of_word? hword
    rw [writeOne_of_some hword, writeOne_of_some hword, h _ (by omega) (by omega)]

theorem write_congr (h : ∀ i, n ≤ i → chosen i = chosen' i) :
    w.write chosen n ss = w.write chosen' n ss := by
  induction ss generalizing n with
  | nil => rfl
  | cons s r ih =>
    rw [write, write, writeOne_congr fun i _ hi => h i hi, ih fun i hi => h i (by omega)]

theorem writeOne_none (n : Nat) (s : Stretch marks) : w.writeOne (fun _ => false) n s = s := by
  cases hword : w.word? s with
  | none => exact writeOne_of_none hword
  | some found => rw [writeOne_of_some hword, if_neg Bool.false_ne_true]

theorem write_none (n : Nat) (ss : List (Stretch marks)) : w.write (fun _ => false) n ss = ss := by
  induction ss generalizing n with
  | nil => rfl
  | cons s r ih => rw [write, ih, writeOne_none]

/-- A place is between what is in front of it and what is behind it, and choosing it as well puts the
new word there. -/
theorem exists_write (hv : v ∈ w.places n ss)
    (hbefore : ∀ i ≤ v.start, chosen i = false) (hat : chosen' v.start = true)
    (hother : ∀ i, i ≠ v.start → chosen' i = chosen i) :
    ∃ front back, n + front.length = v.start ∧
      printAll (w.write chosen n ss) = front ++ (v.version ++ back) ∧
      printAll (w.write chosen' n ss) = front ++ (new ++ back) := by
  induction ss generalizing n with
  | nil => cases hv
  | cons s r ih =>
    rw [write, write, printAll_cons, printAll_cons]
    rcases mem_places_cons.mp hv with ⟨k, hword, hstart⟩ | hrest
    · obtain ⟨front, back, hprint, rfl, -, hset⟩ := w.spec hword
      have hlt := lt_length_of_word? hword
      have hbehind : w.write chosen' (n + s.print.length) r =
          w.write chosen (n + s.print.length) r :=
        write_congr fun i hi => hother i (by omega)
      rw [writeOne_of_some hword, writeOne_of_some hword, ← hstart, hat, hbefore _ (Nat.le_refl _),
        if_neg Bool.false_ne_true, if_pos rfl, hbehind, hprint, hset]
      exact ⟨front, back ++ printAll (w.write chosen (n + s.print.length) r), hstart.symm,
        by simp only [hprint, List.append_assoc], by simp only [hprint, List.append_assoc]⟩
    · have hle := le_start_of_mem_places hrest
      have hkept : ∀ {f : Nat → Bool}, (∀ i < v.start, f i = false) → w.writeOne f n s = s := by
        intro f hf
        have hnone : w.writeOne f n s = w.writeOne (fun _ => false) n s :=
          writeOne_congr fun i hi _ => hf i (by omega)
        rw [hnone, writeOne_none]
      obtain ⟨front, back, hstart, hold, hnew⟩ := ih hrest
      rw [hkept fun i hi => hbefore i (by omega),
        hkept fun i hi => (hother i (by omega)).trans (hbefore i (by omega)), hold, hnew]
      exact ⟨s.print ++ front, back, by rw [List.length_append]; omega,
        (List.append_assoc _ _ _).symm, (List.append_assoc _ _ _).symm⟩

/-- The words of a stretch are those it had, but for a chosen one. -/
theorem word?_writeOne (chosen : Nat → Bool) (n : Nat) (s : Stretch marks) :
    w.word? (w.writeOne chosen n s) =
      (w.word? s).map fun (k, word) => (k, if chosen (n + k) then new else word) := by
  cases hword : w.word? s with
  | none => rw [writeOne_of_none hword, hword, Option.map_none]
  | some found =>
    obtain ⟨k, word⟩ := found
    rw [writeOne_of_some hword, Option.map_some]
    dsimp only
    split
    · exact w.word?_set hword
    · exact hword

/-- What is found in the new stretches was there before. -/
theorem mem_places_write {n' : Nat} (hv : v ∈ w.places n' (w.write chosen n ss)) :
    ∃ u ∈ w.places n ss, Became new chosen u v := by
  induction ss generalizing n n' with
  | nil => cases hv
  | cons s r ih =>
    rw [write] at hv
    rcases mem_places_cons.mp hv with ⟨k, hword, -⟩ | hrest
    · rw [word?_writeOne, Option.map_eq_some_iff] at hword
      obtain ⟨⟨i, word⟩, hold, hnew⟩ := hword
      exact ⟨⟨n + i, word⟩, mem_places_cons.mpr (.inl ⟨i, hold, rfl⟩), (Prod.mk.inj hnew).2.symm⟩
    · obtain ⟨u, hu, hbecame⟩ := ih hrest
      exact ⟨u, mem_places_cons.mpr (.inr hu), hbecame⟩

end Rewording

/-! ## Raising -/

/-- Spots that are not older are left alone. -/
theorem raiseSpots_of_not_older {target : String} {spots : List VersionSpot}
    (h : ∀ v ∈ spots, v.isOlder target = false) (content : List Char) :
    raiseSpots target spots content = content := by
  induction spots with
  | nil => rfl
  | cons v spots ih =>
    obtain ⟨hv, hrest⟩ := List.forall_mem_cons.mp h
    rw [VersionSpot.isOlder] at hv
    rw [raiseSpots, List.foldr_cons, ← raiseSpots, ih hrest, raiseSpot, hv,
      if_neg Bool.false_ne_true]

/-- What has become of spots when the older ones of them were raised is not older. -/
theorem isOlder_of_became {target : String} {spots : List VersionSpot} {u v : VersionSpot}
    (hu : u ∈ spots) (h : Became target.toList (olderAt target spots) u v) :
    v.isOlder target = false := by
  rw [VersionSpot.isOlder, h]
  cases hchosen : olderAt target spots u.start with
  | true => rw [if_pos rfl, String.ofList_toList, compareVersions_self]; rfl
  | false =>
    have hkept := List.any_eq_false.mp hchosen u hu
    rw [beq_self_eq_true, Bool.true_and, Bool.not_eq_true] at hkept
    rwa [if_neg Bool.false_ne_true]

namespace Rewording

variable {marks : Char → Bool} {target : String} {w : Rewording marks target.toList}
  {spots : List VersionSpot}

theorem writes_printAll {v : VersionSpot} {head new : List Char} {w : Rewording marks new}
    {ss : List (Stretch marks)} (hv : v ∈ w.places head.length ss) :
    Writes new (fun chosen => head ++ printAll (w.write chosen head.length ss)) v := by
  intro chosen chosen' hbefore hat hother
  obtain ⟨front, back, hfront, hold, hnew⟩ := exists_write hv hbefore hat hother
  refine ⟨head ++ front, back, ?_, ?_, ?_⟩
  · rw [List.length_append, hfront]
  · simp only [hold, List.append_assoc]
  · simp only [hnew, List.append_assoc]

theorem raiseSpots_write {head : List Char} {ss : List (Stretch marks)}
    (hplaces : ∀ v ∈ spots, v ∈ w.places head.length ss)
    (hsorted : spots.Pairwise (·.start < ·.start)) :
    raiseSpots target spots (head ++ printAll ss) =
      head ++ printAll (w.write (olderAt target spots) head.length ss) := by
  have hraised := raiseSpots_eq (fun v hv => writes_printAll (hplaces v hv)) hsorted
  rwa [write_none] at hraised

end Rewording

/-! ## Numbers with dots -/

/-- A version of nothing but digits and dots. -/
def isDotted (version : List Char) : Bool := version.all fun c => c.isDigit || c == '.'

variable {version : List Char}

theorem not_mem_of_isDotted (h : isDotted version) {c : Char}
    (hc : (c.isDigit || c == '.') = false) : c ∉ version := fun hmem =>
  Bool.false_ne_true (hc.symm.trans (List.all_eq_true.mp h c hmem))

theorem toNat_of_isDigit {c : Char} (h : c.isDigit) : 48 ≤ c.toNat ∧ c.toNat < 58 := by
  simp only [Char.isDigit, Bool.and_eq_true, decide_eq_true_eq] at h
  exact ⟨h.1, Nat.lt_succ_of_le h.2⟩

theorem isBlank_of_isDotted (h : isDotted version) {c : Char} (hc : c ∈ version) :
    isBlank c = false := by
  have hform := List.all_eq_true.mp h c hc
  rw [Bool.or_eq_true, beq_iff_eq] at hform
  rcases hform with hdigit | rfl
  · obtain ⟨hlow, hhigh⟩ := toNat_of_isDigit hdigit
    simp only [isBlank, Bool.or_eq_false_iff, Bool.and_eq_false_iff, decide_eq_false_iff_not,
      beq_eq_false_iff_ne]
    omega
  · decide

/-- Nothing is older than a version without a number. -/
theorem isOlder_empty (v : VersionSpot) : v.isOlder "" = false := by
  have hnumbers : numbers "" = [] := by decide
  have hrelease : isRelease "" = false := by decide
  have hnot (as : List Nat) : compareNumbers as [] ≠ .lt := by
    cases as with
    | nil => decide
    | cons a as =>
      rw [compareNumbers]
      split <;> decide
      rintro h
      cases h
  rw [VersionSpot.isOlder, compareVersions, hnumbers, hrelease, beq_eq_false_iff_ne]
  cases hfirst : compareNumbers (numbers (String.ofList v.version)) [] with
  | lt => exact absurd hfirst (hnot _)
  | gt =>
    intro h
    cases h
  | eq => cases isRelease (String.ofList v.version) <;> decide

/-! ## Coordinates -/

/-- A group or an artifact: letters, digits and what may stand between them, with one letter at
least. -/
def isCoordinate (name : List Char) : Bool :=
  name.any isLetter && name.all fun c => isAlphanumeric c || c == '.' || c == '-' || c == '_'

/-- A group or an artifact that need not have a letter in it. -/
def isPlainName (name : List Char) : Bool :=
  name.all fun c => isAlphanumeric c || c == '.' || c == '-' || c == '_'

theorem isPlainName_of_isCoordinate {name : List Char} (h : isCoordinate name) : isPlainName name :=
  (Bool.and_eq_true_iff.mp h).2

theorem not_mem_of_isPlainName {name : List Char} (h : isPlainName name) {c : Char}
    (hc : (isAlphanumeric c || c == '.' || c == '-' || c == '_') = false) : c ∉ name := fun hmem =>
  Bool.false_ne_true (hc.symm.trans (List.all_eq_true.mp h c hmem))

theorem not_mem_of_isCoordinate {name : List Char} (h : isCoordinate name) {c : Char}
    (hc : (isAlphanumeric c || c == '.' || c == '-' || c == '_') = false) : c ∉ name :=
  not_mem_of_isPlainName (isPlainName_of_isCoordinate h) hc

end JavaMigration.Dependency
