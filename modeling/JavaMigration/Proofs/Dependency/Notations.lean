import Mathlib.Data.List.TakeWhile
import JavaMigration.Proofs.Dependency.Rewording

/-!
# Notations of a Gradle file

A notation lies between a quote and the next one, so a file cut at its quotes has at most one version
in each stretch. Raising them once is enough: behind it every notation has the target or a version
that was not older.
-/

namespace JavaMigration.Text

theorem takeWhile_append_of_head {q : Char → Bool} {r : List Char} (s : List Char)
    (hr : r.head?.all (!q ·)) : (s ++ r).takeWhile q = s.takeWhile q := by
  induction s with
  | nil =>
    cases r with
    | nil => rfl
    | cons c r => exact List.takeWhile_cons_of_neg (by simpa using hr)
  | cons c s ih => rw [List.cons_append, List.takeWhile_cons, List.takeWhile_cons, ih]

theorem head?_dropWhile (q : Char → Bool) (s : List Char) : (s.dropWhile q).head?.all (!q ·) := by
  induction s with
  | nil => rfl
  | cons c s ih =>
    rw [List.dropWhile_cons]
    split
    · exact ih
    · next hc => simpa using hc

end JavaMigration.Text

namespace JavaMigration.Dependency

open Text Stretch

variable {version group artifact : List Char}

/-! ## Notations -/

def isQuote (c : Char) : Bool := c == '"' || c == '\''

/-- The characters that may be in the version of a notation. -/
def inVersion (c : Char) : Bool := !(['"', '\'', '$', ':', '@'].contains c || isBlank c)

theorem inVersion_of_isDotted (h : isDotted version) {c : Char} (hc : c ∈ version) :
    inVersion c = true := by
  rw [inVersion, isBlank_of_isDotted h hc, Bool.or_false, Bool.not_eq_true', List.contains_eq_mem,
    decide_eq_false_iff_not]
  intro hmem
  have hno : (['"', '\'', '$', ':', '@'].all fun d => !(d.isDigit || d == '.')) := by decide
  exact not_mem_of_isDotted h (by simpa using List.all_eq_true.mp hno c hmem) hc

theorem isQuote_of_inVersion {c : Char} (h : inVersion c) : isQuote c = false := by
  rw [isQuote, Bool.or_eq_false_iff, beq_eq_false_iff_ne, beq_eq_false_iff_ne]
  constructor <;> rintro rfl <;> exact absurd h (by decide)

/-- What precedes the version in a notation. -/
def notationFront (group artifact : List Char) : List Char := group ++ ':' :: artifact ++ [':']

theorem isQuote_of_isPlainName {name : List Char} (h : isPlainName name) {c : Char} (hc : c ∈ name) :
    isQuote c = false := by
  rw [isQuote, Bool.or_eq_false_iff, beq_eq_false_iff_ne, beq_eq_false_iff_ne]
  constructor <;> rintro rfl <;> exact not_mem_of_isPlainName h (by decide) hc

theorem isQuote_of_mem_notationFront (hgroup : isPlainName group) (hartifact : isPlainName artifact) :
    ∀ c ∈ notationFront group artifact, isQuote c = false := by
  intro c hc
  simp only [notationFront, List.mem_append, List.mem_cons, List.not_mem_nil, or_false] at hc
  obtain (hc | rfl | hc) | rfl := hc
  · exact isQuote_of_isPlainName hgroup hc
  · rfl
  · exact isQuote_of_isPlainName hartifact hc
  · rfl

/-- The version in a stretch, if a notation begins with it. -/
def notationWord? (group artifact : List Char) (s : Stretch isQuote) : Option (Nat × List Char) :=
  (dropStart? (notationFront group artifact) s.text).bind fun r =>
    if (r.takeWhile inVersion).isEmpty then none
    else some ((notationFront group artifact).length + 1, r.takeWhile inVersion)

theorem notationWord?_eq_some_iff {s : Stretch isQuote} {k : Nat} {word : List Char} :
    notationWord? group artifact s = some (k, word) ↔
      ∃ r, s.text = notationFront group artifact ++ r ∧ r.takeWhile inVersion = word ∧ word ≠ [] ∧
        (notationFront group artifact).length + 1 = k := by
  simp only [notationWord?, Option.bind_eq_some_iff, dropStart?_eq_some_iff,
    Option.ite_none_left_eq_some, List.isEmpty_iff, Option.some.injEq, Prod.mk.injEq]
  constructor
  · rintro ⟨r, htext, hword, rfl, rfl⟩
    exact ⟨r, htext, rfl, hword, rfl⟩
  · rintro ⟨r, htext, rfl, hword, rfl⟩
    exact ⟨r, htext, hword, rfl, rfl⟩

/-- A stretch with another version in its notation. -/
def setNotation (group artifact : List Char) (new : List Char) (hnew : ∀ c ∈ new, inVersion c)
    (s : Stretch isQuote) : Stretch isQuote where
  mark := s.mark
  text := s.text.take (notationFront group artifact).length ++
    (new ++ (s.text.drop (notationFront group artifact).length).dropWhile inVersion)
  mark_spec := s.mark_spec
  text_spec := by
    intro c hc
    simp only [List.mem_append] at hc
    obtain hc | hc | hc := hc
    · exact s.text_spec c (List.mem_of_mem_take hc)
    · exact isQuote_of_inVersion (hnew c hc)
    · exact s.text_spec c (List.mem_of_mem_drop ((List.dropWhile_sublist _).mem hc))

/-- Writing versions in notations anew. -/
def notations (group artifact new : List Char) (hne : new ≠ []) (hnew : ∀ c ∈ new, inVersion c) :
    Rewording isQuote new where
  word? := notationWord? group artifact
  set := setNotation group artifact new hnew
  spec := by
    intro s k word h
    obtain ⟨r, htext, rfl, hword, rfl⟩ := notationWord?_eq_some_iff.mp h
    refine ⟨s.mark :: notationFront group artifact, r.dropWhile inVersion, ?_, rfl, hword, ?_⟩
    · rw [List.takeWhile_append_dropWhile, Stretch.print, htext]
      rfl
    · simp only [Stretch.print, setNotation, htext, List.take_left', List.drop_left',
        List.cons_append]
  word?_set := by
    intro s k word h
    obtain ⟨r, htext, -, -, rfl⟩ := notationWord?_eq_some_iff.mp h
    refine notationWord?_eq_some_iff.mpr ⟨new ++ r.dropWhile inVersion, ?_, ?_, hne, rfl⟩
    · simp only [setNotation, htext, List.take_left', List.drop_left']
    · rw [takeWhile_append_of_head new (head?_dropWhile _ r), List.takeWhile_eq_self_iff]
      exact hnew

/-! ## What the search finds -/

theorem notation?_cons (c : Char) (s : List Char) :
    notation? group artifact (c :: s) =
      if isQuote c then
        (dropStart? (notationFront group artifact) s).bind fun r =>
          if (r.takeWhile inVersion).isEmpty then none
          else some ((c :: s).length - r.length + (r.takeWhile inVersion).length,
            ⟨(c :: s).length - r.length, r.takeWhile inVersion⟩)
      else none := by
  have hquote : (c != '"' && c != '\'') = !isQuote c := (Bool.not_or _ _).symm
  unfold notation?
  dsimp only [Option.bind_eq_bind, Option.bind_some]
  rw [hquote]
  cases isQuote c <;> rfl

/-- A notation is recognised at the stretch that it begins. -/
theorem notation?_print (hfront : ∀ c ∈ notationFront group artifact, isQuote c = false)
    (s : Stretch isQuote) {r : List Char} (hr : r.head?.all isQuote) :
    notation? group artifact (s.print ++ r) =
      (notationWord? group artifact s).map fun (k, word) => (k + word.length, ⟨k, word⟩) := by
  have hstop : r.head?.all (!inVersion ·) := by
    cases r with
    | nil => rfl
    | cons c r =>
      have hno : inVersion c = false := by
        rw [Bool.eq_false_iff]
        intro hc
        exact Bool.false_ne_true ((isQuote_of_inVersion hc).symm.trans hr)
      simp [hno]
  rw [Stretch.print, List.cons_append, notation?_cons, if_pos s.mark_spec,
    dropStart?_append_of_marks s.text hfront hr, notationWord?]
  cases hdrop : dropStart? (notationFront group artifact) s.text with
  | none => rfl
  | some back =>
    have hlength := congrArg List.length (dropStart?_eq_some_iff.mp hdrop)
    have hstart : (s.mark :: (s.text ++ r)).length - (back ++ r).length =
        (notationFront group artifact).length + 1 := by
      simp only [List.length_cons, List.length_append] at hlength ⊢
      omega
    rw [Option.map_some, Option.bind_some, Option.bind_some, takeWhile_append_of_head back hstop,
      hstart]
    split <;> rfl

theorem notation?_of_not_quote {c : Char} (hc : isQuote c = false) (s : List Char) :
    notation? group artifact (c :: s) = none := by
  rw [notation?_cons, hc, if_neg Bool.false_ne_true]

/-- The versions found are the words of the stretches. -/
theorem findAll_notation? {new : List Char} {hne : new ≠ []} {hnew : ∀ c ∈ new, inVersion c}
    (hfront : ∀ c ∈ notationFront group artifact, isQuote c = false) (n : Nat)
    (ss : List (Stretch isQuote)) :
    (findAll (notation? group artifact) 0 n (printAll ss)).map
        (fun (k, v) => { v with start := k + v.start }) =
      (notations group artifact new hne hnew).places n ss := by
  induction ss generalizing n with
  | nil => rfl
  | cons s r ih =>
    have hfound := notation?_print hfront s (head?_printAll r)
    have hpass : ∀ text : List Char, (∀ c ∈ text, isQuote c = false) →
        ∀ c ∈ text, ∀ t, notation? group artifact (c :: t) = none := fun text htext c hc t =>
      notation?_of_not_quote (htext c hc) t
    rw [printAll_cons, Rewording.places, ← ih]
    cases hword : notationWord? group artifact s with
    | none =>
      rw [hword, Option.map_none, Stretch.print, List.cons_append] at hfound
      have hnone : (notations group artifact new hne hnew).word? s = none := hword
      rw [hnone, Stretch.print, List.cons_append, findAll, hfound]
      dsimp only
      rw [findAll_of_none _ (hpass _ s.text_spec), List.length_cons, Nat.add_assoc, Nat.add_comm 1]
      rfl
    | some found =>
      obtain ⟨k, word⟩ := found
      have hsome : (notations group artifact new hne hnew).word? s = some (k, word) := hword
      obtain ⟨back, htext, hback, -, hk⟩ := notationWord?_eq_some_iff.mp hword
      have hprint : s.print = (s.mark :: notationFront group artifact) ++ word ++
          back.dropWhile inVersion := by
        rw [List.append_assoc, ← hback, List.takeWhile_append_dropWhile, Stretch.print, htext]
        rfl
      have hbehind : ∀ c ∈ back.dropWhile inVersion, isQuote c = false := fun c hc =>
        s.text_spec c (htext ▸ List.mem_append_right _ ((List.dropWhile_sublist _).mem hc))
      have hlength : k + word.length = (s.mark :: notationFront group artifact ++ word).length := by
        rw [List.length_append, List.length_cons, hk]
      rw [hword, Option.map_some, hprint, List.append_assoc] at hfound
      dsimp only at hfound
      rw [hlength] at hfound
      have hnonempty : s.mark :: notationFront group artifact ++ word ≠ [] := List.cons_ne_nil _ _
      rw [hsome, hprint, List.append_assoc, findAll_of_some n hnonempty hfound,
        findAll_of_none _ (hpass _ hbehind), List.map_cons, Nat.add_assoc, ← List.length_append,
        List.append_assoc]
      rfl

/-! ## Raising twice -/

theorem gradleSpots_printAll {new : List Char} {hne : new ≠ []} {hnew : ∀ c ∈ new, inVersion c}
    (hfront : ∀ c ∈ notationFront group artifact, isQuote c = false) {head : List Char}
    (hhead : ∀ c ∈ head, isQuote c = false) (ss : List (Stretch isQuote)) :
    gradleSpots group artifact (head ++ printAll ss) =
      (notations group artifact new hne hnew).places head.length ss := by
  rw [gradleSpots, findAll_of_none 0 fun c hc t => notation?_of_not_quote (hhead c hc) t,
    ← findAll_notation? hfront, Nat.zero_add]

/-- The notations of a file are raised at once. -/
theorem raiseSpots_gradleSpots_again {target : String} (hgroup : isCoordinate group)
    (hartifact : isCoordinate artifact) (hne : target.toList ≠ []) (htarget : isDotted target.toList)
    (content : List Char) :
    let raised := raiseSpots target (gradleSpots group artifact content) content
    raiseSpots target (gradleSpots group artifact raised) raised = raised := by
  intro raised
  obtain ⟨head, ss, rfl, hhead⟩ := exists_printAll isQuote content
  let w := notations group artifact target.toList hne fun c hc => inVersion_of_isDotted htarget hc
  have hspots (ss : List (Stretch isQuote)) :
      gradleSpots group artifact (head ++ printAll ss) = w.places head.length ss :=
    gradleSpots_printAll (isQuote_of_mem_notationFront (isPlainName_of_isCoordinate hgroup)
      (isPlainName_of_isCoordinate hartifact)) hhead ss
  have hraised : raised =
      head ++ printAll (w.write (olderAt target (w.places head.length ss)) head.length ss) := by
    rw [← Rewording.raiseSpots_write (fun _ hv => hv) (Rewording.pairwise_places _ _), ← hspots]
  rw [hraised, hspots]
  refine raiseSpots_of_not_older (fun v hv => ?_) _
  obtain ⟨u, hu, hbecame⟩ := Rewording.mem_places_write hv
  exact isOlder_of_became hu hbecame

end JavaMigration.Dependency
