import Mathlib.Data.List.Basic
import JavaMigration.Dependency.Manifest

/-!
# Maven files as trees

The elements of a Maven file with every character of it, and the places in it at which an element
holds just one word. The word of a place can be written anew, which leaves all else as it is.
-/

namespace JavaMigration.Dependency

open Text

/-- A row of elements and other marks with the text behind them. Text belongs to the tag that it
follows. -/
inductive Markup where
  | nil
  /-- An element, its start tag with attributes, and what follows it. -/
  | element (name attributes text : List Char) (children : Markup) (tail : List Char) (rest : Markup)
  /-- A comment, an instruction or an element in one tag, by what stands between its brackets. -/
  | mark (body tail : List Char) (rest : Markup)
  deriving DecidableEq, Repr, Inhabited

namespace Markup

def print : Markup → List Char
  | nil => []
  | element name attributes text children tail rest =>
    openTag (name ++ attributes) ++ (text ++ (children.print ++ (closeTag name ++ (tail ++ rest.print))))
  | mark body tail rest => openTag body ++ (tail ++ rest.print)

/-! ## Well-formed files -/

/-- A character that is no bracket of a tag. -/
def isPlain (c : Char) : Bool := c != '<' && c != '>'

def isName (name : List Char) : Bool :=
  !name.isEmpty && name.all (fun c => isPlain c && c != '/' && !isBlank c) &&
    name.head? != some '!' && name.head? != some '?'

def isAttributes (attributes : List Char) : Bool :=
  attributes.all isPlain && attributes.head?.all isBlank

/-- What stands in the brackets of a comment, an instruction or an element in one tag. -/
def isMark (body : List Char) : Bool :=
  body.all isPlain &&
    (body.head? == some '!' || body.head? == some '?' ||
      (body.getLast? == some '/' && body.head? != some '/'))

def dependencyName : List Char := "dependency".toList

/-- Tags have the form of tags, texts and comments have no tags in them, and no dependency is
within another; `inside` tells whether there is one around. -/
def isWellFormed (inside : Bool) : Markup → Bool
  | nil => true
  | element name attributes text children tail rest =>
    isName name && isAttributes attributes && text.all isPlain && tail.all isPlain &&
      !(inside && name == dependencyName) &&
      children.isWellFormed (inside || name == dependencyName) && rest.isWellFormed inside
  | mark body tail rest => isMark body && tail.all isPlain && rest.isWellFormed inside

end Markup

/-! ## Places -/

/-- An element without what follows it. -/
structure Element where
  name : List Char
  attributes : List Char
  text : List Char
  children : Markup
  deriving DecidableEq, Repr, Inhabited

/-- An element that holds one word: its name, the element around it, where in the file the word
begins, and the word. -/
structure Place where
  name : List Char
  parent : Option Element
  start : Nat
  word : List Char
  deriving DecidableEq, Repr, Inhabited

def Place.spot (p : Place) : VersionSpot := ⟨p.start, p.word⟩

/-- The one word of a text, with the number of blanks in front of it. -/
def oneWord? (text : List Char) : Option (Nat × List Char) :=
  let r := text.dropWhile isBlank
  let word := r.takeWhile (!isBlank ·)
  if word.isEmpty || !(r.drop word.length).all isBlank then none
  else some (text.length - r.length, word)

namespace Markup

/-- The word that an element of a given form holds. -/
def wordIn? (attributes text : List Char) (children : Markup) : Option (Nat × List Char) :=
  if attributes = [] ∧ children = nil then oneWord? text else none

/-- Where the text of an element at position `n` begins. -/
def textAt (n : Nat) (name attributes : List Char) : Nat :=
  n + (openTag (name ++ attributes)).length

/-- Where what follows an element at position `n` begins. -/
def restAt (n : Nat) (name attributes text : List Char) (children : Markup) (tail : List Char) : Nat :=
  textAt n name attributes + text.length + children.print.length + (closeTag name).length + tail.length

/-- The places in a row of elements that begins at position `n`, in the order of the file. -/
def places (parent : Option Element) (n : Nat) : Markup → List Place
  | nil => []
  | element name attributes text children tail rest =>
    ((wordIn? attributes text children).map fun (k, word) =>
      ⟨name, parent, textAt n name attributes + k, word⟩).toList ++
      children.places (some ⟨name, attributes, text, children⟩) (textAt n name attributes + text.length) ++
      rest.places parent (restAt n name attributes text children tail)
  | mark body tail rest => rest.places parent (n + (openTag body).length + tail.length)

/-- A text with its one word replaced. -/
def setWord (new text : List Char) : List Char :=
  text.takeWhile isBlank ++ new ++ (text.dropWhile isBlank).dropWhile (!isBlank ·)

/-- The text of an element, which begins at position `i`, with a new word if its place is chosen. -/
def writeText (new : List Char) (chosen : Nat → Bool) (i : Nat) (attributes text : List Char)
    (children : Markup) : List Char :=
  match wordIn? attributes text children with
  | some (k, _) => if chosen (i + k) then setWord new text else text
  | none => text

/-- The file with a new word at the chosen places. -/
def write (new : List Char) (chosen : Nat → Bool) (n : Nat) : Markup → Markup
  | nil => nil
  | element name attributes text children tail rest =>
    element name attributes (writeText new chosen (textAt n name attributes) attributes text children)
      (children.write new chosen (textAt n name attributes + text.length)) tail
      (rest.write new chosen (restAt n name attributes text children tail))
  | mark body tail rest => mark body tail (rest.write new chosen (n + (openTag body).length + tail.length))

/-! ## Words -/

@[simp] theorem length_openTag (name : List Char) : (openTag name).length = name.length + 2 := by
  simp [openTag]

@[simp] theorem length_closeTag (name : List Char) : (closeTag name).length = name.length + 3 := by
  simp [closeTag]

theorem oneWord?_eq_some {text word : List Char} {k : Nat} (h : oneWord? text = some (k, word)) :
    ∃ front back, text = front ++ (word ++ back) ∧ front.length = k ∧
      ∀ new, setWord new text = front ++ (new ++ back) := by
  unfold oneWord? at h
  simp only [Option.ite_none_left_eq_some, Option.some.injEq, Prod.mk.injEq] at h
  obtain ⟨-, hk, rfl⟩ := h
  have htext : text.takeWhile isBlank ++ text.dropWhile isBlank = text :=
    List.takeWhile_append_dropWhile
  refine ⟨text.takeWhile isBlank, (text.dropWhile isBlank).dropWhile (!isBlank ·), ?_, ?_, ?_⟩
  · rw [List.takeWhile_append_dropWhile, htext]
  · have hlength := congrArg List.length htext
    rw [List.length_append] at hlength
    omega
  · intro new
    rw [setWord, List.append_assoc]

theorem wordIn?_eq_some {attributes text word : List Char} {children : Markup} {k : Nat}
    (h : wordIn? attributes text children = some (k, word)) :
    attributes = [] ∧ children = nil ∧ oneWord? text = some (k, word) := by
  unfold wordIn? at h
  split at h
  · next hform => exact ⟨hform.1, hform.2, h⟩
  · cases h

/-! ## Positions -/

theorem start_mem_places {m : Markup} {parent : Option Element} {n : Nat} {p : Place}
    (h : p ∈ m.places parent n) : n ≤ p.start ∧ p.start < n + m.print.length := by
  induction m generalizing parent n with
  | nil => cases h
  | element name attributes text children tail rest ihc ihr =>
    simp only [places, List.mem_append, Option.mem_toList, Option.map_eq_some_iff, Prod.exists] at h
    simp only [print, List.length_append, length_openTag, length_closeTag]
    obtain (⟨k, word, hword, rfl⟩ | hchild) | hrest := h
    · obtain ⟨-, -, hone⟩ := wordIn?_eq_some hword
      obtain ⟨front, back, rfl, rfl, -⟩ := oneWord?_eq_some hone
      simp only [textAt, List.length_append, length_openTag]
      omega
    · have hbounds := ihc hchild
      simp only [textAt, List.length_append, length_openTag] at hbounds
      omega
    · have hbounds := ihr hrest
      simp only [restAt, textAt, List.length_append, length_openTag, length_closeTag] at hbounds
      omega
  | mark body tail rest ih =>
    have hbounds := ih h
    simp only [print, List.length_append, length_openTag] at hbounds ⊢
    omega

/-- An element with a word of its own is in front of what follows it. -/
theorem textAt_lt_restAt {name attributes text word : List Char} {children : Markup} {k n : Nat}
    (h : wordIn? attributes text children = some (k, word)) (tail : List Char) :
    textAt n name attributes + k < restAt n name attributes text children tail := by
  obtain ⟨-, -, hone⟩ := wordIn?_eq_some h
  obtain ⟨front, back, rfl, rfl, -⟩ := oneWord?_eq_some hone
  simp only [restAt, List.length_append, length_closeTag]
  omega

/-- The places in an element are in front of what follows it. -/
theorem start_lt_restAt {name attributes text : List Char} {children : Markup} {n : Nat}
    {parent : Option Element} {p : Place}
    (h : p ∈ children.places parent (textAt n name attributes + text.length)) (tail : List Char) :
    p.start < restAt n name attributes text children tail := by
  have hbounds := start_mem_places h
  simp only [restAt, length_closeTag]
  omega

/-- Later in the file is further behind. -/
theorem pairwise_places (m : Markup) (parent : Option Element) (n : Nat) :
    (m.places parent n).Pairwise (·.start < ·.start) := by
  induction m generalizing parent n with
  | nil => exact List.Pairwise.nil
  | element name attributes text children tail rest ihc ihr =>
    rw [places, List.pairwise_append, List.pairwise_append]
    refine ⟨⟨?_, ihc _ _, ?_⟩, ihr _ _, ?_⟩
    · cases wordIn? attributes text children <;> simp
    · intro p hp q hq
      simp only [Option.mem_toList, Option.map_eq_some_iff, Prod.exists] at hp
      obtain ⟨k, word, hword, -⟩ := hp
      obtain ⟨-, rfl, -⟩ := wordIn?_eq_some hword
      cases hq
    · intro p hp q hq
      refine Nat.lt_of_lt_of_le ?_ (start_mem_places hq).1
      rcases List.mem_append.mp hp with hown | hchild
      · simp only [Option.mem_toList, Option.map_eq_some_iff, Prod.exists] at hown
        obtain ⟨k, word, hword, rfl⟩ := hown
        exact textAt_lt_restAt hword tail
      · exact start_lt_restAt hchild tail
  | mark body tail rest ih => exact ih _ _

/-! ## Writing -/

section Write

variable {new : List Char} {chosen chosen' : Nat → Bool}

theorem writeText_of_word {attributes text word : List Char} {children : Markup} {i k : Nat}
    (h : wordIn? attributes text children = some (k, word)) :
    writeText new chosen i attributes text children =
      if chosen (i + k) then setWord new text else text := by
  rw [writeText, h]

theorem writeText_of_no_word {attributes text : List Char} {children : Markup} (i : Nat)
    (h : wordIn? attributes text children = none) :
    writeText new chosen i attributes text children = text := by
  rw [writeText, h]

theorem setWord_self {text word : List Char} {k : Nat} (h : oneWord? text = some (k, word)) :
    setWord word text = text := by
  obtain ⟨front, back, rfl, -, hset⟩ := oneWord?_eq_some h
  exact hset word

theorem writeText_congr {attributes text : List Char} {children : Markup} {i : Nat}
    (h : ∀ k word, wordIn? attributes text children = some (k, word) → word ≠ new →
      chosen (i + k) = chosen' (i + k)) :
    writeText new chosen i attributes text children =
      writeText new chosen' i attributes text children := by
  cases hword : wordIn? attributes text children with
  | none => rw [writeText_of_no_word i hword, writeText_of_no_word i hword]
  | some found =>
    rw [writeText_of_word hword, writeText_of_word hword]
    by_cases hnew : found.2 = new
    · rw [← hnew, setWord_self (wordIn?_eq_some hword).2.2, ite_self, ite_self]
    · rw [h _ _ hword hnew]

/-- Only what is chosen of the places with another word matters. -/
theorem write_congr {m : Markup} (parent : Option Element) {n : Nat}
    (h : ∀ p ∈ m.places parent n, p.word ≠ new → chosen p.start = chosen' p.start) :
    m.write new chosen n = m.write new chosen' n := by
  induction m generalizing parent n with
  | nil => rfl
  | element name attributes text children tail rest ihc ihr =>
    simp only [places, List.forall_mem_append] at h
    obtain ⟨⟨hown, hchildren⟩, hrest⟩ := h
    rw [write, write, ihc _ hchildren, ihr _ hrest]
    congr 1
    refine writeText_congr fun k word hword => ?_
    rw [hword] at hown
    exact hown _ (List.mem_singleton_self _)
  | mark body tail rest ih => rw [write, write, ih _ h]

theorem write_none (m : Markup) (n : Nat) : m.write new (fun _ => false) n = m := by
  induction m generalizing n with
  | nil => rfl
  | element name attributes text children tail rest ihc ihr =>
    rw [write, ihc, ihr]
    cases hword : wordIn? attributes text children with
    | none => rw [writeText_of_no_word _ hword]
    | some found => rw [writeText_of_word hword, if_neg Bool.false_ne_true]
  | mark body tail rest ih => rw [write, ih]

theorem write_of_none_chosen {m : Markup} (parent : Option Element) {n : Nat}
    (h : ∀ p ∈ m.places parent n, chosen p.start = false) : m.write new chosen n = m :=
  (write_congr parent fun p hp _ => h p hp).trans (write_none m n)

/-- Choosing one more place, behind which all the others are, replaces its word. -/
theorem exists_write_place {m : Markup} {parent : Option Element} {n : Nat} {p : Place}
    (new : List Char) (hp : p ∈ m.places parent n) (hbefore : ∀ s ≤ p.start, chosen s = false)
    (hat : chosen' p.start = true) (hother : ∀ s, s ≠ p.start → chosen' s = chosen s) :
    ∃ front back, n + front.length = p.start ∧
      (m.write new chosen n).print = front ++ (p.word ++ back) ∧
      (m.write new chosen' n).print = front ++ (new ++ back) := by
  induction m generalizing parent n with
  | nil => cases hp
  | element name attributes text children tail rest ihc ihr =>
    simp only [places, List.mem_append, Option.mem_toList, Option.map_eq_some_iff,
      Prod.exists] at hp
    have hlater (h : p.start < restAt n name attributes text children tail) :
        rest.write new chosen' (restAt n name attributes text children tail) =
          rest.write new chosen (restAt n name attributes text children tail) := by
      refine write_congr parent fun q hq _ => hother _ ?_
      exact Nat.ne_of_gt (Nat.lt_of_lt_of_le h (start_mem_places hq).1)
    obtain (⟨k, word, hword, rfl⟩ | hchild) | hrest := hp
    · have hold := hbefore _ (Nat.le_refl _)
      have hrest := hlater (textAt_lt_restAt hword tail)
      dsimp only at hat hold ⊢
      rw [write, write, writeText_of_word hword, writeText_of_word hword, hold, hat, hrest]
      obtain ⟨rfl, rfl, hone⟩ := wordIn?_eq_some hword
      obtain ⟨front, back, htext, rfl, hset⟩ := oneWord?_eq_some hone
      refine ⟨openTag (name ++ []) ++ front, back ++ (closeTag name ++ (tail ++
        (rest.write new chosen (restAt n name [] text nil tail)).print)), ?_, ?_, ?_⟩
      · rw [List.length_append, ← Nat.add_assoc, textAt]
      · simp only [print, write, Bool.false_eq_true, if_false]
        simp only [htext, List.append_assoc, List.nil_append]
      · simp only [print, write, if_true, hset, List.append_assoc, List.nil_append]
    · have hrest := hlater (start_lt_restAt hchild tail)
      have hword : wordIn? attributes text children = none := by
        cases hword : wordIn? attributes text children with
        | none => rfl
        | some found =>
          obtain ⟨-, rfl, -⟩ := wordIn?_eq_some hword
          cases hchild
      obtain ⟨front, back, hfront, hold, hnew⟩ := ihc hchild
      rw [write, write, writeText_of_no_word _ hword, writeText_of_no_word _ hword, hrest]
      refine ⟨openTag (name ++ attributes) ++ (text ++ front), back ++ (closeTag name ++ (tail ++
        (rest.write new chosen (restAt n name attributes text children tail)).print)), ?_, ?_, ?_⟩
      · simp only [List.length_append, textAt] at hfront ⊢
        omega
      · simp only [print, hold, List.append_assoc]
      · simp only [print, hnew, List.append_assoc]
    · -- all that is chosen lies in the rest
      have hbehind := (start_mem_places hrest).1
      have hfree : ∀ s < p.start, chosen s = false := fun s hs => hbefore s (Nat.le_of_lt hs)
      have hfree' : ∀ s < p.start, chosen' s = false := fun s hs =>
        (hother s (Nat.ne_of_lt hs)).trans (hfree s hs)
      have hkept (c : Nat → Bool) (hc : ∀ s < p.start, c s = false) :
          (element name attributes text children tail rest).write new c n =
            element name attributes text children tail
              (rest.write new c (restAt n name attributes text children tail)) := by
        rw [write, write_of_none_chosen none fun q hq =>
          hc _ (Nat.lt_of_lt_of_le (start_lt_restAt hq tail) hbehind)]
        cases hword : wordIn? attributes text children with
        | none => rw [writeText_of_no_word _ hword]
        | some found =>
          rw [writeText_of_word hword, hc _ (Nat.lt_of_lt_of_le (textAt_lt_restAt hword tail) hbehind),
            if_neg Bool.false_ne_true]
      obtain ⟨front, back, hfront, hold, hnew⟩ := ihr hrest
      rw [hkept chosen hfree, hkept chosen' hfree']
      refine ⟨openTag (name ++ attributes) ++ (text ++ (children.print ++ (closeTag name ++
        (tail ++ front)))), back, ?_, ?_, ?_⟩
      · simp only [restAt, textAt, List.length_append] at hfront ⊢
        omega
      · simp only [print, hold, List.append_assoc]
      · simp only [print, hnew, List.append_assoc]
  | mark body tail rest ih =>
    obtain ⟨front, back, hfront, hold, hnew⟩ := ih hp
    refine ⟨openTag body ++ (tail ++ front), back, ?_, ?_, ?_⟩
    · simp only [List.length_append] at hfront ⊢
      omega
    · rw [write, print, hold]
      simp only [List.append_assoc]
    · rw [write, print, hnew]
      simp only [List.append_assoc]

end Write

/-! ## Reading back -/

/-- A text that is at its end or at a tag. -/
def AtTag (r : List Char) : Prop := r.head?.all (· == '<')

theorem not_mem_of_all_isPlain {text : List Char} (h : text.all isPlain) :
    '<' ∉ text ∧ '>' ∉ text := by
  constructor <;> intro hmem <;> exact absurd (List.all_eq_true.mp h _ hmem) (by decide)

theorem atTag_closeTag (name r : List Char) : AtTag (closeTag name ++ r) := rfl

theorem atTag_print_append (m : Markup) {r : List Char} (hr : AtTag r) : AtTag (m.print ++ r) := by
  cases m with
  | nil => exact hr
  | element | mark => rfl

/-- Text up to the next tag is cut off in one way. -/
theorem text_append_inj {s t r r' : List Char} (hs : '<' ∉ s) (ht : '<' ∉ t) (hr : AtTag r)
    (hr' : AtTag r') (h : s ++ r = t ++ r') : s = t ∧ r = r' := by
  have htext : ∀ {u v : List Char}, '<' ∉ u → AtTag v → (u ++ v).takeWhile (· != '<') = u := by
    intro u v hu hv
    have hpos : ∀ c ∈ u, (c != '<') = true := fun c hc => by
      rw [bne_iff_ne]
      rintro rfl
      exact hu hc
    rw [List.takeWhile_append_of_pos hpos]
    cases v with
    | nil => exact List.append_nil u
    | cons c v =>
      obtain rfl : c = '<' := by simpa [AtTag] using hv
      exact List.append_nil u
  have hst : s = t := by rw [← htext hs hr, h, htext ht hr']
  subst hst
  exact ⟨rfl, List.append_cancel_left h⟩

theorem not_mem_setWord {new text : List Char} {c : Char} (hnew : c ∉ new) (htext : c ∉ text) :
    c ∉ setWord new text := by
  simp only [setWord, List.mem_append, not_or]
  exact ⟨⟨fun h => htext ((List.takeWhile_sublist _).mem h), hnew⟩,
    fun h => htext ((List.dropWhile_sublist _).mem ((List.dropWhile_sublist _).mem h))⟩

theorem not_mem_writeText {new : List Char} {chosen : Nat → Bool} {i : Nat}
    {attributes text : List Char} {children : Markup} (hnew : '<' ∉ new) (htext : '<' ∉ text) :
    '<' ∉ writeText new chosen i attributes text children := by
  unfold writeText
  split
  · split
    · exact not_mem_setWord hnew htext
    · exact htext
  · exact htext

/-- What is printed tells at which places the word was changed. -/
theorem chosen_of_print_eq {new : List Char} {chosen chosen' : Nat → Bool} {m : Markup}
    {inside : Bool} {parent : Option Element} {n : Nat} {r r' : List Char} (hnew : '<' ∉ new)
    (hm : m.isWellFormed inside) (hr : AtTag r) (hr' : AtTag r')
    (h : (m.write new chosen n).print ++ r = (m.write new chosen' n).print ++ r') :
    r = r' ∧ ∀ p ∈ m.places parent n, p.word ≠ new → chosen p.start = chosen' p.start := by
  induction m generalizing inside parent n r r' with
  | nil => exact ⟨h, fun _ hp => nomatch hp⟩
  | element name attributes text children tail rest ihc ihr =>
    simp only [isWellFormed, Bool.and_eq_true] at hm
    obtain ⟨⟨⟨⟨⟨⟨-, -⟩, htext⟩, -⟩, -⟩, hchildren⟩, hrest⟩ := hm
    have hplain := (not_mem_of_all_isPlain htext).1
    simp only [write, print, List.append_assoc] at h
    obtain ⟨hown, h⟩ := text_append_inj (not_mem_writeText hnew hplain)
      (not_mem_writeText hnew hplain) (atTag_print_append _ (atTag_closeTag _ _))
      (atTag_print_append _ (atTag_closeTag _ _)) (List.append_cancel_left h)
    obtain ⟨h, hchildren⟩ := ihc hchildren (atTag_closeTag _ _) (atTag_closeTag _ _) h
    obtain ⟨h, hrest⟩ := ihr hrest hr hr' (List.append_cancel_left (List.append_cancel_left h))
    refine ⟨h, ?_⟩
    simp only [places, List.forall_mem_append]
    refine ⟨⟨?_, hchildren⟩, hrest⟩
    intro p hp hne
    simp only [Option.mem_toList, Option.map_eq_some_iff, Prod.exists] at hp
    obtain ⟨k, word, hword, rfl⟩ := hp
    rw [writeText_of_word hword, writeText_of_word hword] at hown
    obtain ⟨-, -, hone⟩ := wordIn?_eq_some hword
    obtain ⟨front, back, htext, rfl, hset⟩ := oneWord?_eq_some hone
    have hchanged : text ≠ setWord new text := by
      rw [hset, htext]
      intro hsame
      exact hne (List.append_cancel_right (List.append_cancel_left hsame))
    dsimp only
    cases hc : chosen (textAt n name attributes + front.length) <;>
      cases hc' : chosen' (textAt n name attributes + front.length) <;>
      simp [hc, hc', hchanged, hchanged.symm] at hown ⊢
  | mark body tail rest ih =>
    simp only [isWellFormed, Bool.and_eq_true] at hm
    simp only [write, print, List.append_assoc] at h
    exact ih hm.2 hr hr' (List.append_cancel_left (List.append_cancel_left h))

end Markup

end JavaMigration.Dependency
