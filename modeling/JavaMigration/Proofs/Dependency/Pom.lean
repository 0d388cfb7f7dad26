import JavaMigration.Proofs.Dependency.Searching

/-!
# Maven files

A whole file, what its versions are, which places the searches take for them, and that raising
what they find is writing at those places.
-/

namespace JavaMigration.Dependency

open Text Markup

/-- A Maven file: the text in front of its first tag, and its elements. -/
structure Pom where
  front : List Char
  markup : Markup
  deriving DecidableEq, Repr, Inhabited

def versionName : List Char := "version".toList

def groupName : List Char := "groupId".toList

def artifactName : List Char := "artifactId".toList

def propertiesName : List Char := "properties".toList

namespace Markup

/-- Whether an element of a given value is among some elements, not within them. -/
def holds (name value : List Char) : Markup → Bool
  | nil => false
  | element x attributes text children _ rest =>
    (x == name && attributes == [] && children == nil && textIs value text) ||
      rest.holds name value
  | mark _ _ rest => rest.holds name value

end Markup

namespace Element

/-- The places in an element at position `n`. -/
def places (n : Nat) (e : Element) : List Place :=
  e.children.places (some e) (textAt n e.name e.attributes + e.text.length)

/-- Whether an element has the coordinates of a dependency. -/
def isOn (group artifact : List Char) (e : Element) : Bool :=
  e.children.holds groupName group && e.children.holds artifactName artifact

/-- Whether the coordinates of a dependency are anywhere in an element. -/
def mentions (group artifact : List Char) (e : Element) : Bool :=
  e.children.mentions groupName group && e.children.mentions artifactName artifact

end Element

theorem Markup.mentions_of_holds {m : Markup} {name value : List Char} (h : m.holds name value) :
    m.mentions name value := by
  induction m with
  | nil => exact h
  | element x attributes text children tail rest _ ihr =>
    rw [Markup.holds, Bool.or_eq_true] at h
    rw [Markup.mentions, Bool.or_eq_true, Bool.or_eq_true]
    exact h.imp .inl ihr
  | mark body tail rest ih => exact ih h

theorem Element.mentions_of_isOn {group artifact : List Char} (e : Element)
    (h : e.isOn group artifact) : e.mentions group artifact := by
  rw [isOn, Bool.and_eq_true] at h
  rw [Element.mentions, mentions_of_holds h.1, mentions_of_holds h.2, Bool.and_self]

namespace Pom

def print (pom : Pom) : List Char := pom.front ++ pom.markup.print

def isWellFormed (pom : Pom) : Bool :=
  pom.front.all isPlain && pom.markup.isWellFormed false

def places (pom : Pom) : List Place := pom.markup.places none pom.front.length

def dependencies (pom : Pom) : List (Nat × Element) := pom.markup.dependencies pom.front.length

/-- The file with a new word at the chosen places. -/
def write (new : List Char) (chosen : Nat → Bool) (pom : Pom) : Pom :=
  { pom with markup := pom.markup.write new chosen pom.front.length }

theorem write_congr {new : List Char} {chosen chosen' : Nat → Bool} {pom : Pom}
    (h : ∀ p ∈ pom.places, p.word ≠ new → chosen p.start = chosen' p.start) :
    pom.write new chosen = pom.write new chosen' := by
  rw [write, write, Markup.write_congr none h]

/-! ## Versions -/

/-- The versions of a dependency: in each element with its coordinates the first `version`
of its own. -/
def versions (group artifact : List Char) (pom : Pom) : List Place :=
  pom.dependencies.filterMap fun (n, e) =>
    if e.isOn group artifact then
      (e.places n).find? fun p => p.name == versionName && p.parent == some e
    else none

/-- What is taken for the versions of a dependency: in each `dependency` that mentions its
coordinates the first `version` at any depth. -/
def candidates (group artifact : List Char) (pom : Pom) : List Place :=
  pom.dependencies.filterMap fun (n, e) =>
    if e.mentions group artifact then (e.places n).find? (·.name == versionName) else none

/-- The first place of a name. -/
def first? (name : List Char) (pom : Pom) : Option Place := pom.places.find? (·.name == name)

/-- The place at which a version is written down: where the property it names is, or else its
own. -/
def deciding? (pom : Pom) (v : Place) : Option Place :=
  match propertyName? v.word with
  | some property => pom.first? property
  | none => some v

/-- The places whose words are compared and raised. -/
def found (group artifact : List Char) (pom : Pom) : List Place :=
  (pom.candidates group artifact).filterMap pom.deciding?

end Pom

/-! ## Words of places -/

theorem word_subset {text word : List Char} {k : Nat} (h : oneWord? text = some (k, word)) :
    word ⊆ text := by
  obtain ⟨front, back, rfl, -⟩ := oneWord?_eq_some h
  intro c hc
  exact List.mem_append_right _ (List.mem_append_left _ hc)

namespace Markup

theorem word_all_isPlain {m : Markup} {inside : Bool} {parent : Option Element} {n : Nat}
    {p : Place} (hm : m.isWellFormed inside) (hp : p ∈ m.places parent n) :
    p.word.all isPlain := by
  induction m generalizing inside parent n with
  | nil => cases hp
  | element name attributes text children tail rest ihc ihr =>
    simp only [isWellFormed, Bool.and_eq_true] at hm
    obtain ⟨⟨⟨⟨⟨⟨-, -⟩, htext⟩, -⟩, -⟩, hchildren⟩, hrest⟩ := hm
    simp only [places, List.mem_append, Option.mem_toList, Option.map_eq_some_iff,
      Prod.exists] at hp
    obtain (⟨k, word, hword, rfl⟩ | hchild) | hrest' := hp
    · obtain ⟨-, -, hone⟩ := wordIn?_eq_some hword
      rw [List.all_eq_true] at htext ⊢
      exact fun c hc => htext c (word_subset hone hc)
    · exact ihc hchildren hchild
    · exact ihr hrest hrest'
  | mark body tail rest ih =>
    simp only [isWellFormed, Bool.and_eq_true] at hm
    exact ih hm.2 hp

/-- The element around a place in a dependency is that dependency or none. -/
theorem parent_of_mem_places {m : Markup} {parent : Option Element} {n : Nat} {p : Place}
    (hm : m.isWellFormed true) (hp : p ∈ m.places parent n) :
    p.parent = parent ∨ ∃ e, p.parent = some e ∧ e.name ≠ dependencyName := by
  induction m generalizing parent n with
  | nil => cases hp
  | element name attributes text children tail rest ihc ihr =>
    simp only [isWellFormed, Bool.true_and, Bool.true_or, Bool.and_eq_true, Bool.not_eq_true',
      beq_eq_false_iff_ne] at hm
    obtain ⟨⟨⟨-, hname⟩, hchildren⟩, hrest⟩ := hm
    simp only [places, List.mem_append, Option.mem_toList, Option.map_eq_some_iff,
      Prod.exists] at hp
    obtain (⟨k, word, -, rfl⟩ | hchild) | hbehind := hp
    · exact .inl rfl
    · rcases ihc hchildren hchild with h | h
      · exact .inr ⟨_, h, hname⟩
      · exact .inr h
    · exact ihr hrest hbehind
  | mark body tail rest ih =>
    simp only [isWellFormed, Bool.and_eq_true] at hm
    exact ih hm.2 hp

/-- A dependency of a well-formed file has the form of one, and its places are places of the
file. -/
theorem of_mem_dependencies {m : Markup} {inside : Bool} (parent : Option Element) {n k : Nat}
    {e : Element} (hm : m.isWellFormed inside) (he : (k, e) ∈ m.dependencies n) :
    e.name = dependencyName ∧ e.attributes = [] ∧ e.text.all isPlain ∧
      e.children.isWellFormed true ∧ ∀ p ∈ e.places k, p ∈ m.places parent n := by
  induction m generalizing inside parent n with
  | nil => cases he
  | element name attributes text children tail rest ihc ihr =>
    simp only [isWellFormed, Bool.and_eq_true] at hm
    obtain ⟨⟨⟨⟨⟨⟨-, -⟩, htext⟩, -⟩, -⟩, hchildren⟩, hrest⟩ := hm
    simp only [dependencies, List.mem_append] at he
    simp only [places, List.mem_append]
    obtain (hown | hchild) | hbehind := he
    · split at hown
      · next hform =>
        obtain ⟨rfl, rfl⟩ := hform
        obtain ⟨rfl, rfl⟩ := Prod.mk.inj (List.mem_singleton.mp hown)
        rw [beq_self_eq_true, Bool.or_true] at hchildren
        exact ⟨rfl, rfl, htext, hchildren, fun p hp => .inl (.inr hp)⟩
      · cases hown
    · obtain ⟨hname, hattributes, htext, hform, hplaces⟩ :=
        ihc (some ⟨name, attributes, text, children⟩) hchildren hchild
      exact ⟨hname, hattributes, htext, hform, fun p hp => .inl (.inr (hplaces p hp))⟩
    · obtain ⟨hname, hattributes, htext, hform, hplaces⟩ := ihr parent hrest hbehind
      exact ⟨hname, hattributes, htext, hform, fun p hp => .inr (hplaces p hp)⟩
  | mark body tail rest ih =>
    simp only [isWellFormed, Bool.and_eq_true] at hm
    exact ih parent hm.2 he

end Markup

theorem propertyName?_eq_some_iff {version property : List Char} :
    propertyName? version = some property ↔ version = ['$', '\x7b'] ++ (property ++ ['\x7d']) := by
  simp only [propertyName?, Option.bind_eq_bind, Option.bind_eq_some_iff, dropStart?_eq_some_iff,
    dropEnd?, Option.map_eq_some_iff]
  constructor
  · rintro ⟨r, rfl, s, h, rfl⟩
    rw [← List.reverse_reverse r, h, List.reverse_append]
    rfl
  · rintro rfl
    exact ⟨_, rfl, property.reverse, by simp, List.reverse_reverse property⟩

/-! ## What is found -/

theorem wordFrom?_nil (name : List Char) (n : Nat) : wordFrom? name n [] = none := by
  have hnone : elementWord? name [] = none :=
    (seesTags_elementWord? name).eq_none fun h => nomatch h
  rw [wordFrom?, findFirst, hnone]
  rfl

theorem findAny_elementIs_nil (name value : List Char) : findAny (elementIs name value) [] = false := by
  have hnone : elementIs name value [] = none :=
    (seesTags_elementIs name value).eq_none fun h => nomatch h
  rw [findAny, findFirst, hnone]
  rfl

namespace Element

/-- An element on its own. -/
def markup (e : Element) : Markup := element e.name e.attributes e.text e.children [] nil

theorem print_eq (e : Element) : e.print = e.markup.print ++ [] := by
  simp only [Element.print, markup, Markup.print, List.append_nil]

variable {e : Element}

theorem isWellFormed_markup (hname : e.name = dependencyName) (hattributes : e.attributes = [])
    (htext : e.text.all isPlain) (hchildren : e.children.isWellFormed true) :
    e.markup.isWellFormed false := by
  have hdependency : isName dependencyName := by decide
  simp only [markup, isWellFormed, hname, hattributes, htext, hchildren, hdependency,
    beq_self_eq_true, Bool.or_true, Bool.not_false, Bool.and_true]
  rfl

/-- The first word of another name in an element is at the first place in it. -/
theorem wordFrom?_print {name : List Char} (n : Nat) (hm : e.markup.isWellFormed false)
    (hname : '>' ∉ name) (hother : e.name ≠ name) :
    wordFrom? name n e.print = ((e.places n).find? (·.name == name)).map Place.spot := by
  rw [print_eq, Dependency.wordFrom?_print none n hm (.inl rfl) hname, wordFrom?_nil, Option.or_none,
    markup, Markup.places, Markup.places, List.append_nil, List.find?_append]
  cases wordIn? e.attributes e.text e.children with
  | none => rfl
  | some own =>
    rw [Option.map_some, Option.toList_some, List.find?_cons_of_neg (by simp [hother])]
    rfl

theorem findAny_elementIs_print {name value : List Char} (hm : e.markup.isWellFormed false)
    (hname : '>' ∉ name) (hother : e.name ≠ name) (hvalue : '<' ∉ value) :
    findAny (elementIs name value) e.print = e.children.mentions name value := by
  rw [print_eq, Dependency.findAny_elementIs_print hm (.inl rfl) hname hvalue,
    findAny_elementIs_nil, Bool.or_false, markup, Markup.mentions, beq_eq_false_iff_ne.mpr hother]
  simp only [Bool.false_and, Bool.false_or, Markup.mentions, Bool.or_false]

end Element

namespace Pom

variable {pom : Pom} {group artifact : List Char}

theorem firstWord?_print {name : List Char} (hpom : pom.isWellFormed) (hname : '>' ∉ name) :
    firstWord? name pom.print = (pom.first? name).map Place.spot := by
  rw [isWellFormed, Bool.and_eq_true] at hpom
  have hfront : wordFrom? name 0 (pom.front ++ (pom.markup.print ++ [])) =
      wordFrom? name (0 + pom.front.length) (pom.markup.print ++ []) := by
    rw [wordFrom?, findFirst_text (seesTags_elementWord? name) 0 (not_mem_of_all_isPlain hpom.1).1]
    rfl
  rw [← wordFrom?_zero, print, ← List.append_nil pom.markup.print, hfront, Nat.zero_add,
    wordFrom?_print none _ hpom.2 (.inl rfl) hname, wordFrom?_nil, Option.or_none]
  rfl

theorem findAll_dependencyElement?_print (hpom : pom.isWellFormed) :
    findAll dependencyElement? 0 0 pom.print = pom.dependencies.map fun (n, e) => (n, e.print) := by
  rw [isWellFormed, Bool.and_eq_true] at hpom
  rw [print, findAll_text seesTags_dependencyElement? 0 (not_mem_of_all_isPlain hpom.1).1,
    ← List.append_nil pom.markup.print, findAll_dependencyElement? _ _ hpom.2, findAll,
    List.append_nil, Nat.zero_add]
  rfl

theorem property_not_mem {m : Markup} {inside : Bool} {parent : Option Element} {n : Nat} {v : Place}
    {property : List Char} (hm : m.isWellFormed inside) (hv : v ∈ m.places parent n)
    (h : propertyName? v.word = some property) : '>' ∉ property := by
  have hplain := (not_mem_of_all_isPlain (word_all_isPlain hm hv)).2
  rw [propertyName?_eq_some_iff.mp h] at hplain
  exact fun hmem => hplain (List.mem_append_right _ (List.mem_append_left _ hmem))

theorem mavenSpot?_eq (group artifact content : List Char) (n : Nat) (s : List Char) :
    mavenSpot? group artifact content n s =
      if findAny (elementIs groupName group) s && findAny (elementIs artifactName artifact) s then
        (firstWord? versionName s).bind fun own =>
          match propertyName? own.version with
          | some property => firstWord? property content
          | none => some { own with start := n + own.start }
      else none := rfl

theorem mavenSpot?_print (hpom : pom.isWellFormed) (hgroup : '<' ∉ group)
    (hartifact : '<' ∉ artifact) {n : Nat} {e : Element} (he : (n, e) ∈ pom.dependencies) :
    mavenSpot? group artifact pom.print n e.print =
      ((if e.mentions group artifact then (e.places n).find? (·.name == versionName) else none).bind
        pom.deciding?).map Place.spot := by
  have hmarkup : pom.markup.isWellFormed false := by
    rw [isWellFormed, Bool.and_eq_true] at hpom
    exact hpom.2
  obtain ⟨hname, hattributes, htext, hchildren, hplaces⟩ := of_mem_dependencies none hmarkup he
  have hm := Element.isWellFormed_markup hname hattributes htext hchildren
  have hmentions : (findAny (elementIs groupName group) e.print &&
      findAny (elementIs artifactName artifact) e.print) = e.mentions group artifact := by
    rw [Element.findAny_elementIs_print hm (by decide) (by rw [hname]; decide) hgroup,
      Element.findAny_elementIs_print hm (by decide) (by rw [hname]; decide) hartifact]
    rfl
  have hown : wordFrom? versionName n e.print =
      ((e.places n).find? (·.name == versionName)).map Place.spot :=
    Element.wordFrom?_print n hm (by decide) (by rw [hname]; decide)
  rw [wordFrom?_eq] at hown
  rw [mavenSpot?_eq, hmentions]
  by_cases hmentioned : e.mentions group artifact
  · rw [if_pos hmentioned, if_pos hmentioned]
    cases hfirst : (e.places n).find? (·.name == versionName) with
    | none =>
      rw [hfirst, Option.map_none, Option.map_eq_none_iff] at hown
      rw [hown]
      rfl
    | some v =>
      rw [hfirst, Option.map_some, Option.map_eq_some_iff] at hown
      obtain ⟨own, hown, hspot⟩ := hown
      have hword : own.version = v.word := congrArg VersionSpot.version hspot
      have hv : v ∈ pom.markup.places none pom.front.length := hplaces v (List.mem_of_find?_eq_some hfirst)
      rw [hown, Option.bind_some, Option.bind_some, deciding?]
      rw [hword]
      cases hproperty : propertyName? v.word with
      | some property =>
        exact firstWord?_print hpom (property_not_mem hmarkup hv hproperty)
      | none => exact congrArg some (by rw [← hspot, hword])
  · rw [if_neg hmentioned, if_neg hmentioned]
    rfl

theorem mavenSpots_print (hpom : pom.isWellFormed) (hgroup : '<' ∉ group)
    (hartifact : '<' ∉ artifact) :
    mavenSpots group artifact pom.print =
      ((pom.found group artifact).map Place.spot).foldl (fun found v => insertSpot v found) [] := by
  have hspots : pom.dependencies.filterMap
      (fun found => mavenSpot? group artifact pom.print found.1 found.2.print) =
      (pom.found group artifact).map Place.spot := by
    rw [found, candidates, List.filterMap_filterMap, List.map_filterMap]
    refine List.filterMap_congr fun found hfound => ?_
    exact mavenSpot?_print hpom hgroup hartifact hfound
  rw [mavenSpots, findAll_dependencyElement?_print hpom, List.filterMap_map, ← hspots]
  rfl

end Pom

end JavaMigration.Dependency
