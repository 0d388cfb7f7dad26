import JavaMigration.Proofs.Dependency.Rewording

/-!
# Any text as a Maven file

A text that need not be well-formed, cut at its opening brackets. What the searches find in it can be
told from the tags that the stretches begin with and the texts behind them: a search looks at one tag
and at which tag is next.
-/

namespace JavaMigration.Dependency

open Text Markup Stretch

def isOpening (c : Char) : Bool := c == '<'

namespace Stretch

variable {s : Stretch isOpening} {name body text r : List Char}

/-- What stands in the brackets of the tag that a stretch is, with the text behind it. -/
def tag? (s : Stretch isOpening) : Option (List Char × List Char) := cutFirst '>' s.text

def body? (s : Stretch isOpening) : Option (List Char) := s.tag?.map Prod.fst

theorem not_mem_text (s : Stretch isOpening) : '<' ∉ s.text := fun h =>
  Bool.false_ne_true (s.text_spec _ h).symm

theorem print_eq (s : Stretch isOpening) : s.print = '<' :: s.text := by
  rw [print, beq_iff_eq.mp s.mark_spec]

theorem atTag_printAll (ss : List (Stretch isOpening)) : AtTag (printAll ss) := head?_printAll ss

theorem tag?_eq_some_iff : s.tag? = some (body, text) ↔ s.text = body ++ '>' :: text ∧ '>' ∉ body :=
  ⟨fun h => ⟨cutFirst_eq h, not_mem_front h⟩, fun h => by rw [tag?, h.1, cutFirst_append h.2]⟩

theorem tag_spec (h : s.tag? = some (body, text)) :
    s.print = openTag body ++ text ∧ '<' ∉ body ∧ '>' ∉ body ∧ '<' ∉ text := by
  obtain ⟨htext, hgt⟩ := tag?_eq_some_iff.mp h
  have hfree := s.not_mem_text
  rw [htext, List.mem_append, List.mem_cons, not_or, not_or] at hfree
  refine ⟨?_, hfree.1, hgt, hfree.2.2⟩
  rw [print_eq, htext, openTag, List.cons_append, List.cons_append, List.append_assoc]
  rfl

theorem body?_eq_some_iff : s.body? = some body ↔ ∃ text, s.tag? = some (body, text) := by
  simp [body?]

/-- A start tag is in front of what is behind it. -/
theorem dropStart?_openTag_print (hlt : '<' ∉ name) (hgt : '>' ∉ name) (hr : AtTag r) :
    dropStart? (openTag name) (s.print ++ r) =
      (s.tag?.bind fun (body, text) => if body = name then some text else none).map (· ++ r) := by
  have hplain : ∀ c ∈ name ++ ['>'], isOpening c = false := by
    intro c hc
    rw [isOpening, beq_eq_false_iff_ne]
    rintro rfl
    exact hlt ((List.mem_append.mp hc).resolve_right (by decide))
  have hstep : dropStart? (openTag name) (s.print ++ r) = dropStart? (name ++ ['>']) (s.text ++ r) := by
    rw [print_eq]
    rfl
  rw [hstep, dropStart?_append_of_marks s.text hplain hr]
  congr 1
  ext text
  rw [dropStart?_eq_some_iff, List.append_assoc, Option.bind_eq_some_iff]
  constructor
  · intro h
    exact ⟨(name, text), tag?_eq_some_iff.mpr ⟨h, hgt⟩, if_pos rfl⟩
  · rintro ⟨⟨body, text'⟩, htag, h⟩
    obtain ⟨rfl, heq⟩ := Option.ite_none_right_eq_some.mp h
    obtain rfl := Option.some.inj heq
    exact (tag?_eq_some_iff.mp htag).1

theorem dropStart?_openTag_of_ne (hlt : '<' ∉ name) (hgt : '>' ∉ name) (hr : AtTag r)
    (h : s.body? ≠ some name) : dropStart? (openTag name) (s.print ++ r) = none := by
  rw [dropStart?_openTag_print hlt hgt hr, Option.map_eq_none_iff, Option.bind_eq_none_iff]
  rintro ⟨body, text⟩ htag
  refine if_neg ?_
  rintro rfl
  exact h (body?_eq_some_iff.mpr ⟨text, htag⟩)

/-- Whether the first of some stretches is a tag of a given body. -/
def begins (body : List Char) (ss : List (Stretch isOpening)) : Bool :=
  ss.head?.any (·.body? == some body)

theorem isSome_dropStart?_openTag (hlt : '<' ∉ name) (hgt : '>' ∉ name)
    (ss : List (Stretch isOpening)) :
    (dropStart? (openTag name) (printAll ss)).isSome = begins name ss := by
  cases ss with
  | nil => rfl
  | cons s r =>
    rw [printAll_cons, dropStart?_openTag_print hlt hgt (atTag_printAll r), Option.isSome_map, begins,
      List.head?_cons, Option.any_some, body?]
    cases s.tag? with
    | none => rfl
    | some tag =>
      rw [Option.bind_some, Option.map_some]
      by_cases hname : tag.1 = name
      · simp [hname]
      · simp [hname]

theorem isSome_dropStart?_closeTag (hlt : '<' ∉ name) (hgt : '>' ∉ name)
    (ss : List (Stretch isOpening)) :
    (dropStart? (closeTag name) (printAll ss)).isSome = begins ('/' :: name) ss :=
  isSome_dropStart?_openTag (by simp [hlt]) (not_mem_slash hgt) ss

/-! ## Searching -/

section Search

variable {α : Type}

theorem findFirst_print {f : List Char → Option α} (hf : SeesTags f) (n : Nat)
    (s : Stretch isOpening) (r : List Char) :
    findFirst f n (s.print ++ r) =
      ((f (s.print ++ r)).map (n, ·)).or (findFirst f (n + s.print.length) r) := by
  rw [print_eq, List.cons_append, findFirst_bracket hf n s.not_mem_text, List.length_cons,
    Nat.add_assoc, Nat.add_comm 1]

theorem findAny_print {f : List Char → Option α} (hf : SeesTags f) (s : Stretch isOpening)
    (r : List Char) : findAny f (s.print ++ r) = ((f (s.print ++ r)).isSome || findAny f r) := by
  rw [findAny_eq f 0, findFirst_print hf 0, Option.isSome_or, ← findAny_eq, Option.isSome_map]

theorem findAll_print {f : List Char → Option (Nat × α)} (hf : SeesTags f) (n : Nat)
    (s : Stretch isOpening) {r : List Char} (h : f (s.print ++ r) = none) :
    findAll f 0 n (s.print ++ r) = findAll f 0 (n + s.print.length) r := by
  rw [print_eq, List.cons_append] at h ⊢
  rw [findAll_bracket hf n s.not_mem_text h, List.length_cons, Nat.add_assoc, Nat.add_comm 1]

end Search

/-! ## Words -/

/-- The one word of the text behind a tag. -/
def tagWord? (s : Stretch isOpening) : Option (Nat × List Char) :=
  s.tag?.bind fun (body, text) =>
    (oneWord? text).map fun (k, word) => ((openTag body).length + k, word)

/-- The word of the first element of a name that holds one, in stretches that begin at position
`n`. -/
def firstWordIn? (name : List Char) (n : Nat) : List (Stretch isOpening) → Option VersionSpot
  | [] => none
  | s :: r =>
    (if s.body? = some name ∧ begins ('/' :: name) r then
        s.tagWord?.map fun (k, word) => ⟨n + k, word⟩
      else none).or (firstWordIn? name (n + s.print.length) r)

theorem elementWord?_print (hlt : '<' ∉ name) (hgt : '>' ∉ name) (s : Stretch isOpening)
    (r : List (Stretch isOpening)) :
    elementWord? name (s.print ++ printAll r) =
      if s.body? = some name ∧ begins ('/' :: name) r then
        s.tagWord?.map fun (k, word) => ⟨k, word⟩
      else none := by
  have hr := atTag_printAll r
  by_cases hname : s.body? = some name
  · obtain ⟨text, htag⟩ := body?_eq_some_iff.mp hname
    obtain ⟨hprint, -, -, htext⟩ := tag_spec htag
    rw [hprint, List.append_assoc, elementWord?_tag hgt hgt htext hr,
      isSome_dropStart?_closeTag hlt hgt, tagWord?, htag, Option.bind_some, Option.map_map]
    simp only [hname, true_and]
    rfl
  · rw [if_neg fun h => hname h.1]
    exact (seesTag_elementWord? name).eq_none (dropStart?_openTag_of_ne hlt hgt hr hname)

theorem wordFrom?_printAll (hlt : '<' ∉ name) (hgt : '>' ∉ name) (n : Nat)
    (ss : List (Stretch isOpening)) : wordFrom? name n (printAll ss) = firstWordIn? name n ss := by
  induction ss generalizing n with
  | nil => exact wordFrom?_nil name n
  | cons s r ih =>
    have hrest := ih (n + s.print.length)
    rw [wordFrom?] at hrest
    rw [printAll_cons, wordFrom?, findFirst_print (seesTags_elementWord? name) n,
      elementWord?_print hlt hgt, Option.map_or, hrest, firstWordIn?, Option.map_map]
    congr 1
    split
    · rw [Option.map_map]
      rfl
    · rfl

/-! ## Values -/

/-- Whether an element of a given value is among some stretches. -/
def mentionsIn (name value : List Char) : List (Stretch isOpening) → Bool
  | [] => false
  | s :: r =>
    (s.tag?.any fun (body, text) => body == name && textIs value text && begins ('/' :: name) r) ||
      mentionsIn name value r

theorem isSome_elementIs_print {value : List Char} (hlt : '<' ∉ name) (hgt : '>' ∉ name)
    (hvalue : '<' ∉ value) (s : Stretch isOpening) (r : List (Stretch isOpening)) :
    (elementIs name value (s.print ++ printAll r)).isSome =
      s.tag?.any fun (body, text) => body == name && textIs value text && begins ('/' :: name) r := by
  have hr := atTag_printAll r
  cases htag : s.tag? with
  | none =>
    have hname : s.body? ≠ some name := by rw [body?, htag]; exact fun h => nomatch h
    rw [(seesTag_elementIs name value).eq_none (dropStart?_openTag_of_ne hlt hgt hr hname)]
    rfl
  | some tag =>
    obtain ⟨body, text⟩ := tag
    obtain ⟨hprint, -, hbody, htext⟩ := tag_spec htag
    rw [hprint, List.append_assoc, Bool.eq_iff_iff, isSome_elementIs_tag hgt hbody hvalue htext hr,
      Option.any_some, ← isSome_dropStart?_closeTag hlt hgt]
    simp only [Bool.and_eq_true, beq_iff_eq, Option.isSome_iff_exists, dropStart?_eq_some_iff,
      and_assoc]

theorem findAny_elementIs_printAll {value : List Char} (hlt : '<' ∉ name) (hgt : '>' ∉ name)
    (hvalue : '<' ∉ value) (ss : List (Stretch isOpening)) :
    findAny (elementIs name value) (printAll ss) = mentionsIn name value ss := by
  induction ss with
  | nil => exact findAny_elementIs_nil name value
  | cons s r ih =>
    rw [printAll_cons, findAny_print (seesTags_elementIs name value), ih,
      isSome_elementIs_print hlt hgt hvalue, mentionsIn]

/-! ## Dependencies -/

def endTag : Stretch isOpening where
  mark := '<'
  text := '/' :: dependencyName ++ ['>']
  mark_spec := rfl
  text_spec := by
    have hall : ('/' :: dependencyName ++ ['>']).all (!isOpening ·) := by decide
    intro c hc
    simpa using List.all_eq_true.mp hall c hc

/-- Stretches up to the first end tag of a dependency, that one without the text behind it. -/
def upToEnd? : List (Stretch isOpening) → Option (List (Stretch isOpening))
  | [] => none
  | s :: r =>
    if s.body? = some ('/' :: dependencyName) then some [endTag] else (upToEnd? r).map (s :: ·)

/-- The dependency that some stretches begin with. -/
def block? : List (Stretch isOpening) → Option (List (Stretch isOpening))
  | [] => none
  | s :: r => if s.body? = some dependencyName then (upToEnd? r).map (s :: ·) else none

/-- The dependencies in stretches that begin at position `n`, with their positions. The first number
counts the stretches of the current dependency that are still to be passed over. -/
def blocks : Nat → Nat → List (Stretch isOpening) → List (Nat × List (Stretch isOpening))
  | _, _, [] => []
  | skip + 1, n, s :: r => blocks skip (n + s.print.length) r
  | 0, n, s :: r =>
    match block? (s :: r) with
    | some b => (n, b) :: blocks (b.length - 1) (n + s.print.length) r
    | none => blocks 0 (n + s.print.length) r

theorem upTo_closeTag_printAll (ss : List (Stretch isOpening)) :
    (upTo (closeTag dependencyName) (printAll ss)).map (· ++ closeTag dependencyName) =
      (upToEnd? ss).map printAll := by
  induction ss with
  | nil => rfl
  | cons s r ih =>
    have hlt : '<' ∉ '/' :: dependencyName := by decide
    have hgt : '>' ∉ '/' :: dependencyName := by decide
    rw [upToEnd?, printAll_cons]
    by_cases hend : s.body? = some ('/' :: dependencyName)
    · obtain ⟨text, htag⟩ := body?_eq_some_iff.mp hend
      rw [if_pos hend, (tag_spec htag).1, ← closeTag_eq, List.append_assoc, upTo_closeTag_self]
      rfl
    · have hother := dropStart?_openTag_of_ne hlt hgt (atTag_printAll r) hend
      rw [← closeTag_eq, print_eq, List.cons_append] at hother
      rw [if_neg hend, print_eq, List.cons_append, upTo_closeTag_bracket s.not_mem_text hother,
        Option.map_map, Option.map_map]
      have hcons := congrArg (Option.map (s.print ++ ·)) ih
      rw [Option.map_map, Option.map_map] at hcons
      refine Eq.trans (Option.map_congr fun t _ => ?_) hcons
      rw [Function.comp_apply, Function.comp_apply, print_eq, List.append_assoc]

theorem dependencyElement?_printAll (ss : List (Stretch isOpening)) :
    dependencyElement? (printAll ss) = (block? ss).map fun b => ((printAll b).length, printAll b) := by
  cases ss with
  | nil => rfl
  | cons s r =>
    have hr := atTag_printAll r
    rw [printAll_cons, block?]
    by_cases hname : s.body? = some dependencyName
    · obtain ⟨text, htag⟩ := body?_eq_some_iff.mp hname
      obtain ⟨hprint, -, -, htext⟩ := tag_spec htag
      have hinner := upTo_closeTag_printAll r
      rw [if_pos hname, dependencyElement?_eq, hprint, List.append_assoc, dropStart?_append,
        Option.bind_some, upTo_closeTag_text _ _ htext]
      have hcons := congrArg (Option.map fun t => ((s.print ++ t).length, s.print ++ t)) hinner
      rw [Option.map_map, Option.map_map] at hcons
      rw [Option.map_map, Option.map_map]
      refine Eq.trans (Option.map_congr fun t _ => ?_) hcons
      simp only [Function.comp_apply, hprint, List.append_assoc]
    · rw [if_neg hname, Option.map_none]
      exact seesTag_dependencyElement?.eq_none
        (dropStart?_openTag_of_ne (by decide) (by decide) hr hname)

theorem block?_cons_eq_some_iff {b r : List (Stretch isOpening)} :
    block? (s :: r) = some b ↔
      s.body? = some dependencyName ∧ ∃ inner, upToEnd? r = some inner ∧ s :: inner = b := by
  rw [block?, Option.ite_none_right_eq_some, Option.map_eq_some_iff]

/-- What follows a dependency. -/
theorem upToEnd?_spec {ss b : List (Stretch isOpening)} (h : upToEnd? ss = some b) :
    ∃ inner last text r, ss = inner ++ last :: r ∧ b = inner ++ [endTag] ∧
      last.print = endTag.print ++ text ∧ '<' ∉ text := by
  induction ss generalizing b with
  | nil => cases h
  | cons s r ih =>
    rw [upToEnd?] at h
    split at h
    · next hend =>
      obtain ⟨text, htag⟩ := body?_eq_some_iff.mp hend
      obtain ⟨hprint, -, -, htext⟩ := tag_spec htag
      obtain rfl := Option.some.inj h
      exact ⟨[], s, text, r, rfl, rfl, hprint, htext⟩
    · obtain ⟨b, hb, rfl⟩ := Option.map_eq_some_iff.mp h
      obtain ⟨inner, last, text, r', rfl, rfl, hlast, htext⟩ := ih hb
      exact ⟨s :: inner, last, text, r', rfl, rfl, hlast, htext⟩

theorem blocks_pass (n : Nat) (a r : List (Stretch isOpening)) :
    blocks a.length n (a ++ r) = blocks 0 (n + (printAll a).length) r := by
  induction a generalizing n with
  | nil => rfl
  | cons s a ih =>
    rw [List.length_cons, List.cons_append, blocks, ih, printAll_cons, List.length_append,
      Nat.add_assoc]

/-- A dependency begins with one of the stretches. -/
theorem exists_of_mem_blocks {skip n k : Nat} {ss b : List (Stretch isOpening)}
    (h : (k, b) ∈ blocks skip n ss) :
    ∃ front r, ss = front ++ r ∧ k = n + (printAll front).length ∧ block? r = some b := by
  induction ss generalizing skip n with
  | nil => cases skip <;> cases h
  | cons s r ih =>
    have hbehind {skip : Nat} (h : (k, b) ∈ blocks skip (n + s.print.length) r) :
        ∃ front r', s :: r = front ++ r' ∧ k = n + (printAll front).length ∧ block? r' = some b := by
      obtain ⟨front, r', rfl, rfl, hblock⟩ := ih h
      exact ⟨s :: front, r', rfl, by rw [printAll_cons, List.length_append, Nat.add_assoc], hblock⟩
    cases skip with
    | succ skip => exact hbehind h
    | zero =>
      rw [blocks] at h
      split at h
      · next found hblock =>
        rcases List.mem_cons.mp h with heq | hrest
        · cases heq
          exact ⟨[], s :: r, rfl, rfl, hblock⟩
        · exact hbehind hrest
      · exact hbehind h

/-- The dependencies found are the ones in the stretches. -/
theorem findAll_dependencyElement?_printAll (n : Nat) (ss : List (Stretch isOpening)) :
    findAll dependencyElement? 0 n (printAll ss) =
      (blocks 0 n ss).map fun (k, b) => (k, printAll b) := by
  have hsees := seesTags_dependencyElement?
  -- behind a dependency the search goes on with fewer stretches
  induction hlength : ss.length using Nat.strongRecOn generalizing ss n with
  | ind _ ih =>
  subst hlength
  cases ss with
  | nil => rfl
  | cons s r =>
    have hfound := dependencyElement?_printAll (s :: r)
    rw [blocks]
    cases hblock : block? (s :: r) with
    | none =>
      rw [hblock, printAll_cons] at hfound
      rw [printAll_cons, findAll_print hsees n s hfound]
      exact ih r.length (Nat.lt_succ_self _) _ r rfl
    | some b =>
      rw [hblock] at hfound
      obtain ⟨-, b', hinner, rfl⟩ := block?_cons_eq_some_iff.mp hblock
      obtain ⟨inner, last, text, r', rfl, rfl, hlast, htext⟩ := upToEnd?_spec hinner
      have hprint : printAll (s :: (inner ++ last :: r')) =
          printAll (s :: (inner ++ [endTag])) ++ (text ++ printAll r') := by
        simp only [printAll_cons, printAll_append, hlast, printAll_nil, List.append_assoc,
          List.append_nil]
      have hnonempty : printAll (s :: (inner ++ [endTag])) ≠ [] := List.cons_ne_nil _ _
      have hlength : (s :: (inner ++ [endTag])).length - 1 = (inner ++ [last]).length := by
        simp only [List.length_cons, List.length_append, List.length_nil, Nat.add_sub_cancel]
      have hrest : inner ++ last :: r' = (inner ++ [last]) ++ r' := by
        rw [List.append_assoc]
        rfl
      rw [hprint] at hfound ⊢
      rw [findAll_of_some n hnonempty hfound, findAll_text hsees _ htext,
        ih r'.length (by simp only [List.length_cons, List.length_append]; omega) _ r' rfl]
      dsimp only
      rw [hlength, hrest, blocks_pass, List.map_cons]
      simp only [printAll_cons, printAll_append, hlast, printAll_nil, List.length_append,
        List.append_nil, Nat.add_assoc]

/-! ## Versions -/

section Versions

variable {ss : List (Stretch isOpening)} {group artifact : List Char} {n : Nat} {v : VersionSpot}

theorem word_of_firstWordIn? (h : firstWordIn? name n ss = some v) :
    ∃ s ∈ ss, ∃ k, s.tagWord? = some (k, v.version) := by
  induction ss generalizing n with
  | nil => cases h
  | cons s r ih =>
    rw [firstWordIn?, Option.or_eq_some_iff] at h
    rcases h with hfirst | ⟨-, hrest⟩
    · obtain ⟨-, hfirst⟩ := Option.ite_none_right_eq_some.mp hfirst
      obtain ⟨⟨k, word⟩, hword, rfl⟩ := Option.map_eq_some_iff.mp hfirst
      exact ⟨s, List.mem_cons_self, k, hword⟩
    · obtain ⟨t, ht, hword⟩ := ih hrest
      exact ⟨t, List.mem_cons_of_mem s ht, hword⟩

theorem not_mem_of_firstWordIn? (h : firstWordIn? name n ss = some v) : '<' ∉ v.version := by
  obtain ⟨s, -, k, hword⟩ := word_of_firstWordIn? h
  obtain ⟨⟨body, text⟩, htag, hone⟩ := Option.bind_eq_some_iff.mp hword
  obtain ⟨⟨i, word⟩, hone, heq⟩ := Option.map_eq_some_iff.mp hone
  obtain ⟨-, rfl⟩ := Prod.mk.inj heq
  exact fun hmem => (tag_spec htag).2.2.2 (word_subset hone hmem)

/-- The version that decides for a dependency at position `n` of stretches that begin at position
`base`. -/
def decidingSpot? (group artifact : List Char) (base : Nat) (ss : List (Stretch isOpening)) (n : Nat)
    (b : List (Stretch isOpening)) : Option VersionSpot :=
  if mentionsIn groupName group b && mentionsIn artifactName artifact b then
    (firstWordIn? versionName n b).bind fun own =>
      match propertyName? own.version with
      | some property => firstWordIn? property base ss
      | none => some own
  else none

/-- The versions found for a dependency, in the order of the elements. -/
def found (group artifact : List Char) (base : Nat) (ss : List (Stretch isOpening)) :
    List VersionSpot :=
  (blocks 0 base ss).filterMap fun (n, b) => decidingSpot? group artifact base ss n b

/-- No version of a dependency names a property with a bracket in its name. -/
def NamesPlain (base : Nat) (ss : List (Stretch isOpening)) : Prop :=
  ∀ n b own property, (n, b) ∈ blocks 0 base ss → firstWordIn? versionName n b = some own →
    propertyName? own.version = some property → '>' ∉ property

theorem firstWord?_printAll (hlt : '<' ∉ name) (hgt : '>' ∉ name) {head : List Char}
    (hhead : '<' ∉ head) (ss : List (Stretch isOpening)) :
    firstWord? name (head ++ printAll ss) = firstWordIn? name head.length ss := by
  rw [← wordFrom?_zero, wordFrom?, findFirst_text (seesTags_elementWord? name) 0 hhead,
    Nat.zero_add, ← wordFrom?_printAll hlt hgt]
  rfl

theorem mavenSpot?_printAll {head : List Char} {b : List (Stretch isOpening)} (hgroup : '<' ∉ group)
    (hartifact : '<' ∉ artifact) (hhead : '<' ∉ head) (hplain : NamesPlain head.length ss)
    (hb : (n, b) ∈ blocks 0 head.length ss) :
    mavenSpot? group artifact (head ++ printAll ss) n (printAll b) =
      decidingSpot? group artifact head.length ss n b := by
  have hown := wordFrom?_eq versionName n (printAll b)
  rw [wordFrom?_printAll (by decide) (by decide)] at hown
  rw [Pom.mavenSpot?_eq, decidingSpot?, findAny_elementIs_printAll (by decide) (by decide) hgroup,
    findAny_elementIs_printAll (by decide) (by decide) hartifact]
  refine if_congr Iff.rfl ?_ rfl
  cases hfirst : firstWord? versionName (printAll b) with
  | none => rw [hown, hfirst]; rfl
  | some own =>
    rw [hfirst, Option.map_some] at hown
    rw [hown, Option.bind_some, Option.bind_some]
    dsimp only
    cases hproperty : propertyName? own.version with
    | none => rfl
    | some property =>
      have hgt : '>' ∉ property := hplain n b _ property hb hown hproperty
      have hlt : '<' ∉ property := by
        have hword := not_mem_of_firstWordIn? hown
        rw [propertyName?_eq_some_iff.mp hproperty] at hword
        exact fun hmem => hword (List.mem_append_right _ (List.mem_append_left _ hmem))
      exact firstWord?_printAll hlt hgt hhead ss

theorem mavenSpots_printAll {head : List Char} (hgroup : '<' ∉ group) (hartifact : '<' ∉ artifact)
    (hhead : '<' ∉ head) (hplain : NamesPlain head.length ss) :
    mavenSpots group artifact (head ++ printAll ss) =
      (found group artifact head.length ss).foldl (fun found v => insertSpot v found) [] := by
  rw [mavenSpots, findAll_text seesTags_dependencyElement? 0 hhead,
    findAll_dependencyElement?_printAll, Nat.zero_add, List.filterMap_map, found]
  congr 1
  exact List.filterMap_congr fun _ hb => mavenSpot?_printAll hgroup hartifact hhead hplain hb

end Versions

end Stretch

end JavaMigration.Dependency
