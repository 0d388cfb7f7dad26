import JavaMigration.Proofs.Dependency.Tags

/-!
# What the searches find

The searches go over a Maven file from the left and know nothing of its elements. In a
well-formed file they find what can be told from the elements: the first place of a name, whether
an element of a given value is among others, and the dependencies.
-/

namespace JavaMigration.Dependency

open Text Markup

/-! ## Words of elements -/

theorem dropWhile_isBlank_append (text : List Char) {r : List Char} (hr : AtTag r) :
    (text ++ r).dropWhile isBlank = text.dropWhile isBlank ++ r := by
  induction text with
  | nil =>
    cases r with
    | nil => rfl
    | cons c r =>
      obtain rfl : c = '<' := by simpa [AtTag] using hr
      rfl
  | cons c text ih =>
    rw [List.cons_append, List.dropWhile_cons, List.dropWhile_cons, ih]
    split <;> rfl

theorem takeWhile_word_append {text r : List Char} (htext : '<' ∉ text) (hr : AtTag r) :
    (text ++ r).takeWhile (fun c => c != '<' && !isBlank c) = text.takeWhile (!isBlank ·) := by
  induction text with
  | nil =>
    cases r with
    | nil => rfl
    | cons c r =>
      obtain rfl : c = '<' := by simpa [AtTag] using hr
      rfl
  | cons c text ih =>
    have hc : (c != '<') = true := bne_iff_ne.mpr (List.ne_of_not_mem_cons htext).symm
    rw [List.cons_append, List.takeWhile_cons, List.takeWhile_cons, hc, Bool.true_and,
      ih (List.not_mem_of_not_mem_cons htext)]

/-- An end tag follows a text up to the next tag if the text is blank. -/
theorem dropStart?_closeTag_text (name : List Char) {text r : List Char} (htext : '<' ∉ text)
    (hr : AtTag r) :
    dropStart? (closeTag name) ((text ++ r).dropWhile isBlank) =
      if text.all isBlank then dropStart? (closeTag name) r else none := by
  induction text with
  | nil =>
    rw [dropWhile_isBlank_append [] hr]
    rfl
  | cons c text ih =>
    rw [List.cons_append, List.dropWhile_cons, List.all_cons]
    cases hc : isBlank c with
    | true => exact ih (List.not_mem_of_not_mem_cons htext)
    | false =>
      have hopen : '<' ≠ c := List.ne_of_not_mem_cons htext
      rw [Bool.false_and, if_neg Bool.false_ne_true, if_neg Bool.false_ne_true, closeTag,
        List.cons_append, List.cons_append, dropStart?, if_neg hopen]

theorem elementWord?_tag {name body text r : List Char} (hname : '>' ∉ name) (hbody : '>' ∉ body)
    (htext : '<' ∉ text) (hr : AtTag r) :
    elementWord? name (openTag body ++ (text ++ r)) =
      if body = name ∧ (dropStart? (closeTag name) r).isSome then
        (oneWord? text).map fun found => ⟨(openTag name).length + found.1, found.2⟩
      else none := by
  by_cases hsame : body = name
  · subst hsame
    have hdrop : '<' ∉ text.dropWhile isBlank := fun h => htext ((List.dropWhile_sublist _).mem h)
    have hbehind : '<' ∉ (text.dropWhile isBlank).drop
        ((text.dropWhile isBlank).takeWhile (!isBlank ·)).length :=
      fun h => hdrop (List.mem_of_mem_drop h)
    have hlength := (List.takeWhile_sublist (l := text.dropWhile isBlank) (!isBlank ·)).length_le
    have hstart : (openTag body ++ (text ++ r)).length - (text.dropWhile isBlank ++ r).length =
        (openTag body).length + (text.length - (text.dropWhile isBlank).length) := by
      have hshorter := (List.dropWhile_sublist (l := text) isBlank).length_le
      simp only [List.length_append]
      omega
    simp only [elementWord?, dropStart?_append, dropWhile_isBlank_append text hr,
      takeWhile_word_append hdrop hr, List.drop_append_of_le_length hlength,
      dropStart?_closeTag_text body hbehind hr, Option.bind_eq_bind, Option.bind_some,
      true_and, oneWord?, hstart]
    generalize (text.dropWhile isBlank).takeWhile (!isBlank ·) = word
    cases dropStart? (closeTag body) r <;> cases word.isEmpty <;>
      cases ((text.dropWhile isBlank).drop word.length).all isBlank <;> rfl
  · have hnone : dropStart? (openTag name) (openTag body ++ (text ++ r)) = none := by
      rw [Option.eq_none_iff_forall_ne_some]
      intro r' h
      exact hsame (openTag_append_inj hbody hname (dropStart?_eq_some_iff.mp h)).1
    rw [elementWord?, hnone, if_neg fun h => hsame h.1]
    rfl

/-- No word is found at a tag that does not have the name of an element alone in it. -/
theorem elementWord?_of_not_isName {m : Markup} {inside : Bool} {name body text r : List Char}
    (hm : m.isWellFormed inside) (hr : AtEnd r) (hname : '>' ∉ name) (hbody : '>' ∉ body)
    (hform : ¬ isName body) (htext : '<' ∉ text) :
    elementWord? name (openTag body ++ (text ++ (m.print ++ r))) = none := by
  rw [elementWord?_tag hname hbody htext (atTag_print_append m hr.atTag), if_neg]
  rintro ⟨rfl, hclose⟩
  obtain ⟨r', hclose⟩ := Option.isSome_iff_exists.mp hclose
  exact hform (print_append_eq_closeTag hm hr hname (dropStart?_eq_some_iff.mp hclose)).2.1

theorem elementWord?_element {children : Markup} {inside : Bool}
    {name x attributes text : List Char} (r : List Char) (hname : '>' ∉ name) (hx : isName x)
    (hattributes : isAttributes attributes) (htext : text.all isPlain)
    (hchildren : children.isWellFormed inside) :
    elementWord? name
        (openTag (x ++ attributes) ++ (text ++ (children.print ++ (closeTag x ++ r)))) =
      if x = name then
        (wordIn? attributes text children).map fun found =>
          ⟨(openTag (x ++ attributes)).length + found.1, found.2⟩
      else none := by
  have hclosing := (endTag_spec hx).2.1
  rw [elementWord?_tag hname (startTag_spec hx hattributes).2 (not_mem_of_all_isPlain htext).1
    (atTag_print_append _ (atTag_closeTag _ _))]
  by_cases hsame : x = name ∧ attributes = [] ∧ children = nil
  · obtain ⟨rfl, rfl, rfl⟩ := hsame
    have hclose : dropStart? (closeTag x) (nil.print ++ (closeTag x ++ r)) = some r :=
      dropStart?_append _ _
    rw [hclose, if_pos ⟨List.append_nil x, rfl⟩, if_pos rfl, wordIn?, if_pos ⟨rfl, rfl⟩,
      List.append_nil]
  · rw [if_neg]
    · by_cases hx : x = name
      · rw [if_pos hx, wordIn?, if_neg fun h => hsame ⟨hx, h⟩]
        rfl
      · rw [if_neg hx]
    · rintro ⟨rfl, hclose⟩
      obtain ⟨r', hclose⟩ := Option.isSome_iff_exists.mp hclose
      obtain ⟨rfl, -, hclose⟩ := print_append_eq_closeTag hchildren (atEnd_closeTag hx r) hname
        (dropStart?_eq_some_iff.mp hclose)
      obtain ⟨hsame', -⟩ := openTag_append_inj hclosing (not_mem_slash hname) hclose
      have hempty : attributes = [] := by simpa using (List.cons.inj hsame').2
      exact hsame ⟨by rw [hempty, List.append_nil], hempty, rfl⟩

theorem seesTag_elementWord? (name : List Char) : SeesTag name (elementWord? name) := by
  intro s h
  obtain ⟨v, h⟩ := Option.isSome_iff_exists.mp h
  obtain ⟨r, hr, -⟩ := Option.bind_eq_some_iff.mp h
  exact Option.isSome_of_eq_some hr

theorem seesTags_elementWord? (name : List Char) : SeesTags (elementWord? name) :=
  (seesTag_elementWord? name).seesTags

/-- The word of the first element of a name that holds one, where positions count from `n`. -/
def wordFrom? (name : List Char) (n : Nat) (s : List Char) : Option VersionSpot :=
  (findFirst (elementWord? name) n s).map fun (k, v) => { v with start := k + v.start }

theorem wordFrom?_zero (name s : List Char) : wordFrom? name 0 s = firstWord? name s := rfl

theorem wordFrom?_eq (name : List Char) (n : Nat) (s : List Char) :
    wordFrom? name n s = (firstWord? name s).map fun v => { v with start := n + v.start } := by
  rw [wordFrom?, firstWord?, ← Nat.zero_add n, findFirst_add, Option.map_map, Option.map_map]
  refine Option.map_congr fun found _ => ?_
  simp only [Function.comp_apply]
  congr 1
  omega

theorem wordFrom?_tag (name : List Char) (n : Nat) {body text : List Char} (hbody : '<' ∉ body)
    (htext : '<' ∉ text) (r : List Char) :
    wordFrom? name n (openTag body ++ (text ++ r)) =
      ((elementWord? name (openTag body ++ (text ++ r))).map
        fun v => { v with start := n + v.start }).or
        (wordFrom? name (n + (openTag body).length + text.length) r) := by
  rw [wordFrom?, findFirst_tag (seesTags_elementWord? name) n hbody htext, Option.map_or,
    Option.map_map]
  rfl

/-- The first word of a name is the one at the first place of that name. -/
theorem wordFrom?_print {m : Markup} {inside : Bool} (parent : Option Element) (n : Nat)
    {name r : List Char} (hm : m.isWellFormed inside) (hr : AtEnd r) (hname : '>' ∉ name) :
    wordFrom? name n (m.print ++ r) =
      (((m.places parent n).find? (·.name == name)).map Place.spot).or
        (wordFrom? name (n + m.print.length) r) := by
  induction m generalizing inside parent n r with
  | nil => rfl
  | element x attributes text children tail rest ihc ihr =>
    simp only [isWellFormed, Bool.and_eq_true] at hm
    obtain ⟨⟨⟨⟨⟨⟨hx, hattributes⟩, htext⟩, htail⟩, -⟩, hchildren⟩, hrest⟩ := hm
    have hbody := (startTag_spec hx hattributes).1
    obtain ⟨hclose, hclosing, hform⟩ := endTag_spec hx
    simp only [print, List.append_assoc]
    rw [wordFrom?_tag name n hbody (not_mem_of_all_isPlain htext).1,
      elementWord?_element _ hname hx hattributes htext hchildren,
      ihc (some ⟨x, attributes, text, children⟩) _ hchildren (atEnd_closeTag hx _),
      closeTag_eq, wordFrom?_tag name _ hclose (not_mem_of_all_isPlain htail).1,
      elementWord?_of_not_isName hrest hr hname hclosing hform
        (not_mem_of_all_isPlain htail).1,
      Option.map_none, Option.none_or, ihr parent _ hrest hr]
    rw [places, List.find?_append, List.find?_append, Option.map_or, Option.map_or, Option.or_assoc,
      Option.or_assoc]
    congr 1
    · cases wordIn? attributes text children with
      | none => simp
      | some found => by_cases hsame : x = name <;> simp [hsame, textAt, Place.spot, Nat.add_assoc]
    · simp only [textAt, restAt, closeTag_eq, List.length_append, Nat.add_assoc]
  | mark body tail rest ih =>
    simp only [isWellFormed, Bool.and_eq_true] at hm
    obtain ⟨⟨hbody, htail⟩, hrest⟩ := hm
    obtain ⟨hlt, hgt, -, hform⟩ := isMark_spec hbody
    have htail := (not_mem_of_all_isPlain htail).1
    simp only [print, List.append_assoc]
    rw [wordFrom?_tag name n hlt htail, elementWord?_of_not_isName hrest hr hname hgt hform htail,
      Option.map_none, Option.none_or, ih parent _ hrest hr]
    simp only [places, List.length_append, Nat.add_assoc]

/-! ## Values of elements -/

/-- Whether a text is a value that blanks may surround. -/
def textIs (value text : List Char) : Bool :=
  (blankTails text).any fun t => (dropStart? value t).any (·.all isBlank)

theorem textIs_iff {value text : List Char} :
    textIs value text ↔ ∃ front back, front.all isBlank ∧ back.all isBlank ∧
      text = front ++ (value ++ back) := by
  simp only [textIs, List.any_eq_true, mem_blankTails, Option.any_eq_true, dropStart?_eq_some_iff]
  constructor
  · rintro ⟨-, ⟨front, hfront, rfl⟩, back, rfl, hback⟩
    exact ⟨front, back, hfront, hback, rfl⟩
  · rintro ⟨front, back, hfront, hback, rfl⟩
    exact ⟨_, ⟨front, hfront, rfl⟩, back, rfl, hback⟩

namespace Markup

/-- Whether an element of a given value is among some elements or within them. -/
def mentions (name value : List Char) : Markup → Bool
  | nil => false
  | element x attributes text children _ rest =>
    (x == name && attributes == [] && children == nil && textIs value text) ||
      children.mentions name value || rest.mentions name value
  | mark _ _ rest => rest.mentions name value

end Markup

theorem seesTag_elementIs (name value : List Char) : SeesTag name (elementIs name value) := by
  intro s h
  obtain ⟨v, h⟩ := Option.isSome_iff_exists.mp h
  obtain ⟨r, hr, -⟩ := Option.bind_eq_some_iff.mp h
  exact Option.isSome_of_eq_some hr

theorem seesTags_elementIs (name value : List Char) : SeesTags (elementIs name value) :=
  (seesTag_elementIs name value).seesTags

theorem dropWhile_eq_closeTag {name q r : List Char} :
    q.dropWhile isBlank = closeTag name ++ r ↔
      ∃ back, back.all isBlank ∧ q = back ++ (closeTag name ++ r) := by
  constructor
  · intro h
    refine ⟨q.takeWhile isBlank, List.all_takeWhile, ?_⟩
    rw [← h, List.takeWhile_append_dropWhile]
  · rintro ⟨back, hback, rfl⟩
    rw [List.dropWhile_append_of_pos (List.all_eq_true.mp hback)]
    rfl

theorem isSome_elementIs_iff {name value s : List Char} :
    (elementIs name value s).isSome ↔ ∃ front back r, front.all isBlank ∧ back.all isBlank ∧
      s = openTag name ++ (front ++ (value ++ (back ++ (closeTag name ++ r)))) := by
  constructor
  · intro h
    obtain ⟨v, h⟩ := Option.isSome_iff_exists.mp h
    obtain ⟨r, hopen, hfind⟩ := Option.bind_eq_some_iff.mp h
    obtain ⟨t, ht, hvalue⟩ := List.exists_of_findSome?_eq_some hfind
    obtain ⟨front, hfront, rfl⟩ := mem_blankTails.mp ht
    obtain ⟨q, hq, hbehind⟩ := Option.bind_eq_some_iff.mp hvalue
    obtain ⟨r', hclose, -⟩ := Option.bind_eq_some_iff.mp hbehind
    obtain ⟨back, hback, rfl⟩ := dropWhile_eq_closeTag.mp (dropStart?_eq_some_iff.mp hclose)
    rw [dropStart?_eq_some_iff] at hopen hq
    exact ⟨front, back, r', hfront, hback, by rw [hopen, hq]⟩
  · rintro ⟨front, back, r, hfront, hback, rfl⟩
    have hclose : (back ++ (closeTag name ++ r)).dropWhile isBlank = closeTag name ++ r :=
      dropWhile_eq_closeTag.mpr ⟨back, hback, rfl⟩
    simp only [elementIs, dropStart?_append, Option.bind_eq_bind, Option.bind_some,
      List.findSome?_isSome_iff]
    refine ⟨_, mem_blankTails.mpr ⟨front, hfront, rfl⟩, ?_⟩
    rw [dropStart?_append, Option.bind_some, hclose, dropStart?_append]
    rfl

theorem isSome_elementIs_tag {name value body text r : List Char} (hname : '>' ∉ name)
    (hbody : '>' ∉ body) (hvalue : '<' ∉ value) (htext : '<' ∉ text) (hr : AtTag r) :
    (elementIs name value (openTag body ++ (text ++ r))).isSome ↔
      body = name ∧ textIs value text ∧ ∃ r', r = closeTag name ++ r' := by
  have hfree {blanks : List Char} (h : blanks.all isBlank) : '<' ∉ blanks := fun hmem =>
    absurd (List.all_eq_true.mp h _ hmem) (by decide)
  rw [isSome_elementIs_iff, textIs_iff]
  constructor
  · rintro ⟨front, back, r', hfront, hback, h⟩
    obtain ⟨rfl, h⟩ := openTag_append_inj hbody hname h
    have hplain : '<' ∉ front ++ (value ++ back) := by simp [hfree hfront, hfree hback, hvalue]
    obtain ⟨rfl, rfl⟩ := text_append_inj htext hplain hr (atTag_closeTag body r')
      (by simpa only [List.append_assoc] using h)
    exact ⟨rfl, ⟨front, back, hfront, hback, rfl⟩, r', rfl⟩
  · rintro ⟨rfl, ⟨front, back, hfront, hback, rfl⟩, r', rfl⟩
    exact ⟨front, back, r', hfront, hback, by simp only [List.append_assoc]⟩

theorem elementIs_of_not_isName {m : Markup} {inside : Bool} {name value body text r : List Char}
    (hm : m.isWellFormed inside) (hr : AtEnd r) (hname : '>' ∉ name) (hbody : '>' ∉ body)
    (hform : ¬ isName body) (hvalue : '<' ∉ value) (htext : '<' ∉ text) :
    (elementIs name value (openTag body ++ (text ++ (m.print ++ r)))).isSome = false := by
  rw [Bool.eq_false_iff, ne_eq, isSome_elementIs_tag hname hbody hvalue htext
    (atTag_print_append m hr.atTag)]
  rintro ⟨rfl, -, r', hclose⟩
  exact hform (print_append_eq_closeTag hm hr hname hclose).2.1

theorem isSome_elementIs_element {children : Markup} {inside : Bool}
    {name value x attributes text : List Char} (r : List Char) (hname : '>' ∉ name)
    (hvalue : '<' ∉ value) (hx : isName x) (hattributes : isAttributes attributes)
    (htext : text.all isPlain) (hchildren : children.isWellFormed inside) :
    (elementIs name value
      (openTag (x ++ attributes) ++ (text ++ (children.print ++ (closeTag x ++ r))))).isSome =
      (x == name && attributes == [] && children == nil && textIs value text) := by
  have hclosing := (endTag_spec hx).2.1
  rw [Bool.eq_iff_iff, isSome_elementIs_tag hname (startTag_spec hx hattributes).2 hvalue
    (not_mem_of_all_isPlain htext).1 (atTag_print_append _ (atTag_closeTag _ _))]
  simp only [Bool.and_eq_true, beq_iff_eq]
  constructor
  · rintro ⟨rfl, hvalue, r', hclose⟩
    obtain ⟨rfl, -, hclose⟩ := print_append_eq_closeTag hchildren (atEnd_closeTag hx r) hname hclose
    obtain ⟨hsame, -⟩ := openTag_append_inj hclosing (not_mem_slash hname) hclose
    have hempty : attributes = [] := by simpa using (List.cons.inj hsame).2
    exact ⟨⟨⟨by rw [hempty, List.append_nil], hempty⟩, rfl⟩, hvalue⟩
  · rintro ⟨⟨⟨rfl, rfl⟩, rfl⟩, hvalue⟩
    exact ⟨List.append_nil x, hvalue, r, rfl⟩

/-- An element of a given value is found if it is among the elements or within them. -/
theorem findAny_elementIs_print {m : Markup} {inside : Bool} {name value r : List Char}
    (hm : m.isWellFormed inside) (hr : AtEnd r) (hname : '>' ∉ name) (hvalue : '<' ∉ value) :
    findAny (elementIs name value) (m.print ++ r) =
      (m.mentions name value || findAny (elementIs name value) r) := by
  have hsees := seesTags_elementIs name value
  induction m generalizing inside r with
  | nil => rfl
  | element x attributes text children tail rest ihc ihr =>
    simp only [isWellFormed, Bool.and_eq_true] at hm
    obtain ⟨⟨⟨⟨⟨⟨hx, hattributes⟩, htext⟩, htail⟩, -⟩, hchildren⟩, hrest⟩ := hm
    have hbody := (startTag_spec hx hattributes).1
    obtain ⟨hclose, hclosing, hform⟩ := endTag_spec hx
    have htail := (not_mem_of_all_isPlain htail).1
    simp only [print, List.append_assoc]
    rw [findAny_tag hsees hbody (not_mem_of_all_isPlain htext).1,
      isSome_elementIs_element _ hname hvalue hx hattributes htext hchildren,
      ihc hchildren (atEnd_closeTag hx _), closeTag_eq, findAny_tag hsees hclose htail,
      elementIs_of_not_isName hrest hr hname hclosing hform hvalue htail,
      Bool.false_or, ihr hrest hr, mentions, Bool.or_assoc, Bool.or_assoc]
  | mark body tail rest ih =>
    simp only [isWellFormed, Bool.and_eq_true] at hm
    obtain ⟨⟨hbody, htail⟩, hrest⟩ := hm
    obtain ⟨hlt, hgt, -, hform⟩ := isMark_spec hbody
    have htail := (not_mem_of_all_isPlain htail).1
    simp only [print, List.append_assoc]
    rw [findAny_tag hsees hlt htail, elementIs_of_not_isName hrest hr hname hgt hform hvalue htail,
      Bool.false_or, ih hrest hr, mentions]

/-! ## Dependencies -/

def Element.print (e : Element) : List Char :=
  openTag (e.name ++ e.attributes) ++ (e.text ++ (e.children.print ++ closeTag e.name))

namespace Markup

/-- The dependencies among some elements that begin at position `n` and within them, with their
positions. A dependency has no attributes. -/
def dependencies (n : Nat) : Markup → List (Nat × Element)
  | nil => []
  | element name attributes text children tail rest =>
    (if name = dependencyName ∧ attributes = [] then [(n, ⟨name, attributes, text, children⟩)]
      else []) ++
      children.dependencies (textAt n name attributes + text.length) ++
      rest.dependencies (restAt n name attributes text children tail)
  | mark body tail rest => rest.dependencies (n + (openTag body).length + tail.length)

theorem dependencies_inside {m : Markup} (n : Nat) (hm : m.isWellFormed true) :
    m.dependencies n = [] := by
  induction m generalizing n with
  | nil => rfl
  | element name attributes text children tail rest ihc ihr =>
    simp only [isWellFormed, Bool.true_and, Bool.true_or, Bool.and_eq_true, Bool.not_eq_true',
      beq_eq_false_iff_ne, ne_eq] at hm
    obtain ⟨⟨⟨-, hname⟩, hchildren⟩, hrest⟩ := hm
    rw [dependencies, ihc _ hchildren, ihr _ hrest, if_neg fun h => hname h.1]
    rfl
  | mark body tail rest ih =>
    simp only [isWellFormed, Bool.and_eq_true] at hm
    exact ih _ hm.2

end Markup

theorem upTo_closeTag_text (name : List Char) {text : List Char} (r : List Char)
    (htext : '<' ∉ text) :
    upTo (closeTag name) (text ++ r) = (upTo (closeTag name) r).map (text ++ ·) := by
  induction text with
  | nil => simp
  | cons c text ih =>
    have hc : (closeTag name).isPrefixOf (c :: (text ++ r)) = false := by
      rw [closeTag, List.cons_append, List.cons_append, List.isPrefixOf_cons_cons,
        beq_eq_false_iff_ne.mpr (List.ne_of_not_mem_cons htext), Bool.false_and]
    rw [List.cons_append, upTo, hc, if_neg Bool.false_ne_true,
      ih (List.not_mem_of_not_mem_cons htext), Option.map_map]
    rfl

theorem upTo_closeTag_self (name r : List Char) :
    upTo (closeTag name) (closeTag name ++ r) = some [] := by
  have hprefix : (closeTag name).isPrefixOf (closeTag name ++ r) :=
    List.isPrefixOf_iff_prefix.mpr (List.prefix_append _ _)
  exact if_pos hprefix

/-- The text up to an end tag does not end at another bracket. -/
theorem upTo_closeTag_bracket {name text r : List Char} (htext : '<' ∉ text)
    (hother : dropStart? (closeTag name) ('<' :: (text ++ r)) = none) :
    upTo (closeTag name) ('<' :: (text ++ r)) =
      (upTo (closeTag name) r).map ('<' :: text ++ ·) := by
  have hprefix : (closeTag name).isPrefixOf ('<' :: (text ++ r)) = false := by
    rw [Bool.eq_false_iff, ne_eq, List.isPrefixOf_iff_prefix]
    rintro ⟨t, h⟩
    rw [dropStart?_eq_some_iff.mpr h.symm] at hother
    cases hother
  rw [upTo, hprefix, if_neg Bool.false_ne_true, upTo_closeTag_text name r htext, Option.map_map]
  rfl

theorem upTo_closeTag_tag {name body text r : List Char} (hbody : '<' ∉ body) (hgt : '>' ∉ body)
    (hname : '>' ∉ name) (htext : '<' ∉ text) (hne : body ≠ '/' :: name) :
    upTo (closeTag name) (openTag body ++ (text ++ r)) =
      (upTo (closeTag name) r).map fun t => openTag body ++ (text ++ t) := by
  have hother : dropStart? (closeTag name) (openTag body ++ (text ++ r)) = none := by
    rw [Option.eq_none_iff_forall_ne_some]
    intro t h
    exact hne (openTag_append_inj hgt (not_mem_slash hname) (dropStart?_eq_some_iff.mp h)).1
  rw [openTag_append] at hother ⊢
  rw [upTo_closeTag_bracket (not_mem_afterBracket hbody htext) hother]
  refine Option.map_congr fun t _ => ?_
  rw [openTag_append]
  rfl

/-- In a dependency there is no end tag of one. -/
theorem upTo_closeTag_print {m : Markup} (r : List Char) (hm : m.isWellFormed true) :
    upTo (closeTag dependencyName) (m.print ++ r) =
      (upTo (closeTag dependencyName) r).map (m.print ++ ·) := by
  induction m generalizing r with
  | nil => simp [print]
  | element name attributes text children tail rest ihc ihr =>
    simp only [isWellFormed, Bool.true_and, Bool.true_or, Bool.and_eq_true, Bool.not_eq_true',
      beq_eq_false_iff_ne, ne_eq] at hm
    obtain ⟨⟨⟨⟨⟨⟨hx, hattributes⟩, htext⟩, htail⟩, hother⟩, hchildren⟩, hrest⟩ := hm
    obtain ⟨hbody, hgt⟩ := startTag_spec hx hattributes
    obtain ⟨hclose, hclosing, -⟩ := endTag_spec hx
    have hopen : name ++ attributes ≠ '/' :: dependencyName := by
      obtain ⟨hne, -, -, hslash⟩ := isName_spec hx
      obtain ⟨c, name, rfl⟩ := List.exists_cons_of_ne_nil hne
      exact fun h => List.ne_of_not_mem_cons hslash (List.cons.inj h).1.symm
    have hend : '/' :: name ≠ '/' :: dependencyName := fun h => hother (List.cons.inj h).2
    simp only [print, List.append_assoc]
    rw [upTo_closeTag_tag hbody hgt (by decide) (not_mem_of_all_isPlain htext).1 hopen,
      ihc _ hchildren, closeTag_eq name,
      upTo_closeTag_tag hclose hclosing (by decide) (not_mem_of_all_isPlain htail).1 hend,
      ihr _ hrest]
    simp only [Option.map_map]
    rfl
  | mark body tail rest ih =>
    simp only [isWellFormed, Bool.and_eq_true] at hm
    obtain ⟨⟨hbody, htail⟩, hrest⟩ := hm
    obtain ⟨hlt, hgt, hslash, -⟩ := isMark_spec hbody
    have hopen : body ≠ '/' :: dependencyName := by
      rintro rfl
      exact hslash rfl
    simp only [print, List.append_assoc]
    rw [upTo_closeTag_tag hlt hgt (by decide) (not_mem_of_all_isPlain htail).1 hopen, ih _ hrest,
      Option.map_map]
    rfl

theorem dependencyElement?_eq (s : List Char) :
    dependencyElement? s =
      (dropStart? (openTag dependencyName) s).bind fun r =>
        (upTo (closeTag dependencyName) r).map fun t =>
          ((openTag dependencyName ++ t ++ closeTag dependencyName).length,
            openTag dependencyName ++ t ++ closeTag dependencyName) := by
  refine Option.bind_congr fun r _ => ?_
  rw [Option.map_eq_bind]
  rfl

theorem seesTag_dependencyElement? : SeesTag dependencyName dependencyElement? := by
  intro s h
  rw [dependencyElement?_eq] at h
  obtain ⟨v, h⟩ := Option.isSome_iff_exists.mp h
  obtain ⟨r, hr, -⟩ := Option.bind_eq_some_iff.mp h
  exact Option.isSome_of_eq_some hr

theorem seesTags_dependencyElement? : SeesTags dependencyElement? :=
  seesTag_dependencyElement?.seesTags

theorem dependencyElement?_of_ne {body : List Char} (r : List Char) (hgt : '>' ∉ body)
    (hbody : body ≠ dependencyName) : dependencyElement? (openTag body ++ r) = none := by
  have hnone : dropStart? (openTag dependencyName) (openTag body ++ r) = none := by
    rw [Option.eq_none_iff_forall_ne_some]
    intro r' h
    exact hbody (openTag_append_inj hgt (by decide) (dropStart?_eq_some_iff.mp h)).1
  rw [dependencyElement?_eq, hnone, Option.bind_none]

theorem dependencyElement?_print {e : Element} (r : List Char) (hname : e.name = dependencyName)
    (hattributes : e.attributes = []) (htext : '<' ∉ e.text)
    (hchildren : e.children.isWellFormed true) :
    dependencyElement? (e.print ++ r) = some (e.print.length, e.print) := by
  rw [dependencyElement?_eq]
  simp only [Element.print, hname, hattributes, List.append_nil, List.append_assoc,
    dropStart?_append, Option.bind_some, upTo_closeTag_text _ _ htext,
    upTo_closeTag_print _ hchildren, upTo_closeTag_self, Option.map_some]

/-- The dependencies are found one after the other. -/
theorem findAll_dependencyElement? {m : Markup} {inside : Bool} (n : Nat) (r : List Char)
    (hm : m.isWellFormed inside) :
    findAll dependencyElement? 0 n (m.print ++ r) =
      (m.dependencies n).map (fun (k, e) => (k, e.print)) ++
        findAll dependencyElement? 0 (n + m.print.length) r := by
  induction m generalizing inside n r with
  | nil => rfl
  | element name attributes text children tail rest ihc ihr =>
    simp only [isWellFormed, Bool.and_eq_true] at hm
    obtain ⟨⟨⟨⟨⟨⟨hx, hattributes⟩, htext⟩, htail⟩, -⟩, hchildren⟩, hrest⟩ := hm
    have htext := (not_mem_of_all_isPlain htext).1
    have htail := (not_mem_of_all_isPlain htail).1
    by_cases hdependency : name = dependencyName ∧ attributes = []
    · obtain ⟨rfl, rfl⟩ := hdependency
      rw [beq_self_eq_true, Bool.or_true] at hchildren
      have hprint : (element dependencyName [] text children tail rest).print ++ r =
          (⟨dependencyName, [], text, children⟩ : Element).print ++ (tail ++ (rest.print ++ r)) := by
        simp only [print, Element.print, List.append_assoc]
      have hnonempty : (⟨dependencyName, [], text, children⟩ : Element).print ≠ [] :=
        List.cons_ne_nil _ _
      rw [hprint, findAll_of_some n hnonempty (dependencyElement?_print _ rfl rfl htext hchildren),
        findAll_text seesTags_dependencyElement? _ htail, ihr _ _ hrest, dependencies,
        dependencies_inside _ hchildren, if_pos ⟨rfl, rfl⟩]
      simp only [List.length_append, restAt, textAt, Element.print, print, List.map_cons,
        List.nil_append, List.append_nil, List.cons_append, Nat.add_assoc]
    · have hne : name ++ attributes ≠ dependencyName := fun h => by
        obtain rfl := attributes_eq_nil hattributes (h ▸ (by decide : isName dependencyName))
        exact hdependency ⟨by rwa [List.append_nil] at h, rfl⟩
      obtain ⟨hbody, hgt⟩ := startTag_spec hx hattributes
      obtain ⟨hclose, hclosing, -⟩ := endTag_spec hx
      have hend : '/' :: name ≠ dependencyName := fun h => by cases h
      simp only [print, List.append_assoc]
      rw [findAll_tag seesTags_dependencyElement? n hbody htext (dependencyElement?_of_ne _ hgt hne),
        ihc _ _ hchildren, closeTag_eq,
        findAll_tag seesTags_dependencyElement? _ hclose htail
          (dependencyElement?_of_ne _ hclosing hend),
        ihr _ _ hrest, dependencies, if_neg hdependency]
      simp only [restAt, textAt, closeTag_eq, List.length_append, List.map_append,
        List.nil_append, List.append_assoc, Nat.add_assoc]
  | mark body tail rest ih =>
    simp only [isWellFormed, Bool.and_eq_true] at hm
    obtain ⟨⟨hbody, htail⟩, hrest⟩ := hm
    obtain ⟨hlt, hgt, -, hform⟩ := isMark_spec hbody
    have hne : body ≠ dependencyName := by
      rintro rfl
      exact hform (by decide)
    simp only [print, List.append_assoc]
    rw [findAll_tag seesTags_dependencyElement? n hlt (not_mem_of_all_isPlain htail).1
      (dependencyElement?_of_ne _ hgt hne), ih _ _ hrest]
    simp only [dependencies, List.length_append, Nat.add_assoc]

end JavaMigration.Dependency
