import Mathlib.Data.List.Forall2
import JavaMigration.Proofs.Java.Printed

/-!
# When printing gives the source back

A source whose header comes first prints as itself, lexeme by lexeme, up to blanks inside imports
and before the commas of declarators and exceptions, if and only if it is faithful
(`respells_printedUnit`): no comment stands in such a place, no enum has a semicolon behind a
member, and no import stands in front of the package declaration.
-/

namespace JavaMigration.Java

open Source

/-! ## Slots -/

/-- A lexeme of a source. The blanks before it may be changed if it is free. -/
structure Slot where
  lexeme : Lexeme
  free : Bool

/-- The lexeme is as it was read; in front of a free one, blanks may replace blanks. -/
def Slot.Respells (s : Slot) (l : Lexeme) : Prop :=
  l.kind = s.lexeme.kind ∧ l.text = s.lexeme.text ∧
    (l.lead = s.lexeme.lead ∨ (s.free ∧ s.lexeme.lead.isBlank ∧ l.lead.isBlank))

/-- Some lexemes are those that were read, in the same order: nothing is lost, written twice or
moved. -/
def Respells (ss : List Slot) (ls : List Lexeme) : Prop := List.Forall₂ Slot.Respells ss ls

mutual

/-- The lexemes of a syntax tree as slots: free is a comma between declarators or exceptions. -/
def Syntax.slots (inList : Bool) : Syntax → List Slot
  | .leaf l => [⟨l, inList && l.text == ","⟩]
  | .node p cs => slotsOf (p == .declarators || p == .throwsPart) cs

def slotsOf (inList : Bool) : List Syntax → List Slot
  | [] => []
  | c :: cs => c.slots inList ++ slotsOf inList cs

end

/-- In an import everything behind the key word is free. -/
def importSlots : List Lexeme → List Slot
  | [] => []
  | key :: ls => ⟨key, false⟩ :: ls.map fun l => ⟨l, true⟩

def itemSlots : Syntax → List Slot
  | .node .importDecl parts => importSlots (lexemesOf parts)
  | s => s.slots false

/-! ## Faithful units -/

/-- Before the commas of a list there are only blanks. -/
def blankCommas (cs : List Syntax) : Bool :=
  cs.all fun
    | .leaf l => l.text != "," || l.lead.isBlank
    | .node .. => true

/-- Behind the first member there is no semicolon. -/
def endsInMembers (members : List Syntax) : Bool :=
  (members.dropWhile isSemicolon).all fun s => !isSemicolon s

mutual

/-- A statement that prints as it was read. -/
def Syntax.faithful : Syntax → Bool
  | .node .typeDecl [.node _ _, .leaf _, .leaf _, _, body] => body.bodyFaithful
  | .node .vars [.node _ _, _, .node _ declarators, .leaf _] => blankCommas declarators
  | .node .method [.node _ _, .node _ _, _, .leaf _, .node _ _, _, .node _ throwing, body] =>
    blankCommas throwing && body.bodyFaithful
  | _ => true

def Syntax.bodyFaithful : Syntax → Bool
  | .node _ [.leaf _, .node _ items, .leaf _] => allFaithful items
  | .node _ [.leaf _, .node _ _, .node _ members, .leaf _] =>
    endsInMembers members && allFaithful members
  | _ => true

def allFaithful : List Syntax → Bool
  | [] => true
  | s :: rest => s.faithful && allFaithful rest

end

/-- An import with only blanks where its usual form has them or has nothing. -/
def importFaithful : List Syntax → Bool
  | .leaf _ :: .leaf word :: name :: tail =>
    word.lead.isBlank && (leadOf [name]).isBlank && (lexemesOf tail).all (·.lead.isBlank)
  | .leaf _ :: name :: tail => (leadOf [name]).isBlank && (lexemesOf tail).all (·.lead.isBlank)
  | _ => true

def itemFaithful : Syntax → Bool
  | .node .importDecl parts => importFaithful parts
  | .node .typeDecl cs => (Syntax.node .typeDecl cs).faithful
  | _ => true

/-- The package declaration and the imports come before everything else, and there is at most one
package declaration. -/
def headerFirst (items : List Syntax) : Bool :=
  (items.filterMap packageParts).length ≤ 1 && (items.dropWhile isHeader).all fun s => !isHeader s

/-- A unit that prints as it was read. -/
def unitFaithful (items : List Syntax) : Bool :=
  (items.drop 1).all (fun s => (packageParts s).isNone) && items.all itemFaithful

/-! ## Respelling -/

theorem Slot.Respells.refl (s : Slot) : s.Respells s.lexeme := ⟨rfl, rfl, .inl rfl⟩

/-- A free lexeme whose space becomes blank was blank before. -/
theorem Slot.respells_lead_iff (l : Lexeme) {lead : Space} (h : lead.isBlank) :
    Slot.Respells ⟨l, true⟩ { l with lead } ↔ l.lead.isBlank := by
  constructor
  · rintro ⟨-, -, hlead | ⟨-, hblank, -⟩⟩
    · rw [← show lead = l.lead from hlead]
      exact h
    · exact hblank
  · intro hblank
    exact ⟨rfl, rfl, .inr ⟨rfl, hblank, h⟩⟩

/-- The slots are printed as these lexemes, of which there are no fewer, and that respells them
exactly if the test succeeds. -/
structure FaithfulIff (ss : List Slot) (ls : List Lexeme) (test : Bool) : Prop where
  length_le : ss.length ≤ ls.length
  iff : Respells ss ls ↔ test

namespace FaithfulIff

variable {ss ts : List Slot} {ls ms : List Lexeme} {a b : Bool}

theorem nil : FaithfulIff [] [] true := ⟨Nat.le_refl _, by simp [Respells]⟩

theorem of_lexemes (h : ss.map Slot.lexeme = ls) : FaithfulIff ss ls true := by
  subst h
  constructor
  · rw [List.length_map]
  · refine iff_of_true ?_ rfl
    unfold Respells
    rw [List.forall₂_map_right_iff, List.forall₂_same]
    exact fun s _ => .refl s

theorem single {s : Slot} {l : Lexeme} (h : s.Respells l ↔ a) : FaithfulIff [s] [l] a := by
  constructor
  · exact Nat.le_refl _
  · unfold Respells
    simpa using h

/-- Since no part gets shorter, the parts respell one by one. -/
theorem append (hs : FaithfulIff ss ls a) (ht : FaithfulIff ts ms b) :
    FaithfulIff (ss ++ ts) (ls ++ ms) (a && b) := by
  have hsl := hs.length_le
  have htl := ht.length_le
  constructor
  · simp only [List.length_append]
    omega
  · rw [Bool.and_eq_true, ← hs.iff, ← ht.iff]
    constructor
    · intro h
      -- Together the lexemes are as many as the slots only if they are in both parts.
      have hlength : ss.length = ls.length := by
        have heq := List.Forall₂.length_eq h
        simp only [List.length_append] at heq
        omega
      have htake := List.forall₂_take_append _ _ _ h
      have hdrop := List.forall₂_drop_append _ _ _ h
      rw [← hlength, List.take_left] at htake
      rw [← hlength, List.drop_left] at hdrop
      exact ⟨htake, hdrop⟩
    · rintro ⟨hleft, hright⟩
      exact List.rel_append hleft hright

theorem of_longer (h : ss.length < ls.length) : FaithfulIff ss ls false := by
  constructor
  · exact h.le
  · refine iff_of_false (fun hrespells => ?_) Bool.false_ne_true
    exact absurd (List.Forall₂.length_eq hrespells) h.ne

end FaithfulIff

/-! ## Syntax trees -/

mutual

/-- The slots of a syntax tree are its lexemes. -/
theorem Syntax.map_slots (inList : Bool) :
    ∀ s : Syntax, (s.slots inList).map Slot.lexeme = s.lexemes
  | .leaf _ => rfl
  | .node _ cs => map_slotsOf _ cs

theorem map_slotsOf (inList : Bool) :
    ∀ cs : List Syntax, (slotsOf inList cs).map Slot.lexeme = lexemesOf cs
  | [] => rfl
  | c :: cs => by
    rw [slotsOf, List.map_append, Syntax.map_slots inList c, map_slotsOf inList cs, lexemesOf]

end

theorem slotsOf_append (inList : Bool) (cs ds : List Syntax) :
    slotsOf inList (cs ++ ds) = slotsOf inList cs ++ slotsOf inList ds := by
  induction cs with
  | nil => rfl
  | cons c cs ih => rw [List.cons_append, slotsOf, slotsOf, ih, List.append_assoc]

theorem slotsOf_singleton (inList : Bool) (s : Syntax) : slotsOf inList [s] = s.slots inList :=
  List.append_nil _

namespace FaithfulIff

/-- Syntax trees whose lexemes are printed as they were read. -/
theorem refl (inList : Bool) (cs : List Syntax) :
    FaithfulIff (slotsOf inList cs) (lexemesOf cs) true := of_lexemes (map_slotsOf inList cs)

theorem leaf (inList : Bool) (l : Lexeme) : FaithfulIff ((Syntax.leaf l).slots inList) [l] true :=
  of_lexemes rfl

theorem commas (cs : List Syntax) :
    FaithfulIff (slotsOf true cs) (lexemesOf (cs.map tight)) (blankCommas cs) := by
  induction cs with
  | nil => exact nil
  | cons c cs ih =>
    refine append ?_ ih
    cases c with
    | leaf l =>
      show FaithfulIff ((Syntax.leaf l).slots true) (tight (.leaf l)).lexemes
        (l.text != "," || l.lead.isBlank)
      by_cases hcomma : l.text = ","
      · have htight : tight (.leaf l) = .leaf { l with lead := .empty } := if_pos hcomma
        have hslot : (Syntax.leaf l).slots true = [⟨l, true⟩] := by simp [Syntax.slots, hcomma]
        have htest : (l.text != "," || l.lead.isBlank) = l.lead.isBlank := by simp [hcomma]
        rw [htight, hslot, htest]
        exact single (Slot.respells_lead_iff l rfl)
      · have htight : tight (.leaf l) = .leaf l := if_neg hcomma
        have htest : (l.text != "," || l.lead.isBlank) = true := by simp [hcomma]
        rw [htight, htest]
        exact leaf true l
    | node p ds => exact of_lexemes (Syntax.map_slots true _)

/-- The statements of a body, if each is printed as it was read when it is faithful. -/
theorem statements {items : List Syntax}
    (h : ∀ s ∈ items, ∀ inList, FaithfulIff (s.slots inList) (printed s) s.faithful)
    (inList : Bool) :
    FaithfulIff (slotsOf inList items) (printedItems items) (allFaithful items) := by
  induction items with
  | nil => exact nil
  | cons s items ih =>
    obtain ⟨hs, hitems⟩ := List.forall_mem_cons.mp h
    exact append (hs inList) (ih hitems)

end FaithfulIff

theorem length_leadWith (lead : Space) (ls : List Lexeme) :
    (leadWith lead ls).length = ls.length := by
  cases ls <;> rfl

theorem lexemesOf_throughLastSemicolon_pos {items : List Syntax} (h : items.any isSemicolon) :
    0 < (lexemesOf (throughLastSemicolon items)).length := by
  induction items with
  | nil => cases h
  | cons s items ih =>
    rw [throughLastSemicolon_cons, if_pos h]
    cases s with
    | leaf l =>
      rw [lexemesOf_leaf, List.length_cons]
      omega
    | node p cs =>
      have hpos := ih h
      rw [lexemesOf_node, List.length_append]
      omega

/-- The members of an enum. Those in front of a semicolon behind a member are printed twice. -/
theorem FaithfulIff.enumMembers {items : List Syntax}
    (h : ∀ s ∈ items, ∀ inList, FaithfulIff (s.slots inList) (printed s) s.faithful)
    (inList : Bool) :
    FaithfulIff (slotsOf inList items)
      (lexemesOf (throughLastSemicolon items) ++ printedMembers items)
      (endsInMembers items && allFaithful items) := by
  induction items with
  | nil => exact nil
  | cons s items ih =>
    obtain ⟨hs, hitems⟩ := List.forall_mem_cons.mp h
    have hmore := FaithfulIff.statements hitems inList
    cases s with
    | leaf l =>
      have hthrough : throughLastSemicolon (.leaf l :: items) =
          .leaf l :: throughLastSemicolon items := by
        rw [throughLastSemicolon_cons]
        rfl
      rw [hthrough]
      have hall := append (leaf inList l) (ih hitems)
      exact hall
    | node p cs =>
      have hends : endsInMembers (.node p cs :: items) = !items.any isSemicolon := by
        rw [List.not_any_eq_all_not]
        rfl
      rw [hends, throughLastSemicolon_cons, List.any_cons, show isSemicolon (.node p cs) = false from rfl,
        Bool.false_or, printedMembers]
      by_cases hany : items.any isSemicolon
      · have hpos := lexemesOf_throughLastSemicolon_pos hany
        have hsl := (hs inList).length_le
        have hml := hmore.length_le
        -- Every member is printed behind the constants, and the last semicolon with them as well.
        rw [hany, if_pos rfl, if_pos rfl]
        refine of_longer ?_
        simp only [slotsOf, List.length_append, length_leadWith, lexemesOf_node]
        omega
      · rw [Bool.eq_false_iff.mpr hany, if_neg Bool.false_ne_true, if_neg Bool.false_ne_true,
          lexemesOf_nil, List.nil_append, Bool.not_false, Bool.true_and]
        exact append (hs inList) hmore

/-! ## Statements -/

theorem FaithfulIff.braced {b i : Phrase} {first last : Lexeme} {items : List Syntax}
    (h : ∀ s ∈ items, ∀ inList, FaithfulIff (s.slots inList) (printed s) s.faithful)
    (inList : Bool) :
    FaithfulIff ((Syntax.node b [.leaf first, .node i items, .leaf last]).slots inList)
      (printedBody (.node b [.leaf first, .node i items, .leaf last]))
      (Syntax.node b [.leaf first, .node i items, .leaf last]).bodyFaithful := by
  have hbody := ((leaf (b == .declarators || b == .throwsPart) first).append
    (statements h (i == .declarators || i == .throwsPart))).append
      (leaf (b == .declarators || b == .throwsPart) last)
  rw [Bool.true_and, Bool.and_true] at hbody
  simpa [Syntax.slots, slotsOf, printedBody, Syntax.bodyFaithful] using hbody

theorem FaithfulIff.enum {b c i : Phrase} {first last : Lexeme} {constants items : List Syntax}
    (h : ∀ s ∈ items, ∀ inList, FaithfulIff (s.slots inList) (printed s) s.faithful)
    (inList : Bool) :
    FaithfulIff ((Syntax.node b [.leaf first, .node c constants, .node i items,
        .leaf last]).slots inList)
      (printedBody (.node b [.leaf first, .node c constants, .node i items, .leaf last]))
      (Syntax.node b [.leaf first, .node c constants, .node i items,
        .leaf last]).bodyFaithful := by
  have hbody := (((leaf (b == .declarators || b == .throwsPart) first).append
    (refl (c == .declarators || c == .throwsPart) constants)).append
      (enumMembers h (i == .declarators || i == .throwsPart))).append
        (leaf (b == .declarators || b == .throwsPart) last)
  rw [Bool.true_and, Bool.true_and, Bool.and_true] at hbody
  simpa [Syntax.slots, slotsOf, printedBody, Syntax.bodyFaithful, lexemesOf_append] using hbody

/-- A declaration that ends in a body. -/
theorem FaithfulIff.withBody (head : List Syntax) {body : Syntax}
    (hbody : FaithfulIff (body.slots false) (printedBody body) body.bodyFaithful) :
    FaithfulIff (slotsOf false (head ++ [body])) (lexemesOf head ++ printedBody body)
      body.bodyFaithful := by
  rw [slotsOf_append, slotsOf_singleton, ← Bool.true_and body.bodyFaithful]
  exact (refl false head).append hbody

theorem FaithfulIff.withThrows (front : List Syntax) {throwing : List Syntax} {body : Syntax}
    (hbody : FaithfulIff (body.slots false) (printedBody body) body.bodyFaithful) :
    FaithfulIff (slotsOf false (front ++ [.node .throwsPart throwing, body]))
      (lexemesOf (front ++ [.node .throwsPart (throwing.map tight)]) ++ printedBody body)
      (blankCommas throwing && body.bodyFaithful) := by
  have hall := ((refl false front).append (commas throwing)).append hbody
  rw [Bool.true_and] at hall
  simpa [slotsOf_append, slotsOf, Syntax.slots, lexemesOf_append] using hall

theorem faithful_of_raw {s : Syntax} (h : ∀ env id, statementOf env id s = rawOf id [s]) :
    s.faithful = true := by
  have hstatement := h ⟨default, [], ""⟩ 0
  unfold Syntax.faithful
  split
  · cases hstatement
  · cases hstatement
  · next body =>
    cases body with
    | leaf l => cases hstatement
    | node b cs => cases hstatement
  · rfl

/-- A statement is printed as it was read exactly if it is faithful. -/
theorem Shaped.faithfulIff {s : Syntax} (h : Shaped s) :
    ∀ inList, FaithfulIff (s.slots inList) (printed s) s.faithful := by
  induction h with
  | @type m b i modifiers items key name first last header _ _ _ _ _ ih =>
    exact fun _ => FaithfulIff.withBody [.node m modifiers, .leaf key, .leaf name, header]
      (FaithfulIff.braced ih false)
  | @enum m b c i modifiers constants items key name first last header _ _ _ _ _ _ ih =>
    exact fun _ => FaithfulIff.withBody [.node m modifiers, .leaf key, .leaf name, header]
      (FaithfulIff.enum ih false)
  | @vars m modifiers declarators type close =>
    intro _
    have hall := ((FaithfulIff.refl false [.node m modifiers, type]).append
      (FaithfulIff.commas declarators)).append (FaithfulIff.leaf false close)
    rw [Bool.true_and, Bool.and_true] at hall
    show FaithfulIff
      (slotsOf false [.node m modifiers, type, .node .declarators declarators, .leaf close])
      (lexemesOf [.node m modifiers, type, .node .declarators (declarators.map tight), .leaf close])
      (blankCommas declarators)
    simpa [slotsOf, Syntax.slots, lexemesOf, Syntax.lexemes] using hall
  | @signature m g p modifiers generic parameters throwing type dims name close =>
    exact fun _ => FaithfulIff.withThrows
      [.node m modifiers, .node g generic, type, .leaf name, .node p parameters, dims]
      (FaithfulIff.leaf false close)
  | @method m g p b i modifiers generic parameters throwing items type dims name first last
      _ _ _ _ _ _ _ _ ih =>
    exact fun _ => FaithfulIff.withThrows
      [.node m modifiers, .node g generic, type, .leaf name, .node p parameters, dims]
      (FaithfulIff.braced ih false)
  | @expression e o operand close =>
    exact fun inList => FaithfulIff.of_lexemes (Syntax.map_slots inList _)
  | raw h =>
    intro inList
    rw [printed_of_raw h, faithful_of_raw h]
    exact FaithfulIff.of_lexemes (Syntax.map_slots inList _)

/-! ## Imports -/

namespace FaithfulIff

/-- Free lexemes, the first of which is printed behind one blank. -/
theorem spaced {ls : List Lexeme} (h : ls ≠ []) :
    FaithfulIff (ls.map fun l => ⟨l, true⟩) (leadWith .single ls) (firstLead ls).isBlank := by
  cases ls with
  | nil => exact absurd rfl h
  | cons l ls =>
    have hfirst : FaithfulIff [⟨l, true⟩] [{ l with lead := .single }] l.lead.isBlank :=
      single (Slot.respells_lead_iff l (by decide))
    have hrest : FaithfulIff (ls.map fun l => ⟨l, true⟩) ls true := of_lexemes (by
      rw [List.map_map]
      exact List.map_id ls)
    have hall := hfirst.append hrest
    rwa [Bool.and_true] at hall

/-- Free lexemes that are printed with nothing before them. -/
theorem bare (ls : List Lexeme) :
    FaithfulIff (ls.map fun l => ⟨l, true⟩) (ls.map fun l => { l with lead := .empty })
      (ls.all (·.lead.isBlank)) := by
  induction ls with
  | nil => exact nil
  | cons l ls ih => exact append (single (Slot.respells_lead_iff l rfl)) ih

theorem importDecl {parts : List Syntax} (h : Conforms (Phrase.rule .importDecl) parts) :
    FaithfulIff (importSlots (lexemesOf parts)) (printedImport parts) (importFaithful parts) := by
  obtain ⟨key, q, names, tail, -, hnames, -, hparts⟩ := importDecl_eq h
  have hkey : FaithfulIff [⟨key, false⟩] [key] true := of_lexemes rfl
  have hname := spaced hnames
  have htail := bare (lexemesOf tail)
  rcases hparts with rfl | ⟨word, -, rfl⟩
  · have hall := hkey.append (hname.append htail)
    simpa [importSlots, printedImport, importFaithful, leadOf_eq, Syntax.lexemes,
      Bool.and_assoc] using hall
  · have hword : FaithfulIff [⟨word, true⟩] [{ word with lead := .single }] word.lead.isBlank :=
      single (Slot.respells_lead_iff word (by decide))
    have hall := hkey.append (hword.append (hname.append htail))
    simpa [importSlots, printedImport, importFaithful, leadOf_eq, Syntax.lexemes,
      Bool.and_assoc] using hall

end FaithfulIff

/-! ## Units -/

/-- The lexemes of one item as they are printed. -/
def printedItem : Syntax → List Lexeme
  | .node .importDecl parts => printedImport parts
  | s => printedTop s

def unitSlots (items : List Syntax) : List Slot := items.flatMap itemSlots

theorem map_itemSlots (s : Syntax) : (itemSlots s).map Slot.lexeme = s.lexemes := by
  unfold itemSlots
  split
  · next parts =>
    rw [Syntax.lexemes]
    cases lexemesOf parts with
    | nil => rfl
    | cons l ls =>
      rw [importSlots, List.map_cons, List.map_map]
      exact congrArg (l :: ·) (List.map_id ls)
  · exact Syntax.map_slots false s

/-- The slots of a unit are its lexemes. -/
theorem map_unitSlots (items : List Syntax) :
    (unitSlots items).map Slot.lexeme = lexemesOf items := by
  induction items with
  | nil => rfl
  | cons s items ih =>
    rw [lexemesOf, ← ih, ← map_itemSlots, ← List.map_append]
    rfl

theorem FaithfulIff.item {s : Syntax} (h : s.Valid) :
    FaithfulIff (itemSlots s) (printedItem s) (itemFaithful s) := by
  cases s with
  | leaf l => exact of_lexemes rfl
  | node p cs =>
    by_cases himport : p = .importDecl
    · subst himport
      exact importDecl h
    · by_cases htype : p = .typeDecl
      · subst htype
        exact h.shaped.faithfulIff false
      · have hslots : itemSlots (.node p cs) = (Syntax.node p cs).slots false := by
          cases p <;> first | rfl | exact absurd rfl himport
        have hprinted : printedItem (.node p cs) = (Syntax.node p cs).lexemes := by
          cases p <;> first | rfl | exact absurd rfl himport | exact absurd rfl htype
        have htest : itemFaithful (.node p cs) = true := by
          cases p <;> first | rfl | exact absurd rfl himport | exact absurd rfl htype
        rw [hslots, hprinted, htest]
        exact of_lexemes (Syntax.map_slots false _)

theorem FaithfulIff.unit {items : List Syntax} (h : ∀ s ∈ items, s.Valid) :
    FaithfulIff (unitSlots items) (items.flatMap printedItem) (items.all itemFaithful) := by
  induction items with
  | nil => exact nil
  | cons s items ih =>
    obtain ⟨hs, hitems⟩ := List.forall_mem_cons.mp h
    exact append (item hs) (ih hitems)

theorem printedItem_of_not_header {s : Syntax} (h : isHeader s = false) :
    printedItem s = printedTop s := by
  unfold printedItem
  split
  · cases h
  · rfl

/-- Behind the header, everything is printed where it stands. -/
theorem printed_rest {items : List Syntax} (h : items.all fun s => !isHeader s) :
    items.filterMap importParts = [] ∧
      (items.filter fun s => !isHeader s).flatMap printedTop = items.flatMap printedItem := by
  have hnone : ∀ s ∈ items, isHeader s = false := by
    simpa using h
  constructor
  · rw [List.filterMap_eq_nil_iff]
    intro s hs
    have hboth := hnone s hs
    rw [isHeader, Bool.or_eq_false_iff] at hboth
    simpa using hboth.2
  · rw [List.filter_eq_self.mpr (List.all_eq_true.mp h)]
    exact List.flatMap_congr fun s hs => (printedItem_of_not_header (hnone s hs)).symm

/-- Imports in front of everything else are printed where they stand. -/
theorem printed_imports_then_rest {items : List Syntax}
    (hpackage : items.all fun s => (packageParts s).isNone)
    (hheader : (items.dropWhile isHeader).all fun s => !isHeader s) :
    (items.filterMap importParts).flatMap printedImport ++
        (items.filter fun s => !isHeader s).flatMap printedTop = items.flatMap printedItem := by
  induction items with
  | nil => rfl
  | cons s items ih =>
    by_cases hs : isHeader s
    · rw [List.all_cons, Bool.and_eq_true] at hpackage
      rw [List.dropWhile_cons_of_pos hs] at hheader
      have hsome : (importParts s).isSome := by
        rw [isHeader, Option.isNone_iff_eq_none.mp hpackage.1] at hs
        exact hs
      obtain ⟨parts, hparts⟩ := Option.isSome_iff_exists.mp hsome
      rw [List.filterMap_cons_some hparts, List.filter_cons_of_neg (by simp [hs]), List.flatMap_cons,
        List.flatMap_cons, List.append_assoc, ih hpackage.2 hheader, eq_of_importParts hparts]
      rfl
    · rw [List.dropWhile_cons_of_neg hs] at hheader
      obtain ⟨hnil, hrest⟩ := printed_rest hheader
      rw [hnil, hrest]
      rfl

/-- If no package declaration stands behind an import, every item is printed where it stands. -/
theorem printedUnit_of_package_first {items : List Syntax} (hheader : headerFirst items)
    (hpackage : (items.drop 1).all fun s => (packageParts s).isNone) :
    printedUnit items = items.flatMap printedItem := by
  obtain ⟨-, hheader⟩ := Bool.and_eq_true_iff.mp hheader
  cases items with
  | nil => rfl
  | cons s items =>
    rw [show (s :: items).drop 1 = items from rfl] at hpackage
    have hmore : items.filterMap packageParts = [] := by
      rw [List.filterMap_eq_nil_iff]
      simpa using hpackage
    unfold printedUnit
    cases hs : packageParts s with
    | none =>
      rw [List.filterMap_cons_none hs, hmore]
      refine printed_imports_then_rest ?_ hheader
      rw [List.all_cons, hs]
      exact hpackage
    | some parts =>
      have hhead : isHeader s := by
        rw [isHeader, hs]
        rfl
      have himport : importParts s = none := by
        rw [eq_of_packageParts hs]
        rfl
      rw [List.dropWhile_cons_of_pos hhead] at hheader
      rw [List.filterMap_cons_some hs, hmore, List.filterMap_cons_none himport,
        List.filter_cons_of_neg (by simp [hhead]), List.append_assoc,
        printed_imports_then_rest hpackage hheader, eq_of_packageParts hs]
      rfl

/-- A package declaration begins with an annotation or its key word. -/
theorem lexemesOf_packageDecl {parts : List Syntax} (h : Conforms (Phrase.rule .packageDecl) parts) :
    ∃ l ls, lexemesOf parts = l :: ls ∧ l.text ≠ "import" := by
  rw [show Phrase.rule .packageDecl = Rule.seq [.many (.phrase .annot), "package",
    Phrase.qualified, ";"] from rfl] at h
  obtain ⟨annotations, hannotations, rest, hrest, rfl⟩ := Conforms.seq_cons_iff.mp h
  obtain ⟨key, hkey, names, -, rfl⟩ := Conforms.seq_token_iff.mp hrest
  obtain ⟨annots, hannots, rfl⟩ := Conforms.many_iff.mp hannotations
  cases annots with
  | nil => exact ⟨key, _, rfl, by rw [hkey]; decide⟩
  | cons annot annots =>
    obtain ⟨cs, hcs, rfl⟩ := Conforms.phrase_iff.mp (hannots annot List.mem_cons_self)
    rw [show Phrase.rule .annot = Rule.seq ["@", Phrase.qualified,
      Rule.optional Phrase.annotationArguments] from rfl, Conforms.seq_token_iff] at hcs
    obtain ⟨mark, hmark, name, -, rfl⟩ := hcs
    exact ⟨mark, _, rfl, by rw [hmark]; decide⟩

theorem importSlots_eq {parts : List Syntax} (h : Conforms (Phrase.rule .importDecl) parts) :
    ∃ key slots, importSlots (lexemesOf parts) = ⟨key, false⟩ :: slots ∧ key.text = "import" := by
  obtain ⟨key, q, name, tail, hkey, -, -, rfl | ⟨word, -, rfl⟩⟩ := importDecl_eq h
  · exact ⟨key, _, rfl, hkey⟩
  · exact ⟨key, _, rfl, hkey⟩

/-- Behind an import, the package declaration is moved in front of it. -/
theorem not_respells_of_package_behind {items : List Syntax} (hvalid : ∀ s ∈ items, s.Valid)
    (hheader : headerFirst items)
    (hpackage : (items.drop 1).all (fun s => (packageParts s).isNone) = false) :
    ¬ Respells (unitSlots items) (printedUnit items) := by
  obtain ⟨hone, hheader⟩ := Bool.and_eq_true_iff.mp hheader
  cases items with
  | nil => cases hpackage
  | cons s items =>
    obtain ⟨t, ht, hsome⟩ : ∃ t ∈ items, ¬ packageParts t = none := by
      simpa using hpackage
    obtain ⟨parts, hparts⟩ := Option.ne_none_iff_exists'.mp hsome
    have hlater : parts ∈ items.filterMap packageParts := List.mem_filterMap.mpr ⟨t, ht, hparts⟩
    have hnone : packageParts s = none := by
      cases hs : packageParts s with
      | none => rfl
      | some first =>
        have hlength := List.length_pos_of_mem hlater
        rw [List.filterMap_cons_some hs, List.length_cons, decide_eq_true_eq] at hone
        omega
    have hfirst : isHeader s := by
      by_contra hs
      rw [List.dropWhile_cons_of_neg hs] at hheader
      have hnot := List.all_eq_true.mp hheader t (List.mem_cons_of_mem _ ht)
      rw [isHeader, hparts] at hnot
      cases hnot
    have himport : (importParts s).isSome := by
      rw [isHeader, hnone] at hfirst
      exact hfirst
    obtain ⟨names, hnames⟩ := Option.isSome_iff_exists.mp himport
    obtain rfl := eq_of_importParts hnames
    obtain ⟨key, slots, hslots, hkey⟩ := importSlots_eq (hvalid _ List.mem_cons_self)
    have hlast := List.getLast?_eq_some_getLast (List.ne_nil_of_mem hlater)
    obtain ⟨r, hr, hpackageParts⟩ := List.mem_filterMap.mp (List.mem_of_getLast? hlast)
    obtain rfl := eq_of_packageParts hpackageParts
    obtain ⟨l, ls, hlexemes, hl⟩ := lexemesOf_packageDecl (hvalid _ (List.mem_cons_of_mem _ hr))
    -- The first slot is the key word of the import, the first lexeme begins the package declaration.
    intro hrespells
    have hunit : unitSlots (.node .importDecl names :: items) =
        ⟨key, false⟩ :: slots ++ unitSlots items := congrArg (· ++ _) hslots
    unfold Respells printedUnit at hrespells
    rw [hunit, List.cons_append, List.filterMap_cons_none hnone, hlast, Option.getD_some, hlexemes, List.cons_append,
      List.cons_append, List.forall₂_cons] at hrespells
    exact hl (hrespells.1.2.1.trans hkey)

/-- A unit with its header in front is printed as it was read exactly if it is faithful. -/
theorem respells_printedUnit {items : List Syntax} (hvalid : ∀ s ∈ items, s.Valid)
    (hheader : headerFirst items) :
    Respells (unitSlots items) (printedUnit items) ↔ unitFaithful items := by
  unfold unitFaithful
  by_cases hpackage : (items.drop 1).all fun s => (packageParts s).isNone
  · rw [hpackage, Bool.true_and, printedUnit_of_package_first hheader hpackage]
    exact (FaithfulIff.unit hvalid).iff
  · rw [Bool.eq_false_iff.mpr hpackage, Bool.false_and]
    exact iff_of_false
      (not_respells_of_package_behind hvalid hheader (Bool.eq_false_iff.mpr hpackage))
      Bool.false_ne_true

/-- A source is its lexemes and the space behind the last one, and the unit read from it prints
lexemes and that space. If the header of the source comes first, these are the same lexemes in the
same order, with blanks changed at most inside imports and before commas of declarators and
exceptions, exactly if the source is faithful. -/
theorem prints_back_iff_faithful {classpath : Classpath} {path source : String}
    {u : CompilationUnit} (h : parse? classpath path source = some u) :
    ∃ items close, readUnit source = some (items, close) ∧
      source = printLexemes ((unitSlots items).map Slot.lexeme) ++ close.text ∧
      u.print = printLexemes (printedUnit items) ++ close.text ∧
      (headerFirst items →
        (Respells (unitSlots items) (printedUnit items) ↔ unitFaithful items)) := by
  unfold parse? at h
  obtain ⟨⟨items, close⟩, hread, rfl⟩ := Option.map_eq_some_iff.mp h
  have hvalid := readUnit_valid hread
  refine ⟨items, close, hread, ?_, print_unitOf hvalid _ path close, respells_printedUnit hvalid⟩
  rw [map_unitSlots, readUnit_lossless hread]

/-- An enum behind an import, with blanks where they are not kept. -/
def spacedSource : String :=
  "import a . B ;\nenum E \x7b X; int a , b; void m() throws T , U; \x7d\n"

set_option maxRecDepth 100000 in
theorem parses_spacedSource : (parse? {} "E.java" spacedSource).isSome := by decide +kernel

set_option maxRecDepth 100000 in
theorem faithful_spacedSource : (readUnit spacedSource).all fun read =>
    headerFirst read.1 && unitFaithful read.1 := by decide +kernel

theorem spacedSource_prints_back : ∃ u items close, parse? {} "E.java" spacedSource = some u ∧
    readUnit spacedSource = some (items, close) ∧ headerFirst items ∧
      spacedSource = printLexemes ((unitSlots items).map Slot.lexeme) ++ close.text ∧
      u.print = printLexemes (printedUnit items) ++ close.text ∧
      Respells (unitSlots items) (printedUnit items) := by
  obtain ⟨u, hu⟩ := Option.isSome_iff_exists.mp parses_spacedSource
  obtain ⟨items, close, hread, hsource, hprint, hiff⟩ := prints_back_iff_faithful hu
  have htest := faithful_spacedSource
  rw [hread, Option.all_some, Bool.and_eq_true] at htest
  exact ⟨u, items, close, hu, hread, htest.1, hsource, hprint, (hiff htest.1).mpr htest.2⟩

/-- An enum with a semicolon behind a member. -/
def doubledSource : String := "enum E \x7b A; int x; ; int y; \x7d"

set_option maxRecDepth 100000 in
theorem not_faithful_doubledSource : (readUnit doubledSource).any fun read =>
    headerFirst read.1 && !unitFaithful read.1 := by decide +kernel

set_option maxRecDepth 100000 in
/-- What stands in front of the last semicolon is printed twice. -/
theorem enum_members_print_twice :
    (parse? {} "A.java" doubledSource).map CompilationUnit.print =
        some "enum E \x7b A; int x; ;int x; ; int y; \x7d" ∧
      ∃ items close, readUnit doubledSource = some (items, close) ∧ headerFirst items ∧
        ¬ Respells (unitSlots items) (printedUnit items) := by
  refine ⟨by decide +kernel, ?_⟩
  obtain ⟨⟨items, close⟩, hread, htest⟩ := (Option.any_eq_true _ _).mp not_faithful_doubledSource
  rw [Bool.and_eq_true, Bool.not_eq_true'] at htest
  refine ⟨items, close, hread, htest.1, ?_⟩
  rw [respells_printedUnit (readUnit_valid hread) htest.1, htest.2]
  exact Bool.false_ne_true

end JavaMigration.Java
