import JavaMigration.Proofs.Java.Faithful

/-!
# When statements print exactly

Between the braces of a class or a method nothing may be respelled but the blanks before some commas.
So statements print as exactly the lexemes they were read from if and only if there is nothing before
those commas and no enum has a semicolon behind a member (`printedItems_eq_iff`).
-/

namespace JavaMigration.Java

open Source

/-- There is nothing before the commas of a list. -/
def tightCommas (cs : List Syntax) : Bool :=
  cs.all fun
    | .leaf l => l.text != "," || l.lead.isEmpty
    | .node .. => true

mutual

/-- A statement that prints exactly as it was read. -/
def Syntax.exact : Syntax → Bool
  | .node .typeDecl [.node _ _, .leaf _, .leaf _, _, body] => body.bodyExact
  | .node .vars [.node _ _, _, .node _ declarators, .leaf _] => tightCommas declarators
  | .node .method [.node _ _, .node _ _, _, .leaf _, .node _ _, _, .node _ throwing, body] =>
    tightCommas throwing && body.bodyExact
  | _ => true

def Syntax.bodyExact : Syntax → Bool
  | .node _ [.leaf _, .node _ items, .leaf _] => allExact items
  | .node _ [.leaf _, .node _ _, .node _ members, .leaf _] =>
    endsInMembers members && allExact members
  | _ => true

def allExact : List Syntax → Bool
  | [] => true
  | s :: rest => s.exact && allExact rest

end

/-! ## Parts -/

/-- If no part gets shorter, the whole is the same exactly if both parts are. -/
theorem append_eq_append_iff_of_le {α : Type} {as bs cs ds : List α} (hac : cs.length ≤ as.length)
    (hbd : ds.length ≤ bs.length) : as ++ bs = cs ++ ds ↔ as = cs ∧ bs = ds := by
  constructor
  · intro h
    have hlength := congrArg List.length h
    simp only [List.length_append] at hlength
    exact List.append_inj h (by omega)
  · rintro ⟨rfl, rfl⟩
    rfl

theorem Shaped.length_le {s : Syntax} (h : Shaped s) : s.lexemes.length ≤ (printed s).length := by
  have hle := (h.faithfulIff false).length_le
  rwa [← List.length_map (f := Slot.lexeme), Syntax.map_slots] at hle

theorem length_lexemes_tight (c : Syntax) : (tight c).lexemes.length = c.lexemes.length := by
  simpa using congrArg List.length (texts_tight c)

theorem length_lexemesOf_tight (cs : List Syntax) :
    (lexemesOf (cs.map tight)).length = (lexemesOf cs).length := by
  simpa using congrArg List.length (texts_lexemesOf_tight cs)

theorem lexemesOf_tight_eq_iff (cs : List Syntax) :
    lexemesOf (cs.map tight) = lexemesOf cs ↔ tightCommas cs := by
  induction cs with
  | nil => exact iff_of_true rfl rfl
  | cons c cs ih =>
    have hall : tightCommas (c :: cs) = (tightCommas [c] && tightCommas cs) := by
      simp [tightCommas]
    have hone : (tight c).lexemes = c.lexemes ↔ tightCommas [c] := by
      cases c with
      | leaf l =>
        by_cases hcomma : l.text = ","
        · have htest : tightCommas [.leaf l] = l.lead.isEmpty := by simp [tightCommas, hcomma]
          have hempty : l.lead.isEmpty ↔ Space.empty = l.lead := by
            rw [Space.isEmpty, String.isEmpty_iff]
            exact ⟨fun h => congrArg Space.mk h.symm, fun h => (congrArg Space.text h).symm⟩
          rw [show tight (.leaf l) = .leaf { l with lead := .empty } from if_pos hcomma, htest, hempty]
          exact ⟨fun h => congrArg Lexeme.lead (List.singleton_inj.mp h), fun h => by rw [h]⟩
        · rw [show tight (.leaf l) = .leaf l from if_neg hcomma]
          exact iff_of_true rfl (by simp [tightCommas, hcomma])
      | node p ds => exact iff_of_true rfl rfl
    rw [List.map_cons, lexemesOf, lexemesOf, hall, Bool.and_eq_true, ← hone, ← ih]
    constructor
    · exact fun h => List.append_inj h (length_lexemes_tight c)
    · rintro ⟨hc, hcs⟩
      rw [hc, hcs]

/-- Statements print exactly if each of them does. -/
theorem printedItems_eq_iff_of {items : List Syntax} (hshaped : ∀ s ∈ items, Shaped s)
    (h : ∀ s ∈ items, printed s = s.lexemes ↔ s.exact) :
    printedItems items = lexemesOf items ↔ allExact items := by
  induction items with
  | nil => exact iff_of_true rfl rfl
  | cons s items ih =>
    obtain ⟨hs, hitems⟩ := List.forall_mem_cons.mp h
    obtain ⟨hfirst, hmore⟩ := List.forall_mem_cons.mp hshaped
    have hle : (lexemesOf items).length ≤ (printedItems items).length := by
      have hslots := (FaithfulIff.statements (fun s hs => (hmore s hs).faithfulIff) false).length_le
      rwa [← List.length_map (f := Slot.lexeme), map_slotsOf] at hslots
    rw [printedItems, lexemesOf, allExact, append_eq_append_iff_of_le hfirst.length_le hle, hs,
      ih hmore hitems, Bool.and_eq_true]

/-- An enum that prints exactly has no semicolon behind a member. -/
theorem enumMembers_eq_iff {items : List Syntax} (hshaped : ∀ s ∈ items, Shaped s)
    (h : ∀ s ∈ items, printed s = s.lexemes ↔ s.exact) :
    lexemesOf (throughLastSemicolon items) ++ printedMembers items = lexemesOf items ↔
      endsInMembers items && allExact items := by
  induction items with
  | nil => exact iff_of_true rfl rfl
  | cons s items ih =>
    obtain ⟨hfirst, hmore⟩ := List.forall_mem_cons.mp hshaped
    obtain ⟨hs, hitems⟩ := List.forall_mem_cons.mp h
    cases s with
    | leaf l =>
      have hthrough : throughLastSemicolon (.leaf l :: items) =
          .leaf l :: throughLastSemicolon items := by
        rw [throughLastSemicolon_cons]
        rfl
      have hmembers : printedMembers (.leaf l :: items) = printedMembers items := rfl
      have hends : endsInMembers (.leaf l :: items) = endsInMembers items := rfl
      rw [hthrough, hmembers, hends, lexemesOf_leaf, lexemesOf_leaf, List.cons_append,
        List.cons_inj_right, ih hmore hitems, allExact]
      rfl
    | node p cs =>
      have hends : endsInMembers (.node p cs :: items) = !items.any isSemicolon := by
        rw [List.not_any_eq_all_not]
        rfl
      by_cases hany : items.any isSemicolon
      · rw [hends, hany]
        refine iff_of_false (fun heq => ?_) Bool.false_ne_true
        have hfaithful := FaithfulIff.enumMembers (fun s hs => (hshaped s hs).faithfulIff) false
        have hrespells := (FaithfulIff.of_lexemes (map_slotsOf false (.node p cs :: items))).iff.mpr rfl
        rw [← heq, hfaithful.iff, hends, hany] at hrespells
        cases hrespells
      · have hthrough : throughLastSemicolon (.node p cs :: items) = [] := by
          rw [throughLastSemicolon_cons, if_neg]
          exact hany
        have hmembers : printedMembers (.node p cs :: items) = printedItems (.node p cs :: items) := by
          rw [printedMembers, if_neg hany, printedItems]
        rw [hthrough, hmembers, hends, Bool.eq_false_iff.mpr hany, lexemesOf_nil, List.nil_append,
          printedItems_eq_iff_of hshaped h, Bool.not_false, Bool.true_and]

theorem exact_of_raw {s : Syntax} (h : ∀ env id, statementOf env id s = rawOf id [s]) :
    s.exact = true := by
  have hstatement := h ⟨default, [], ""⟩ 0
  unfold Syntax.exact
  split
  · cases hstatement
  · cases hstatement
  · next body =>
    cases body with
    | leaf l => cases hstatement
    | node b cs => cases hstatement
  · rfl

/-! ## Statements -/

theorem braced_eq_iff {b i : Phrase} {first last : Lexeme} {items : List Syntax}
    (hshaped : ∀ s ∈ items, Shaped s) (h : ∀ s ∈ items, printed s = s.lexemes ↔ s.exact) :
    printedBody (.node b [.leaf first, .node i items, .leaf last]) =
      (Syntax.node b [.leaf first, .node i items, .leaf last]).lexemes ↔
        (Syntax.node b [.leaf first, .node i items, .leaf last]).bodyExact := by
  rw [Syntax.bodyExact, ← printedItems_eq_iff_of hshaped h]
  simp [printedBody, Syntax.lexemes]

theorem enum_eq_iff {b c i : Phrase} {first last : Lexeme} {constants items : List Syntax}
    (hshaped : ∀ s ∈ items, Shaped s) (h : ∀ s ∈ items, printed s = s.lexemes ↔ s.exact) :
    printedBody (.node b [.leaf first, .node c constants, .node i items, .leaf last]) =
      (Syntax.node b [.leaf first, .node c constants, .node i items, .leaf last]).lexemes ↔
        (Syntax.node b [.leaf first, .node c constants, .node i items, .leaf last]).bodyExact := by
  have hprinted : printedBody (.node b [.leaf first, .node c constants, .node i items, .leaf last]) =
      first :: (lexemesOf constants ++
        ((lexemesOf (throughLastSemicolon items) ++ printedMembers items) ++ [last])) := by
    simp [printedBody, lexemesOf_append]
  have hread : (Syntax.node b [.leaf first, .node c constants, .node i items, .leaf last]).lexemes =
      first :: (lexemesOf constants ++ (lexemesOf items ++ [last])) := by
    simp [Syntax.lexemes]
  rw [Syntax.bodyExact, ← enumMembers_eq_iff hshaped h, hprinted, hread, List.cons_inj_right,
    List.append_right_inj, List.append_left_inj]

/-- A declaration that ends in a body is printed exactly if the body is. -/
theorem withBody_eq_iff (head : List Syntax) {body : Syntax} {test : Bool}
    (h : printedBody body = body.lexemes ↔ test) :
    lexemesOf head ++ printedBody body = lexemesOf (head ++ [body]) ↔ test := by
  rw [lexemesOf_append, lexemesOf_singleton, List.append_right_inj, h]

theorem withThrows_eq_iff (head : List Syntax) {throwing : List Syntax} {body : Syntax} {test : Bool}
    (h : printedBody body = body.lexemes ↔ test) :
    lexemesOf (head ++ [.node .throwsPart (throwing.map tight)]) ++ printedBody body =
        lexemesOf (head ++ [.node .throwsPart throwing, body]) ↔
      tightCommas throwing && test := by
  rw [Bool.and_eq_true, ← lexemesOf_tight_eq_iff, ← h, lexemesOf_append, lexemesOf_append,
    List.append_assoc, List.append_right_inj, lexemesOf_singleton, lexemesOf, lexemesOf_singleton,
    Syntax.lexemes, Syntax.lexemes]
  constructor
  · exact fun heq => List.append_inj heq (length_lexemesOf_tight throwing)
  · rintro ⟨hthrowing, hbody⟩
    rw [hthrowing, hbody]

/-- A statement is printed as its lexemes exactly if it is exact. -/
theorem Shaped.printed_eq_iff {s : Syntax} (h : Shaped s) : printed s = s.lexemes ↔ s.exact := by
  induction h with
  | @type m b i modifiers items key name first last header _ _ _ _ hitems ih =>
    exact withBody_eq_iff [.node m modifiers, .leaf key, .leaf name, header]
      (braced_eq_iff hitems ih)
  | @enum m b c i modifiers constants items key name first last header _ _ _ _ _ hitems ih =>
    exact withBody_eq_iff [.node m modifiers, .leaf key, .leaf name, header]
      (enum_eq_iff hitems ih)
  | @vars m modifiers declarators type close =>
    show lexemesOf [.node m modifiers, type, .node .declarators (declarators.map tight),
      .leaf close] = lexemesOf [.node m modifiers, type, .node .declarators declarators,
      .leaf close] ↔ tightCommas declarators
    rw [← lexemesOf_tight_eq_iff]
    simp only [lexemesOf, Syntax.lexemes, List.append_cancel_left_eq, List.append_cancel_right_eq]
  | @signature m g p modifiers generic parameters throwing type dims name close =>
    exact withThrows_eq_iff
      [.node m modifiers, .node g generic, type, .leaf name, .node p parameters, dims]
      (iff_of_true rfl rfl)
  | @method m g p b i modifiers generic parameters throwing items type dims name first last
      _ _ _ _ _ _ _ hitems ih =>
    exact withThrows_eq_iff
      [.node m modifiers, .node g generic, type, .leaf name, .node p parameters, dims]
      (braced_eq_iff hitems ih)
  | expression => exact iff_of_true rfl rfl
  | raw h => exact iff_of_true (printed_of_raw h) (exact_of_raw h)

/-- Statements print as the lexemes they were read from exactly if they are exact. -/
theorem printedItems_eq_iff {items : List Syntax} (h : ∀ s ∈ items, s.Valid) :
    printedItems items = lexemesOf items ↔ allExact items :=
  printedItems_eq_iff_of (fun s hs => (h s hs).shaped) fun s hs => (h s hs).shaped.printed_eq_iff

end JavaMigration.Java
