import JavaMigration.Proofs.Java.Built
import JavaMigration.Proofs.Java.Lexing
import JavaMigration.Proofs.Source.Printing

/-!
# Parts of declarations print as they were read

The tree builder moves the space in front of a declaration from its first part to the declaration,
and keeps the elements of a list without the commas between them. Printed in order, modifiers,
types, declarators and exceptions are the text of their syntax trees, with nothing before a comma.
-/

namespace JavaMigration.Java

open Source

/-! ## Lexemes and their spaces -/

/-- The space before the first lexeme. -/
def firstLead : List Lexeme → Space
  | [] => .empty
  | l :: _ => l.lead

/-- The lexemes with another space before the first one. -/
def leadWith (lead : Space) : List Lexeme → List Lexeme
  | [] => []
  | l :: ls => { l with lead } :: ls

/-- A comma with nothing before it; every other child as it is. -/
def tight : Syntax → Syntax
  | .leaf l => if l.text = "," then .leaf { l with lead := .empty } else .leaf l
  | .node p cs => .node p cs

theorem texts_leadWith (lead : Space) (ls : List Lexeme) :
    (leadWith lead ls).map (·.text) = ls.map (·.text) := by
  cases ls <;> rfl

/-- A comma without its space is still a comma. -/
theorem texts_tight (c : Syntax) : (tight c).lexemes.map (·.text) = c.lexemes.map (·.text) := by
  cases c with
  | leaf l =>
    rw [tight]
    split <;> rfl
  | node p cs => rfl

theorem texts_lexemesOf_tight (cs : List Syntax) :
    (lexemesOf (cs.map tight)).map (·.text) = (lexemesOf cs).map (·.text) := by
  induction cs with
  | nil => rfl
  | cons c cs ih =>
    rw [List.map_cons, lexemesOf, lexemesOf, List.map_append, List.map_append, texts_tight, ih]

theorem leadOf_eq (cs : List Syntax) : leadOf cs = firstLead (lexemesOf cs) := rfl

theorem firstLead_append {ls : List Lexeme} (h : ls ≠ []) (ms : List Lexeme) :
    firstLead (ls ++ ms) = firstLead ls := by
  cases ls with
  | nil => exact absurd rfl h
  | cons l ls => rfl

theorem leadWith_append {ls : List Lexeme} (h : ls ≠ []) (lead : Space) (ms : List Lexeme) :
    leadWith lead (ls ++ ms) = leadWith lead ls ++ ms := by
  cases ls with
  | nil => exact absurd rfl h
  | cons l ls => rfl

/-- The space before the first lexeme is printed in front of the rest. -/
theorem printLexemes_eq (ls : List Lexeme) :
    printLexemes ls = (firstLead ls).text ++ printLexemes (leadWith .empty ls) := by
  cases ls with
  | nil => rfl
  | cons l ls =>
    rw [leadWith, printLexemes_cons, printLexemes_cons, firstLead, Space.text_empty, String.empty_append,
      String.append_assoc]

theorem textOf_eq (cs : List Syntax) : textOf cs = printLexemes (leadWith .empty (lexemesOf cs)) := by
  unfold textOf
  cases lexemesOf cs with
  | nil => rfl
  | cons l ls =>
    rw [leadWith, printLexemes_cons, Space.text_empty, String.empty_append]

theorem leadOf_append_textOf (cs : List Syntax) : (leadOf cs).text ++ textOf cs = printSyntax cs := by
  rw [textOf_eq, leadOf_eq, ← printLexemes_eq]
  rfl

theorem printSyntax_append (cs ds : List Syntax) :
    printSyntax (cs ++ ds) = printSyntax cs ++ printSyntax ds := by
  unfold printSyntax
  rw [lexemesOf_append, printLexemes_append]

theorem printSyntax_cons (s : Syntax) (cs : List Syntax) :
    printSyntax (s :: cs) = printSyntax [s] ++ printSyntax cs := printSyntax_append [s] cs

@[simp] theorem printSyntax_nil : printSyntax [] = "" := rfl

theorem printSyntax_node (p : Phrase) (cs : List Syntax) :
    printSyntax [.node p cs] = printSyntax cs := by
  unfold printSyntax
  rw [lexemesOf_node, lexemesOf_nil, List.append_nil]

theorem leadOf_node (p : Phrase) (cs ds : List Syntax) :
    leadOf (.node p cs :: ds) = leadOf (cs ++ ds) := by
  rw [leadOf_eq, leadOf_eq, lexemesOf_node, lexemesOf_append]

theorem printSyntax_leaf (l : Lexeme) : printSyntax [.leaf l] = l.lead.text ++ l.text := by
  unfold printSyntax
  rw [lexemesOf_leaf, lexemesOf_nil, printLexemes_cons, printLexemes_nil, String.append_empty]

/-! ## Parts of declarations -/

theorem Syntax.Leading.lexemes_ne_nil {s : Syntax} (h : s.Leading) : s.lexemes ≠ [] := by
  match s, h with
  | .leaf l, _ => exact List.cons_ne_nil _ _
  | .node p (.leaf l :: cs), _ => exact List.cons_ne_nil _ _

theorem Syntax.Leading.lexemes_clearLead {s : Syntax} (h : s.Leading) :
    s.clearLead.lexemes = leadWith .empty s.lexemes := by
  match s, h with
  | .leaf l, _ => rfl
  | .node p (.leaf l :: cs), _ => rfl

theorem Syntax.Leading.clearLead {s : Syntax} (h : s.Leading) : s.clearLead.Leading := by
  match s, h with
  | .leaf l, _ => exact trivial
  | .node p (.leaf l :: cs), h => exact h

/-- Behind something that leads, only the first space is cleared. -/
theorem clearLead_cons {s : Syntax} (h : s.Leading) (rest : List Syntax) :
    Java.clearLead (s :: rest) = s.clearLead :: rest := by
  match s, h with
  | .leaf l, _ => rfl
  | .node p (.leaf l :: cs), _ => rfl

theorem lexemesOf_clearLead {cs : List Syntax} (h : ∀ s ∈ cs.head?, s.Leading) :
    lexemesOf (clearLead cs) = leadWith .empty (lexemesOf cs) := by
  cases cs with
  | nil => rfl
  | cons s cs =>
    have hs := h s rfl
    rw [clearLead_cons hs, lexemesOf, lexemesOf, hs.lexemes_clearLead,
      leadWith_append hs.lexemes_ne_nil]

theorem leading_clearLead {cs : List Syntax} (h : ∀ s ∈ cs, s.Leading) :
    ∀ s ∈ clearLead cs, s.Leading := by
  cases cs with
  | nil => exact nofun
  | cons s cs =>
    obtain ⟨hs, hcs⟩ := List.forall_mem_cons.mp h
    rw [clearLead_cons hs]
    exact List.forall_mem_cons.mpr ⟨hs.clearLead, hcs⟩

theorem print_identifierOf (resolver : Resolver) (s : Syntax) :
    (identifierOf resolver s).print = printSyntax [s] := leadOf_append_textOf [s]

theorem print_modifierOf (s : Syntax) : (modifierOf s).print = printSyntax [s] :=
  leadOf_append_textOf [s]

theorem join_print_modifierOf (cs : List Syntax) :
    String.join ((cs.map modifierOf).map Modifier.print) = printSyntax cs := by
  induction cs with
  | nil => rfl
  | cons s cs ih =>
    rw [List.map_cons, List.map_cons, String.join_cons, ih, print_modifierOf, ← printSyntax_cons]

theorem print_annotation? {resolver : Resolver} {s : Syntax} {a : Annotation} (hs : s.Leading)
    (h : annotation? resolver s = some a) : a.print = printSyntax [s] := by
  unfold annotation? at h
  split at h
  · next mark name arguments =>
    cases h
    have hmark : mark.text = "@" := hs rfl
    have harguments : (if arguments.isEmpty then none else some (printSyntax arguments)).getD "" =
        printSyntax arguments := by
      cases arguments <;> rfl
    rw [printSyntax_node, printSyntax_cons, printSyntax_leaf, printSyntax_cons, Annotation.print,
      print_identifierOf, harguments, hmark, String.append_assoc]
  · cases h

/-- The annotations and modifiers of a declaration print as they were read. -/
theorem print_leadingOf (resolver : Resolver) {cs : List Syntax} (h : ∀ s ∈ cs, s.Leading) :
    printLeading (leadingOf resolver cs).1 (leadingOf resolver cs).2 = printSyntax cs := by
  induction cs with
  | nil => rfl
  | cons s cs ih =>
    obtain ⟨hs, hcs⟩ := List.forall_mem_cons.mp h
    unfold leadingOf
    split
    · next a ha =>
      rw [printSyntax_cons, ← print_annotation? hs ha, ← ih hcs]
      unfold printLeading
      rw [List.map_cons, String.join_cons, String.append_assoc]
    · unfold printLeading
      rw [join_print_modifierOf, List.map_nil, String.join_nil, String.empty_append]

/-- The space in front of a declaration is moved there from its first part. -/
theorem print_clearLead {cs : List Syntax} (hne : cs ≠ []) (h : ∀ s ∈ cs.head?, s.Leading)
    (ds : List Syntax) :
    (leadOf (cs ++ ds)).text ++ printSyntax (clearLead cs) = printSyntax cs := by
  have hlexemes : lexemesOf cs ≠ [] := by
    cases cs with
    | nil => exact absurd rfl hne
    | cons s cs =>
      rw [lexemesOf]
      exact List.append_ne_nil_of_left_ne_nil (h s rfl).lexemes_ne_nil _
  unfold printSyntax
  rw [leadOf_eq, lexemesOf_append, firstLead_append hlexemes, lexemesOf_clearLead h,
    ← printLexemes_eq]

/-- What a declaration begins with: its modifiers, and what stands behind them. -/
theorem print_modifiers (resolver : Resolver) {modifiers : List Syntax}
    (h : ∀ s ∈ modifiers, s.Leading) (next : Syntax) :
    (leadOf (modifiers ++ [next])).text ++
        printLeading (leadingOf resolver (clearLead modifiers)).1
          (leadingOf resolver (clearLead modifiers)).2 ++
        ((if modifiers.isEmpty then Space.empty else leadOf [next]).text ++ textOf [next]) =
      printSyntax (modifiers ++ [next]) := by
  by_cases hne : modifiers = []
  · subst hne
    rw [show printLeading (leadingOf resolver (clearLead [])).1 _ = "" from rfl, String.append_empty,
      List.isEmpty_nil, if_pos rfl, Space.text_empty, String.empty_append]
    exact leadOf_append_textOf [next]
  · rw [print_leadingOf _ (leading_clearLead h),
      print_clearLead hne fun s hs => h s (List.mem_of_mem_head? hs),
      if_neg (by simpa using hne), leadOf_append_textOf, ← printSyntax_append]

theorem printLeading_append (annotations : List Annotation) (words : List Modifier)
    (cs : List Syntax) :
    printLeading annotations (words ++ cs.map modifierOf) =
      printLeading annotations words ++ printSyntax cs := by
  unfold printLeading
  rw [List.map_append, String.join_append, join_print_modifierOf, String.append_assoc]

/-- A type with more text in the space before it. -/
theorem print_identifierOf_behind (resolver : Resolver) (s : Syntax) (front : String) :
    ({ identifierOf resolver s with
        lead := ⟨front ++ (identifierOf resolver s).lead.text⟩ } : Identifier).print =
      front ++ printSyntax [s] := by
  rw [← print_identifierOf resolver s]
  exact String.append_assoc

theorem printSyntax_take_append_drop (n : Nat) (cs : List Syntax) :
    printSyntax (cs.take n) ++ printSyntax (cs.drop n) = printSyntax cs := by
  rw [← printSyntax_append, List.take_append_drop]

/-- The same with type parameters between the modifiers and the type: the first of them is
printed with the modifiers, the others are part of the space before the type. -/
theorem print_generic (resolver : Resolver) {modifiers generic : List Syntax}
    (h : ∀ s ∈ modifiers, s.Leading) (hgeneric : ∀ s ∈ generic.head?, s.Leading) (type : Syntax) :
    (leadOf (modifiers ++ generic ++ [type])).text ++
        printLeading (leadingOf resolver (clearLead modifiers)).1
          ((leadingOf resolver (clearLead modifiers)).2 ++
            ((if modifiers.isEmpty then clearLead generic else generic).take 1).map modifierOf) ++
        (if modifiers.isEmpty && generic.isEmpty then
          { identifierOf resolver type with lead := .empty }
        else
          { identifierOf resolver type with
            lead := ⟨printSyntax ((if modifiers.isEmpty then clearLead generic else generic).drop 1) ++
              (identifierOf resolver type).lead.text⟩ }).print =
      printSyntax (modifiers ++ generic ++ [type]) := by
  rw [printLeading_append]
  -- The space in front of the method is that of its first modifier, or else of its type parameters,
  -- or else of its type: three cases, in each of which that one part is printed without it.
  by_cases hmodifiers : modifiers = []
  · subst hmodifiers
    rw [show printLeading (leadingOf resolver (clearLead [])).1 _ = "" from rfl, String.empty_append,
      List.nil_append, List.isEmpty_nil, if_pos rfl, Bool.true_and]
    by_cases hg : generic = []
    · subst hg
      have htype : ({ identifierOf resolver type with lead := .empty } : Identifier).print =
          textOf [type] := String.empty_append
      rw [List.isEmpty_nil, if_pos rfl, htype,
        show printSyntax ((clearLead []).take 1) = "" from rfl, String.append_empty]
      exact leadOf_append_textOf [type]
    · rw [if_neg (by simpa using hg), print_identifierOf_behind, printSyntax_append generic,
        ← print_clearLead hg hgeneric [type], ← printSyntax_take_append_drop 1 (clearLead generic)]
      simp only [String.append_assoc]
  · have hempty : modifiers.isEmpty = false := by simpa using hmodifiers
    rw [hempty, Bool.false_and, if_neg Bool.false_ne_true, if_neg Bool.false_ne_true,
      print_identifierOf_behind, print_leadingOf _ (leading_clearLead h), List.append_assoc,
      printSyntax_append modifiers, printSyntax_append generic,
      ← printSyntax_take_append_drop 1 generic,
      ← print_clearLead hmodifiers (fun s hs => h s (List.mem_of_mem_head? hs)) (generic ++ [type])]
    simp only [String.append_assoc]

/-! ## Lists with commas -/

/-- Elements that are printed with bare commas between them. -/
theorem CommaList.intercalate {P : Syntax → Prop} {α : Type} (f : Syntax → Option α)
    (print : α → String) {cs : List Syntax} (h : CommaList P cs)
    (hf : ∀ s, P s → ∃ a, f s = some a ∧ print a = printSyntax [s]) (hnode : ∀ s, P s → tight s = s)
    (hcomma : ∀ l, f (.leaf l) = none) :
    String.intercalate "," ((cs.filterMap f).map print) = printSyntax (cs.map tight) := by
  induction h with
  | single h =>
    obtain ⟨a, ha, hprint⟩ := hf _ h
    rw [List.filterMap_cons_some ha, List.filterMap_nil, List.map_singleton, List.map_singleton,
      String.intercalate_singleton, hprint, hnode _ h]
  | @cons s comma rest h htext hrest ih =>
    obtain ⟨a, ha, hprint⟩ := hf _ h
    have hmore : (rest.filterMap f).map print ≠ [] := by
      rw [ne_eq, List.map_eq_nil_iff]
      refine hrest.filterMap_ne_nil fun s hs => ?_
      obtain ⟨b, hb, -⟩ := hf s hs
      rw [hb]
      rfl
    have htight : tight (.leaf comma) = .leaf { comma with lead := .empty } := if_pos htext
    rw [List.filterMap_cons_some ha, List.filterMap_cons_none (hcomma comma), List.map_cons,
      String.intercalate_cons_of_ne_nil hmore, ih, hprint, List.map_cons, List.map_cons, hnode _ h,
      htight, printSyntax_cons s (_ :: _), printSyntax_cons (.leaf _), printSyntax_leaf, htext,
      Space.text_empty, String.empty_append, String.append_assoc]

theorem print_declarators (resolver : Resolver) (type : Syntax) {cs : List Syntax}
    (h : CommaList Syntax.IsDeclarator cs) :
    String.intercalate "," ((cs.filterMap (declaratorOf resolver type)).map Declarator.print) =
      printSyntax (cs.map tight) := by
  refine h.intercalate _ _ ?_ ?_ fun l => rfl
  · intro s hs
    unfold Syntax.IsDeclarator at hs
    split at hs
    · next name d dims rest =>
      refine ⟨_, rfl, ?_⟩
      have htail : (if (printSyntax (.node d dims :: rest)).isEmpty then none
          else some (printSyntax (.node d dims :: rest))).getD "" =
          printSyntax (.node d dims :: rest) := by
        split
        · next hempty => exact (String.isEmpty_iff.mp hempty).symm
        · rfl
      rw [printSyntax_node, printSyntax_cons (.leaf name), printSyntax_leaf]
      simp only [Declarator.print, Identifier.print, Space.text_empty, String.empty_append, htail]
    · cases hs
  · intro s hs
    unfold Syntax.IsDeclarator at hs
    split at hs
    · rfl
    · cases hs

theorem print_throwsOf (resolver : Resolver) {throwing : List Syntax}
    (h : throwing = [] ∨ ∃ key types, key.text = "throws" ∧ CommaList Syntax.IsNode types ∧
      throwing = .leaf key :: types) :
    ((throwsOf resolver throwing).map Throws.print).getD "" = printSyntax (throwing.map tight) := by
  rcases h with rfl | ⟨key, types, hkey, htypes, rfl⟩
  · rfl
  · have hnode : ∀ {t : Syntax}, t.IsNode → ∃ p cs, t = .node p cs := by
      intro t ht
      cases t with
      | leaf l => cases ht
      | node p cs => exact ⟨p, cs, rfl⟩
    have htight : tight (.leaf key) = .leaf key := if_neg (by rw [hkey]; decide)
    rw [List.map_cons, htight, printSyntax_cons, printSyntax_leaf, hkey]
    refine congrArg₂ (· ++ ·) rfl (htypes.intercalate _ Identifier.print ?_ ?_ fun l => rfl)
    · intro t ht
      obtain ⟨p, cs, rfl⟩ := hnode ht
      exact ⟨_, rfl, print_identifierOf resolver _⟩
    · intro t ht
      obtain ⟨p, cs, rfl⟩ := hnode ht
      rfl

end JavaMigration.Java
