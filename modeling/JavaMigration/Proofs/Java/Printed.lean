import Mathlib.Data.List.TakeWhile
import JavaMigration.Proofs.Java.Parts

/-!
# What a tree prints

A tree that was read from source prints lexemes of that source. `printed` lists them straight from
the syntax tree: there is no space before a comma between declarators or exceptions, imports are in
their usual form, and the members of an enum up to its last semicolon are printed with the
constants and then once more.
-/

namespace JavaMigration.Java

open Source

/-! ## Printed lexemes -/

mutual

/-- The lexemes of a statement with the spaces they are printed with. -/
def printed : Syntax → List Lexeme
  | .node .typeDecl [.node m modifiers, .leaf key, .leaf name, header, body] =>
    lexemesOf [.node m modifiers, .leaf key, .leaf name, header] ++ printedBody body
  | .node .vars [.node m modifiers, type, .node d declarators, .leaf close] =>
    lexemesOf [.node m modifiers, type, .node d (declarators.map tight), .leaf close]
  | .node .method [.node m modifiers, .node g generic, type, .leaf name, .node p parameters,
      dims, .node t throwing, body] =>
    lexemesOf [.node m modifiers, .node g generic, type, .leaf name, .node p parameters, dims,
      .node t (throwing.map tight)] ++ printedBody body
  | s => s.lexemes

/-- The lexemes of a body in braces. What an enum has in front of its last semicolon is printed
with the constants. -/
def printedBody : Syntax → List Lexeme
  | .node _ [.leaf first, .node _ items, .leaf last] => first :: printedItems items ++ [last]
  | .node _ [.leaf first, .node _ constants, .node _ members, .leaf last] =>
    first :: lexemesOf (constants ++ throughLastSemicolon members) ++ printedMembers members ++
      [last]
  | s => s.lexemes

def printedItems : List Syntax → List Lexeme
  | [] => []
  | s :: rest => printed s ++ printedItems rest

/-- The lexemes of the members of an enum from the first member on. -/
def printedMembers : List Syntax → List Lexeme
  | [] => []
  | .leaf _ :: rest => printedMembers rest
  | .node p cs :: rest =>
    (if rest.any isSemicolon then leadWith .empty (printed (.node p cs)) else printed (.node p cs)) ++
      printedItems rest

end

/-- What stays raw code is printed as it was read. -/
theorem printed_of_raw {s : Syntax} (h : ∀ env id, statementOf env id s = rawOf id [s]) :
    printed s = s.lexemes := by
  have hstatement := h ⟨default, [], ""⟩ 0
  unfold printed
  split
  · cases hstatement
  · cases hstatement
  · next body =>
    cases body with
    | leaf l => cases hstatement
    | node b cs => cases hstatement
  · rfl

/-! ## Statements and their spaces -/

theorem print_rawOf (id : StatementId) (cs : List Syntax) : (rawOf id cs).print = printSyntax cs :=
  leadOf_append_textOf cs

/-- A statement that leads with the space of its first lexeme. -/
theorem print_withLead_printed {s : Statement} {ls : List Lexeme} (hprint : s.print = printLexemes ls)
    (hlead : s.lead = firstLead ls) : (s.withLead .empty).print = printLexemes (leadWith .empty ls) := by
  rw [← s.withLead_lead, s.print_withLead, printLexemes_eq, hlead] at hprint
  exact (String.append_right_inj _).mp hprint

/-- The first space is printed as it was read. -/
theorem Shaped.firstLead_printed {s : Syntax} (h : Shaped s) :
    firstLead (printed s) = firstLead s.lexemes := by
  have hfront : ∀ (cs ds : List Syntax) (ls : List Lexeme), lexemesOf cs ≠ [] →
      firstLead (lexemesOf cs ++ ls) = firstLead (lexemesOf (cs ++ ds)) := by
    intro cs ds ls hne
    rw [lexemesOf_append, firstLead_append hne, firstLead_append hne]
  cases h with
  | @type m _ _ modifiers _ key name _ _ header =>
    exact hfront [.node m modifiers, .leaf key, .leaf name, header] [_] _ (by simp)
  | @enum m _ _ _ modifiers _ _ key name _ _ header =>
    exact hfront [.node m modifiers, .leaf key, .leaf name, header] [_] _ (by simp)
  | @vars m modifiers declarators type close _ htype =>
    refine (congrArg firstLead (lexemesOf_append [.node m modifiers, type] _)).trans
      (hfront [.node m modifiers, type] [.node .declarators declarators, .leaf close] _ ?_)
    rw [lexemesOf, lexemesOf_singleton]
    exact List.append_ne_nil_of_right_ne_nil _ htype
  | @signature m g p modifiers generic parameters throwing type dims name =>
    refine (congrArg (fun ls => firstLead (ls ++ _)) (lexemesOf_append
      [.node m modifiers, .node g generic, type, .leaf name, .node p parameters, dims] _)).trans ?_
    rw [List.append_assoc]
    exact hfront _ [.node .throwsPart throwing, _] _ (by simp [lexemesOf, Syntax.lexemes])
  | @method m g p _ _ modifiers generic parameters throwing _ type dims name =>
    refine (congrArg (fun ls => firstLead (ls ++ _)) (lexemesOf_append
      [.node m modifiers, .node g generic, type, .leaf name, .node p parameters, dims] _)).trans ?_
    rw [List.append_assoc]
    exact hfront _ [.node .throwsPart throwing, _] _ (by simp [lexemesOf, Syntax.lexemes])
  | expression => rfl
  | raw h => rw [printed_of_raw h]

/-- The space of a statement is that before its first lexeme. -/
theorem Shaped.lead_statementOf {s : Syntax} (h : Shaped s) (hexpression : s.isExpression = false)
    (env : Environment) (id : StatementId) :
    (statementOf env id s).lead = firstLead (printed s) := by
  have hfront : ∀ (front cs ds : List Syntax) (ls : List Lexeme), lexemesOf front ≠ [] →
      lexemesOf front = lexemesOf cs → leadOf front = firstLead (lexemesOf (cs ++ ds) ++ ls) := by
    intro front cs ds ls hne heq
    rw [lexemesOf_append, ← heq, List.append_assoc, firstLead_append hne]
    rfl
  have hlast : ∀ (front : List Syntax) {type : Syntax}, type.lexemes ≠ [] →
      lexemesOf (front ++ [type]) ≠ [] := by
    intro front type htype
    rw [lexemesOf_append, lexemesOf_singleton]
    exact List.append_ne_nil_of_right_ne_nil _ htype
  cases h with
  | @type m _ _ modifiers _ key name _ _ header =>
    exact hfront [.node m modifiers, .leaf key] _ [.leaf name, header] _ (by simp) rfl
  | @enum m _ _ _ modifiers _ _ key name _ _ header =>
    exact hfront [.node m modifiers, .leaf key] _ [.leaf name, header] _ (by simp) rfl
  | @vars m modifiers declarators type close _ htype =>
    have hlead := hfront (modifiers ++ [type]) [.node m modifiers, type]
      [.node .declarators (declarators.map tight), .leaf close] [] (hlast modifiers htype)
      (by rw [lexemesOf_append, lexemesOf_node])
    rwa [List.append_nil] at hlead
  | @signature m g p modifiers generic parameters throwing type dims name _ _ _ htype =>
    exact hfront (modifiers ++ generic ++ [type]) [.node m modifiers, .node g generic, type]
      [.leaf name, .node p parameters, dims, .node .throwsPart (throwing.map tight)] _
      (hlast (modifiers ++ generic) htype)
      (by rw [lexemesOf_append, lexemesOf_append, lexemesOf_node, lexemesOf_node, List.append_assoc])
  | @method m g p _ _ modifiers generic parameters throwing _ type dims name _ _ _ _ htype =>
    exact hfront (modifiers ++ generic ++ [type]) [.node m modifiers, .node g generic, type]
      [.leaf name, .node p parameters, dims, .node .throwsPart (throwing.map tight)] _
      (hlast (modifiers ++ generic) htype)
      (by rw [lexemesOf_append, lexemesOf_append, lexemesOf_node, lexemesOf_node, List.append_assoc])
  | expression => cases hexpression
  | raw h =>
    rw [h, printed_of_raw h, ← lexemesOf_singleton]
    rfl

/-! ## Statements -/

theorem print_type {m : Phrase} {modifiers : List Syntax} {key name : Lexeme} {header body : Syntax}
    (hmodifiers : ∀ s ∈ modifiers, s.Leading) (hkey : key.text ∈ ["class", "interface", "enum"])
    (hbody : ∀ env, (blockOf env body).print = printLexemes (printedBody body))
    (env : Environment) (id : StatementId) :
    (statementOf env id (.node .typeDecl [.node m modifiers, .leaf key, .leaf name, header,
      body])).print =
      printLexemes (printed (.node .typeDecl [.node m modifiers, .leaf key, .leaf name, header,
        body])) := by
  have hkeyword : (if key.text == "interface" then TypeKind.interface
      else if key.text == "enum" then .enum else .class).keyword = textOf [.leaf key] := by
    rw [show textOf [.leaf key] = key.text ++ "" from rfl, String.append_empty]
    simp only [List.mem_cons, List.not_mem_nil, or_false] at hkey
    rcases hkey with hkey | hkey | hkey <;> rw [hkey] <;> rfl
  have hhead := print_modifiers env.resolver hmodifiers (.leaf key)
  rw [← hkeyword] at hhead
  have hprinted : printLexemes (printed (.node .typeDecl [.node m modifiers, .leaf key, .leaf name,
      header, body])) = printSyntax (modifiers ++ [.leaf key]) ++ (name.lead.text ++ name.text) ++
        printSyntax [header] ++ printLexemes (printedBody body) := by
    rw [← printSyntax_leaf, ← printSyntax_append, ← printSyntax_append]
    unfold printSyntax
    rw [← printLexemes_append]
    simp only [printed, lexemesOf_append, lexemesOf_node, List.append_assoc, lexemesOf_leaf,
      List.nil_append, List.cons_append]
  refine (TypeDecl.print_eq _).trans ?_
  rw [hprinted, ← hhead, ← leadOf_node]
  refine congrArg₂ (· ++ ·) ?_ (hbody _)
  simp only [TypeDecl.printHead, Identifier.print, String.append_assoc]
  rfl

theorem print_vars {m d : Phrase} {modifiers declarators : List Syntax} {type : Syntax}
    {close : Lexeme} (hmodifiers : ∀ s ∈ modifiers, s.Leading)
    (hdeclarators : CommaList Syntax.IsDeclarator declarators) (hclose : close.text = ";")
    (env : Environment) (id : StatementId) :
    (statementOf env id (.node .vars [.node m modifiers, type, .node d declarators,
      .leaf close])).print =
      printLexemes (printed (.node .vars [.node m modifiers, type, .node d declarators,
        .leaf close])) := by
  have hhead := print_modifiers env.resolver hmodifiers type
  have hlist := print_declarators env.resolver type hdeclarators
  have hprinted : printLexemes (printed (.node .vars [.node m modifiers, type, .node d declarators,
      .leaf close])) = printSyntax (modifiers ++ [type]) ++ printSyntax (declarators.map tight) ++
        (close.lead.text ++ close.text) := by
    rw [← printSyntax_leaf, ← printSyntax_append, ← printSyntax_append]
    unfold printSyntax
    simp only [printed, lexemesOf_append, lexemesOf, Syntax.lexemes, List.append_assoc,
      List.append_nil]
  have htype : ∀ written : Identifier,
      (if modifiers.isEmpty then { written with lead := .empty } else written : Identifier).print =
        (if modifiers.isEmpty then Space.empty else written.lead).text ++ written.name := by
    intro written
    split <;> rfl
  rw [hprinted, ← hhead, ← hlist, hclose]
  refine Eq.trans (b := VariableDecl.print _) rfl ?_
  simp only [VariableDecl.print, variablesOf, htype, String.append_assoc]
  rfl

theorem print_method {m g p t : Phrase} {modifiers generic parameters throwing : List Syntax}
    {type dims body : Syntax} {name : Lexeme} (hmodifiers : ∀ s ∈ modifiers, s.Leading)
    (hgeneric : ∀ s ∈ generic.head?, s.Leading)
    (hthrowing : throwing = [] ∨ ∃ key types, key.text = "throws" ∧
      CommaList Syntax.IsNode types ∧ throwing = .leaf key :: types)
    (hbody : ∀ env, (match body with
      | .node b cs => (blockOf env (.node b cs)).print
      | .leaf l => l.lead.text ++ ";") = printLexemes (printedBody body))
    (env : Environment) (id : StatementId) :
    (statementOf env id (.node .method [.node m modifiers, .node g generic, type, .leaf name,
      .node p parameters, dims, .node t throwing, body])).print =
      printLexemes (printed (.node .method [.node m modifiers, .node g generic, type, .leaf name,
        .node p parameters, dims, .node t throwing, body])) := by
  have hhead := print_generic env.resolver hmodifiers hgeneric type
  have hlist := print_throwsOf env.resolver hthrowing
  have hprinted : printLexemes (printed (.node .method [.node m modifiers, .node g generic, type,
      .leaf name, .node p parameters, dims, .node t throwing, body])) =
        printSyntax (modifiers ++ generic ++ [type]) ++ (name.lead.text ++ name.text) ++
          printSyntax [.node p parameters, dims] ++ printSyntax (throwing.map tight) ++
            printLexemes (printedBody body) := by
    rw [← printSyntax_leaf, ← printSyntax_append, ← printSyntax_append, ← printSyntax_append]
    unfold printSyntax
    rw [← printLexemes_append]
    simp only [printed, lexemesOf_append, lexemesOf, Syntax.lexemes, List.append_assoc,
      List.append_nil]
  rw [hprinted, ← hhead, ← hlist]
  cases body with
  | leaf l =>
    refine (MethodDecl.print_eq _).trans (congrArg₂ (· ++ ·) ?_ (hbody env))
    simp only [MethodDecl.printHead, Identifier.print, String.append_assoc]
  | node b cs =>
    refine (MethodDecl.print_eq _).trans (congrArg₂ (· ++ ·) ?_ (hbody _))
    simp only [MethodDecl.printHead, Identifier.print, String.append_assoc]

theorem print_receiverOf (env : Environment) (object : List Syntax) :
    (receiverOf env object).print = textOf object := by
  unfold receiverOf
  split
  · next l =>
    rw [show textOf [.leaf l] = l.text ++ "" from rfl, String.append_empty]
    split <;> exact String.empty_append
  · exact String.empty_append

/-- A statement that is a call prints as it was read. -/
theorem print_of_callOf {env : Environment} {id : StatementId} {operand : List Syntax}
    {close : Lexeme} {call : Call}
    (hdot : ∀ dot name arguments,
      operand.getLast? = some (.node .callOn [.leaf dot, .leaf name, arguments]) → dot.text = ".")
    (hclose : close.text = ";") (h : callOf env id operand close = some call) :
    call.print = printSyntax (operand ++ [.leaf close]) := by
  have hoperand : ∀ {last : Syntax}, operand.getLast? = some last →
      printSyntax operand = printSyntax operand.dropLast ++ printSyntax [last] := by
    intro last hlast
    rw [← printSyntax_append, List.dropLast_append_getLast? _ hlast]
  rw [printSyntax_append, printSyntax_leaf, hclose]
  unfold callOf at h
  split at h
  · next name arguments hfront hlast =>
    cases h
    rw [hoperand hlast, hfront, printSyntax_nil, String.empty_append, printSyntax_node,
      printSyntax_cons (.leaf name), printSyntax_leaf]
    simp only [Call.print, Identifier.print, Space.text_empty, String.empty_append, String.append_empty,
      String.append_assoc]
  · next dot name arguments hlast =>
    split at h
    · cases h
    · cases h
      rw [hoperand hlast, printSyntax_node, printSyntax_cons (.leaf dot), printSyntax_leaf,
        hdot _ _ _ hlast, printSyntax_cons (.leaf name), printSyntax_leaf,
        ← leadOf_append_textOf operand.dropLast]
      simp only [Call.print, Identifier.print, print_receiverOf, String.append_assoc]
  · cases h

theorem print_expression {e o : Phrase} {operand : List Syntax} {close : Lexeme}
    (hdot : ∀ dot name arguments,
      operand.getLast? = some (.node .callOn [.leaf dot, .leaf name, arguments]) → dot.text = ".")
    (hclose : close.text = ";") (env : Environment) (id : StatementId) :
    (statementOf env id (.node .expressionStatement [.node e [.node o operand],
      .leaf close])).print =
      printLexemes (printed (.node .expressionStatement [.node e [.node o operand],
        .leaf close])) := by
  have hprinted : printLexemes (printed (.node .expressionStatement [.node e [.node o operand],
      .leaf close])) = printSyntax (operand ++ [.leaf close]) := by
    unfold printSyntax
    simp only [printed, lexemesOf_append, lexemesOf, Syntax.lexemes, List.append_nil]
  rw [hprinted, statementOf_expression]
  split
  · next call hcall => exact print_of_callOf hdot hclose hcall
  · rw [print_rawOf]
    unfold printSyntax
    simp only [lexemesOf_append, lexemesOf, Syntax.lexemes, List.append_nil]

/-! ## Bodies -/

/-- The statements built from some syntax trees print as their lexemes. -/
theorem printStatements_statementsOf {items : List Syntax}
    (ih : ∀ s ∈ items, ∀ env id, (statementOf env id s).print = printLexemes (printed s))
    (env : Environment) (id : StatementId) :
    printStatements (statementsOf env id items) = printLexemes (printedItems items) := by
  induction items generalizing env id with
  | nil => rfl
  | cons s items ihitems =>
    obtain ⟨hs, hitems⟩ := List.forall_mem_cons.mp ih
    rw [statementsOf, printStatements, printedItems, printLexemes_append, hs, ihitems hitems]

theorem print_braced {b i : Phrase} {first last : Lexeme} {items : List Syntax}
    (hfirst : first.text = "\x7b") (hlast : last.text = "\x7d")
    (ih : ∀ s ∈ items, ∀ env id, (statementOf env id s).print = printLexemes (printed s))
    (env : Environment) :
    (blockOf env (.node b [.leaf first, .node i items, .leaf last])).print =
      printLexemes (printedBody (.node b [.leaf first, .node i items, .leaf last])) := by
  have hblock : blockOf env (.node b [.leaf first, .node i items, .leaf last]) =
      ⟨first.lead, statementsOf env 0 items, last.lead⟩ := rfl
  have hprinted : printedBody (.node b [.leaf first, .node i items, .leaf last]) =
      first :: printedItems items ++ [last] := rfl
  rw [hblock, hprinted, Block.print_eq, printStatements_statementsOf ih, List.cons_append,
    printLexemes_cons, printLexemes_append, printLexemes_cons, printLexemes_nil, hfirst, hlast,
    String.append_empty]
  simp only [String.append_assoc]

/-! ## Enum bodies -/

theorem throughLastSemicolon_cons (s : Syntax) (rest : List Syntax) :
    throughLastSemicolon (s :: rest) =
      if (s :: rest).any isSemicolon then s :: throughLastSemicolon rest else [] := by
  unfold throughLastSemicolon
  have hempty : (rest.reverse.dropWhile (!isSemicolon ·)).isEmpty = !rest.any isSemicolon := by
    rw [Bool.eq_iff_iff, List.isEmpty_iff, List.dropWhile_eq_nil_iff]
    simp
  rw [List.reverse_cons, List.dropWhile_append, List.any_cons, hempty]
  by_cases hrest : rest.any isSemicolon
  · rw [hrest, Bool.or_true, if_pos rfl, if_neg (by decide), List.reverse_append]
    rfl
  · have hnil := List.isEmpty_iff.mp (hempty.trans (by rw [Bool.eq_false_iff.mpr hrest, Bool.not_false]))
    rw [hnil, Bool.eq_false_iff.mpr hrest, Bool.or_false]
    cases s with
    | leaf l => rfl
    | node p cs => rfl

theorem semicolonsBehind_of_all {items : List Syntax} (h : items.all isSemicolon) :
    semicolonsBehind items = items := by
  unfold semicolonsBehind
  rw [List.takeWhile_eq_self_iff.mpr (by simpa using h), List.reverse_reverse]

theorem semicolonsBehind_cons {s : Syntax} {rest : List Syntax}
    (h : (s :: rest).all isSemicolon = false) :
    semicolonsBehind (s :: rest) = semicolonsBehind rest := by
  unfold semicolonsBehind
  rw [List.reverse_cons, List.takeWhile_append]
  split
  · next hlength =>
    have hself := (List.takeWhile_prefix isSemicolon).eq_of_length hlength
    have hrest : rest.all isSemicolon := by
      simpa using List.takeWhile_eq_self_iff.mp hself
    have hs : isSemicolon s = false := by
      rwa [List.all_cons, hrest, Bool.and_true] at h
    rw [hself, List.takeWhile_cons_of_neg (by simp [hs]), List.append_nil]
  · rfl

/-- Where there are only semicolons there are no members. -/
theorem enumMembersOf_of_all {items : List Syntax} (h : items.all isSemicolon) (env : Environment)
    (id : StatementId) (before : Option String) : enumMembersOf env id before items = [] := by
  induction items generalizing before with
  | nil => rfl
  | cons s items ih =>
    cases s with
    | leaf l => exact ih h _
    | node p cs => cases h

theorem printedMembers_of_all {items : List Syntax} (h : items.all isSemicolon) :
    printedMembers items = [] := by
  induction items with
  | nil => rfl
  | cons s items ih =>
    cases s with
    | leaf l => exact ih h
    | node p cs => cases h

theorem printedItems_of_all {items : List Syntax} (h : items.all isSemicolon) :
    printedItems items = lexemesOf items := by
  induction items with
  | nil => rfl
  | cons s items ih =>
    cases s with
    | leaf l => exact congrArg (l :: ·) (ih h)
    | node p cs => cases h

/-- What is built from a syntax tree prints as its lexemes, and has the space of the first one. -/
def PrintsAs (s : Syntax) : Prop :=
  ∀ env id, (statementOf env id s).print = printLexemes (printed s) ∧
    (statementOf env id s).lead = firstLead (printed s)

/-- The members behind the first one. Semicolons are kept as part of the space before the next
member or of the space before the closing brace. -/
theorem print_enumMembersOf_some {items : List Syntax} (h : ∀ s ∈ items, PrintsAs s)
    (env : Environment) (id : StatementId) (text : String) :
    printStatements (enumMembersOf env id (some text) items) ++
        printSyntax (semicolonsBehind items) =
      (if items.all isSemicolon then "" else text) ++ printLexemes (printedItems items) := by
  -- Behind the last member the text is dropped: the semicolons are printed before the brace.
  by_cases hall : items.all isSemicolon
  · rw [enumMembersOf_of_all hall, semicolonsBehind_of_all hall, printedItems_of_all hall, if_pos hall]
    rfl
  · rw [if_neg hall]
    induction items generalizing env id text with
    | nil => exact absurd rfl hall
    | cons s items ih =>
      obtain ⟨hs, hitems⟩ := List.forall_mem_cons.mp h
      rw [semicolonsBehind_cons (Bool.eq_false_iff.mpr hall)]
      cases s with
      | leaf l =>
        have hrest : ¬ items.all isSemicolon := hall
        rw [show enumMembersOf env id (some text) (.leaf l :: items) =
          enumMembersOf env id (some (text ++ l.print)) items from rfl, ih hitems _ _ _ hrest,
          printedItems, printLexemes_append, String.append_assoc]
        rfl
      | node p cs =>
        obtain ⟨hprint, hlead⟩ := hs env id
        have hmore : printStatements (enumMembersOf
            (env.bind (bindingsOf (statementOf env id (.node p cs)))) (id + 1) (some "") items) ++
              printSyntax (semicolonsBehind items) = printLexemes (printedItems items) := by
          by_cases hrest : items.all isSemicolon
          · rw [enumMembersOf_of_all hrest, semicolonsBehind_of_all hrest, printedItems_of_all hrest]
            exact String.empty_append
          · rw [ih hitems _ _ _ hrest, String.empty_append]
        have hown := print_withLead_printed hprint hlead
        rw [enumMembersOf_node, printStatements, String.append_assoc, hmore,
          Statement.print_withLead, hown, printedItems, printLexemes_append, printLexemes_eq (printed _), ← hlead]
        simp only [memberLead, String.append_assoc]

/-- The members of an enum from the first one on, with the semicolons behind the last one. -/
theorem print_enumMembersOf_none {items : List Syntax} (h : ∀ s ∈ items, PrintsAs s)
    (env : Environment) (id : StatementId) :
    printStatements (enumMembersOf env id none items) ++
        printSyntax (if items.all isSemicolon then [] else semicolonsBehind items) =
      printLexemes (printedMembers items) := by
  by_cases hall : items.all isSemicolon
  · rw [enumMembersOf_of_all hall, printedMembers_of_all hall, if_pos hall]
    rfl
  · rw [if_neg hall]
    induction items with
    | nil => exact absurd rfl hall
    | cons s items ih =>
      obtain ⟨hs, hitems⟩ := List.forall_mem_cons.mp h
      rw [semicolonsBehind_cons (Bool.eq_false_iff.mpr hall)]
      cases s with
      | leaf l => exact ih hitems hall
      | node p cs =>
        obtain ⟨hprint, hlead⟩ := hs env id
        have hmore := print_enumMembersOf_some hitems
          (env.bind (bindingsOf (statementOf env id (.node p cs)))) (id + 1) ""
        rw [ite_self, String.empty_append] at hmore
        have hown := print_withLead_printed hprint hlead
        rw [enumMembersOf_node, printStatements, String.append_assoc, hmore, Statement.print_withLead, hown,
          printedMembers, printLexemes_append]
        simp only [memberLead]
        split
        · rw [Space.text_empty, String.empty_append]
        · rw [hlead, ← printLexemes_eq]

theorem print_enum {b c i : Phrase} {first last : Lexeme} {constants items : List Syntax}
    (hfirst : first.text = "\x7b") (hlast : last.text = "\x7d") (h : ∀ s ∈ items, PrintsAs s)
    (env : Environment) :
    (blockOf env (.node b [.leaf first, .node c constants, .node i items, .leaf last])).print =
      printLexemes (printedBody
        (.node b [.leaf first, .node c constants, .node i items, .leaf last])) := by
  have hmembers := print_enumMembersOf_none h env 1
  have hhead : ∀ head : List Syntax,
      printStatements (if head.isEmpty then [] else [rawOf 0 head]) = printSyntax head := by
    intro head
    cases head with
    | nil => rfl
    | cons s head => exact String.append_empty.trans (print_rawOf 0 _)
  have hprinted : printedBody (.node b [.leaf first, .node c constants, .node i items,
      .leaf last]) = first :: lexemesOf (constants ++ throughLastSemicolon items) ++
        printedMembers items ++ [last] := rfl
  rw [hprinted, List.cons_append, List.cons_append, printLexemes_cons, printLexemes_append,
    printLexemes_append, printLexemes_cons, printLexemes_nil, hfirst, hlast, String.append_empty,
    ← hmembers]
  unfold blockOf
  rw [Block.print_eq]
  simp only [printStatements_append, hhead, String.append_assoc]
  rfl

/-- A statement that was built from source prints as the lexemes of its syntax tree. -/
theorem Shaped.print_statementOf {s : Syntax} (h : Shaped s) :
    ∀ env id, (statementOf env id s).print = printLexemes (printed s) := by
  induction h with
  | type hmodifiers hkey hfirst hlast hitems ih =>
    exact print_type hmodifiers hkey (print_braced hfirst hlast ih)
  | enum hmodifiers hkey hfirst hlast hmembers hitems ih =>
    refine print_type hmodifiers hkey (print_enum hfirst hlast fun s hs env id => ⟨ih s hs env id, ?_⟩)
    exact (hitems s hs).lead_statementOf (hmembers s hs).isExpression env id
  | vars hmodifiers htype hdeclarators hclose => exact print_vars hmodifiers hdeclarators hclose
  | @signature m g p modifiers generic parameters throwing type dims name close hmodifiers hgeneric
      htype hthrowing hclose =>
    refine print_method hmodifiers hgeneric hthrowing fun env => ?_
    rw [← hclose]
    exact (printSyntax_leaf close).symm
  | method hmodifiers hgeneric htype hthrowing hfirst hlast hflat hitems ih =>
    exact print_method hmodifiers hgeneric hthrowing (print_braced hfirst hlast ih)
  | expression hdot hclose => exact print_expression hdot hclose
  | raw h =>
    intro env id
    rw [h, print_rawOf, printed_of_raw h, ← lexemesOf_singleton]
    rfl

/-! ## Imports -/

/-- The parts of a package declaration. -/
def packageParts : Syntax → Option (List Syntax)
  | .node .packageDecl parts => some parts
  | _ => none

/-- The parts of an import. -/
def importParts : Syntax → Option (List Syntax)
  | .node .importDecl parts => some parts
  | _ => none

theorem eq_of_packageParts {s : Syntax} {parts : List Syntax} (h : packageParts s = some parts) :
    s = .node .packageDecl parts := by
  unfold packageParts at h
  split at h
  · cases h
    rfl
  · cases h

theorem eq_of_importParts {s : Syntax} {parts : List Syntax} (h : importParts s = some parts) :
    s = .node .importDecl parts := by
  unfold importParts at h
  split at h
  · cases h
    rfl
  · cases h

/-- The lexemes of an import in its usual form: one blank behind each key word, and nothing before
the dot and the star of an import on demand and before the semicolon. -/
def printedImport : List Syntax → List Lexeme
  | .leaf key :: .leaf word :: name :: tail =>
    key :: { word with lead := .single } :: leadWith .single name.lexemes ++
      (lexemesOf tail).map fun l => { l with lead := .empty }
  | .leaf key :: name :: tail =>
    key :: leadWith .single name.lexemes ++ (lexemesOf tail).map fun l => { l with lead := .empty }
  | parts => lexemesOf parts

/-- What stands behind the name of an import. -/
def ImportTail (tail : List Syntax) : Prop :=
  (∃ close : Lexeme, close.text = ";" ∧ tail = [.leaf close]) ∨
    ∃ dot star close : Lexeme, dot.text = "." ∧ star.text = "*" ∧ close.text = ";" ∧
      tail = [.leaf dot, .leaf star, .leaf close]

/-- The forms of an import. -/
theorem importDecl_eq {parts : List Syntax} (h : Conforms (Phrase.rule .importDecl) parts) :
    ∃ key q names tail, key.text = "import" ∧ lexemesOf names ≠ [] ∧ ImportTail tail ∧
      (parts = .leaf key :: .node q names :: tail ∨
        ∃ word : Lexeme, word.text = "static" ∧
          parts = .leaf key :: .leaf word :: .node q names :: tail) := by
  rw [show Phrase.rule .importDecl = Rule.seq ["import", Rule.optional "static", Phrase.qualified,
    Rule.optional (Rule.seq [".", "*"]), ";"] from rfl, Conforms.seq_token_iff] at h
  obtain ⟨key, hkey, rest, hrest, rfl⟩ := h
  obtain ⟨word, hword, back, hback, rfl⟩ := Conforms.seq_cons_iff.mp hrest
  obtain ⟨names, hnames, tail, htail, rfl⟩ := Conforms.seq_phrase_iff.mp hback
  have hlexemes : lexemesOf names ≠ [] := by
    rw [show Phrase.rule .qualified = Rule.seq [.name, .many (.seq [".", .name])] from rfl,
      Conforms.seq_name_iff] at hnames
    obtain ⟨l, -, rest, -, rfl⟩ := hnames
    exact List.cons_ne_nil _ _
  have hform : ImportTail tail := by
    simp only [Conforms.seq_cons_iff, Conforms.seq_nil_iff, Conforms.optional_iff,
      Conforms.token_iff] at htail
    obtain ⟨front, hfront, _, ⟨_, ⟨close, hclose, rfl⟩, _, rfl, rfl⟩, rfl⟩ := htail
    rcases hfront with ⟨_, ⟨dot, hdot, rfl⟩, _, ⟨_, ⟨star, hstar, rfl⟩, _, rfl, rfl⟩, rfl⟩ | rfl
    · exact .inr ⟨dot, star, close, hdot, hstar, hclose, rfl⟩
    · exact .inl ⟨close, hclose, rfl⟩
  refine ⟨key, .qualified, names, tail, hkey, hlexemes, hform, ?_⟩
  rcases Conforms.optional_iff.mp hword with hword | rfl
  · obtain ⟨l, hl, rfl⟩ := Conforms.token_iff.mp hword
    exact .inr ⟨l, hl, rfl⟩
  · exact .inl rfl

theorem printLexemes_leadWith (lead : Space) {ls : List Lexeme} (h : ls ≠ []) :
    printLexemes (leadWith lead ls) = lead.text ++ printLexemes (leadWith .empty ls) := by
  cases ls with
  | nil => exact absurd rfl h
  | cons l ls =>
    rw [leadWith, leadWith, printLexemes_cons, printLexemes_cons, Space.text_empty, String.empty_append,
      String.append_assoc]

/-- The import that the parts of its syntax tree stand for. -/
def importFrom (id : ImportId) (parts : List Syntax) : Import where
  id := id
  lead := leadOf parts
  isStatic := (importOf parts).1
  target := (importOf parts).2

theorem print_importFrom {parts : List Syntax} (h : Conforms (Phrase.rule .importDecl) parts)
    (id : ImportId) : (importFrom id parts).print = printLexemes (printedImport parts) := by
  obtain ⟨key, q, names, tail, hkey, hnames, htail, hparts⟩ := importDecl_eq h
  have hname : printLexemes (leadWith .single (Syntax.node q names).lexemes) =
      " " ++ textOf [.node q names] := by
    rw [textOf_eq, lexemesOf_singleton]
    exact printLexemes_leadWith .single hnames
  have hclose : printLexemes ((lexemesOf tail).map fun l => { l with lead := .empty }) =
      importOf.onDemand tail ++ ";" := by
    rcases htail with ⟨close, hclose, rfl⟩ | ⟨dot, star, close, hdot, hstar, hclose, rfl⟩
    · simp only [lexemesOf_leaf, lexemesOf_nil, List.map_cons, List.map_nil, printLexemes_cons,
        printLexemes_nil, Space.text_empty, hclose]
      rfl
    · simp only [lexemesOf_leaf, lexemesOf_nil, List.map_cons, List.map_nil, printLexemes_cons,
        printLexemes_nil, Space.text_empty, hdot, hstar, hclose]
      rfl
  rcases hparts with rfl | ⟨word, hword, rfl⟩
  · have hprinted : printedImport (.leaf key :: .node q names :: tail) =
        key :: leadWith .single (Syntax.node q names).lexemes ++
          (lexemesOf tail).map fun l => { l with lead := .empty } := rfl
    rw [hprinted, List.cons_append, printLexemes_cons, printLexemes_append, hname, hclose, hkey]
    simp only [importFrom, Import.print, importOf, leadOf_eq, lexemesOf_leaf, firstLead,
      String.append_assoc, Bool.false_eq_true, if_false, ← show "import" ++ " " = "import " from rfl]
  · have hprinted : printedImport (.leaf key :: .leaf word :: .node q names :: tail) =
        key :: { word with lead := .single } :: leadWith .single (Syntax.node q names).lexemes ++
          (lexemesOf tail).map fun l => { l with lead := .empty } := rfl
    rw [hprinted, List.cons_append, List.cons_append, printLexemes_cons, printLexemes_cons,
      printLexemes_append, hname, hclose, hkey, hword]
    simp only [importFrom, Import.print, importOf, leadOf_eq, lexemesOf_leaf, firstLead,
      String.append_assoc, if_true, show Space.single.text = " " from rfl,
      ← show "import" ++ (" " ++ ("static" ++ " ")) = "import static " from rfl]

/-! ## Units -/

/-- What is printed of a top-level item that is no header. -/
def printedTop : Syntax → List Lexeme
  | .node .typeDecl cs => printed (.node .typeDecl cs)
  | s => s.lexemes

theorem printedTop_of_ne {s : Syntax} (h : ∀ cs, s ≠ .node .typeDecl cs) :
    printedTop s = s.lexemes := by
  unfold printedTop
  split
  · next cs => exact absurd rfl (h cs)
  · rfl

/-- Package declarations and imports. -/
def isHeader (s : Syntax) : Bool := (packageParts s).isSome || (importParts s).isSome

/-- The lexemes of a unit as they are printed: the last package declaration, the imports and
everything else. -/
def printedUnit (items : List Syntax) : List Lexeme :=
  lexemesOf ((items.filterMap packageParts).getLast?.getD []) ++
    (items.filterMap importParts).flatMap printedImport ++
    (items.filter fun s => !isHeader s).flatMap printedTop

theorem printLexemes_flatMap {α : Type} (f : α → List Lexeme) (as : List α) :
    printLexemes (as.flatMap f) = String.join (as.map fun a => printLexemes (f a)) := by
  induction as with
  | nil => rfl
  | cons a as ih => rw [List.flatMap_cons, printLexemes_append, ih, List.map_cons, String.join_cons]

/-- The package declaration that the parts of its syntax tree stand for. -/
def packageFrom (parts : List Syntax) : Package where
  lead := leadOf parts
  name := packageNameOf parts
  text := textOf parts

theorem packageOfItems_eq (items : List Syntax) :
    packageOfItems items = (items.filterMap packageParts).getLast?.map packageFrom := by
  unfold packageOfItems
  rw [← List.getLast?_map, List.map_filterMap]
  congr 2
  funext s
  cases s with
  | leaf l => rfl
  | node p cs => cases p <;> rfl

theorem importsOf_eq (items : List Syntax) :
    importsOf items = (items.filterMap importParts).mapIdx importFrom := rfl

/-- What does not depend on identities is read off the parts. -/
theorem map_importsOf {β : Type} {f : Import → β} {g : List Syntax → β} {items : List Syntax}
    (h : ∀ id, ∀ parts ∈ items.filterMap importParts, f (importFrom id parts) = g parts) :
    (importsOf items).map f = (items.filterMap importParts).map g := by
  rw [importsOf_eq]
  refine List.ext_getElem (by simp) fun i hi _ => ?_
  simp only [List.getElem_map, List.getElem_mapIdx]
  exact h i _ (List.getElem_mem _)

theorem topLevelOf_eq (env : Environment) (items : List Syntax) :
    topLevelOf env items = (items.filter fun s => !isHeader s).mapIdx fun id s =>
      match s with
      | .node .typeDecl _ => statementOf env id s
      | _ => rawOf id [s] := by
  unfold topLevelOf
  congr 1
  refine List.filter_congr fun s _ => ?_
  cases s with
  | leaf l => rfl
  | node p cs => cases p <;> rfl

theorem print_packageOfItems (items : List Syntax) :
    ((packageOfItems items).map Package.print).getD "" =
      printLexemes (lexemesOf ((items.filterMap packageParts).getLast?.getD [])) := by
  rw [packageOfItems_eq]
  cases (items.filterMap packageParts).getLast? with
  | none => rfl
  | some parts => exact leadOf_append_textOf parts

/-- Every import is read from the parts of one. -/
theorem conforms_of_mem_importParts {items : List Syntax} (h : ∀ s ∈ items, s.Valid)
    {parts : List Syntax} (hparts : parts ∈ items.filterMap importParts) :
    Conforms (Phrase.rule .importDecl) parts := by
  obtain ⟨s, hs, hsome⟩ := List.mem_filterMap.mp hparts
  rw [eq_of_importParts hsome] at hs
  exact h _ hs

theorem print_importsOf {items : List Syntax} (h : ∀ s ∈ items, s.Valid) :
    String.join ((importsOf items).map Import.print) =
      printLexemes ((items.filterMap importParts).flatMap printedImport) := by
  rw [printLexemes_flatMap]
  exact congrArg String.join <| map_importsOf fun id parts hparts =>
    print_importFrom (conforms_of_mem_importParts h hparts) id

theorem print_topLevelOf {items : List Syntax} (h : ∀ s ∈ items, s.Valid) (env : Environment) :
    printStatements (topLevelOf env items) =
      printLexemes ((items.filter fun s => !isHeader s).flatMap printedTop) := by
  have hlist : ∀ (ss : List Syntax) (f : Nat → Syntax → Statement),
      (∀ id, ∀ s ∈ ss, (f id s).print = printLexemes (printedTop s)) →
        printStatements (ss.mapIdx f) = printLexemes (ss.flatMap printedTop) := by
    intro ss
    induction ss with
    | nil => exact fun _ _ => rfl
    | cons s ss ih =>
      intro f hf
      rw [List.mapIdx_cons, printStatements, List.flatMap_cons, printLexemes_append,
        hf 0 s List.mem_cons_self,
        ih _ fun id t ht => hf (id + 1) t (List.mem_cons_of_mem _ ht)]
  rw [topLevelOf_eq]
  refine hlist _ _ fun id s hs => ?_
  split
  · next cs => exact (h _ (List.mem_of_mem_filter hs)).shaped.print_statementOf env id
  · next hne =>
    rw [print_rawOf, printedTop_of_ne hne, ← lexemesOf_singleton]
    rfl

/-- The text of a unit that was read from source. -/
theorem print_unitOf {items : List Syntax} (h : ∀ s ∈ items, s.Valid) (resolver : Resolver)
    (path : String) (close : Space) :
    (unitOf resolver path items close).print = printLexemes (printedUnit items) ++ close.text := by
  unfold printedUnit
  rw [printLexemes_append, printLexemes_append, ← print_packageOfItems, ← print_importsOf h,
    ← print_topLevelOf h { resolver }, CompilationUnit.print]
  exact congrArg (· ++ _) (congrArg (· ++ _) (congrArg (· ++ _) String.empty_append))

/-- The items of a unit hold every lexeme of its source. -/
theorem readUnit_lossless {source : String} {items : List Syntax} {close : Space}
    (h : readUnit source = some (items, close)) :
    printLexemes (lexemesOf items) ++ close.text = source := by
  obtain ⟨ls, depth, hlex, hread⟩ := readPhrase_of_readUnit h
  obtain ⟨-, hls⟩ := sound_readPhrase _ _ hread
  rw [List.append_nil, lexemesOf_singleton, Syntax.lexemes] at hls
  rw [hls]
  exact lex_lossless hlex

end JavaMigration.Java
