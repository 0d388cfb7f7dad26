import JavaMigration.Proofs.Java.Printed
import JavaMigration.Proofs.Java.Variables
import JavaMigration.Proofs.Source.LineEndings

/-!
# Line endings of trees read from source

If the text that a unit prints has one line ending throughout, so has every part of the tree
(`even_of_throughout`): no line ending reaches over the border between a lexeme and the space before
or behind it, and every part of the tree is made of printed lexemes and their spaces.
-/

namespace JavaMigration.Java

open Text Source

variable {e : LineEnding}

/-! ## Lexemes -/

/-- All lexemes of a source are whole. -/
theorem solid_lexFrom {n : Nat} {before s : List Char} {ls : List Lexeme} {close : Space}
    (h : lexFrom n before s = some (ls, close)) : ∀ l ∈ ls, Solid l.text.toList := by
  induction n generalizing before s ls with
  | zero => cases h
  | succ n ih =>
    unfold lexFrom at h
    generalize takeSpace s s = split at h
    obtain ⟨space, t⟩ := split
    cases t with
    | nil =>
      cases h
      exact List.forall_mem_nil _
    | cons c t =>
      obtain ⟨⟨kind, rest⟩, hlexeme, h⟩ := Option.bind_eq_some_iff.mp h
      obtain ⟨⟨more, last⟩, hmore, h⟩ := Option.bind_eq_some_iff.mp h
      cases h
      obtain ⟨taken, htaken, hsolid⟩ := lexeme_solid hlexeme
      have htake : (c :: t).take ((c :: t).length - rest.length) = taken := by
        rw [← htaken, List.length_append, Nat.add_sub_cancel, List.take_left]
      refine List.forall_mem_cons.mpr ⟨?_, ih hmore⟩
      dsimp only
      rwa [htake, String.toList_ofList]

theorem solid_lex {source : String} {ls : List Lexeme} {close : Space}
    (h : lex source = some (ls, close)) : ∀ l ∈ ls, Solid l.text.toList := by
  unfold lex at h
  split at h <;> exact solid_lexFrom h

/-- The texts and the spaces of all lexemes have the line ending. -/
def EvenLexemes (e : LineEnding) (ls : List Lexeme) : Prop :=
  ∀ l ∈ ls, e.Throughout l.lead.text ∧ e.Throughout l.text

@[simp] theorem evenLexemes_nil : EvenLexemes e [] := nofun

@[simp] theorem evenLexemes_cons_iff {l : Lexeme} {ls : List Lexeme} :
    EvenLexemes e (l :: ls) ↔
      (e.Throughout l.lead.text ∧ e.Throughout l.text) ∧ EvenLexemes e ls := List.forall_mem_cons

@[simp] theorem evenLexemes_append_iff {ls ms : List Lexeme} :
    EvenLexemes e (ls ++ ms) ↔ EvenLexemes e ls ∧ EvenLexemes e ms := List.forall_mem_append

/-- A text of whole lexemes is cut at their borders. -/
theorem evenLexemes_of_throughout {ls : List Lexeme} {close : String}
    (hsolid : ∀ l ∈ ls, Solid l.text.toList) (h : e.Throughout (printLexemes ls ++ close)) :
    EvenLexemes e ls ∧ e.Throughout close := by
  induction ls with
  | nil =>
    rw [printLexemes_nil, String.empty_append] at h
    exact ⟨evenLexemes_nil, h⟩
  | cons l ls ih =>
    obtain ⟨hl, hls⟩ := List.forall_mem_cons.mp hsolid
    rw [printLexemes_cons, String.append_assoc, String.append_assoc] at h
    have hbehind : e.Throughout (l.text ++ (printLexemes ls ++ close)) := by
      refine h.right (.inr ?_)
      rw [String.toList_append, List.head?_append_of_ne_nil _ hl.ne_nil]
      exact hl.head
    obtain ⟨heven, hclose⟩ := ih hls (hbehind.right (.inl hl.last))
    exact ⟨evenLexemes_cons_iff.mpr ⟨⟨h.left, hbehind.left⟩, heven⟩, hclose⟩

namespace EvenLexemes

variable {ls : List Lexeme}

theorem firstLead (h : EvenLexemes e ls) : e.Throughout (firstLead ls).text := by
  cases ls with
  | nil => exact e.throughout_empty
  | cons l ls => exact (evenLexemes_cons_iff.mp h).1.1

theorem leadWith (h : EvenLexemes e ls) {lead : Space} (hlead : e.Throughout lead.text) :
    EvenLexemes e (leadWith lead ls) := by
  cases ls with
  | nil => exact evenLexemes_nil
  | cons l ls =>
    obtain ⟨hl, hls⟩ := evenLexemes_cons_iff.mp h
    exact evenLexemes_cons_iff.mpr ⟨⟨hlead, hl.2⟩, hls⟩

theorem of_leadWith {lead : Space} (h : EvenLexemes e (Java.leadWith lead ls))
    (hlead : e.Throughout (Java.firstLead ls).text) : EvenLexemes e ls := by
  cases ls with
  | nil => exact evenLexemes_nil
  | cons l ls =>
    obtain ⟨hl, hls⟩ := evenLexemes_cons_iff.mp h
    exact evenLexemes_cons_iff.mpr ⟨⟨hlead, hl.2⟩, hls⟩

theorem throughout_print (h : EvenLexemes e ls) : e.Throughout (printLexemes ls) := by
  induction ls with
  | nil => exact e.throughout_empty
  | cons l ls ih =>
    obtain ⟨hl, hls⟩ := evenLexemes_cons_iff.mp h
    rw [printLexemes_cons]
    exact (hl.1.append hl.2).append (ih hls)

variable {cs : List Syntax}

theorem leadOf (h : EvenLexemes e (lexemesOf cs)) : e.Throughout (leadOf cs).text := h.firstLead

theorem printSyntax (h : EvenLexemes e (lexemesOf cs)) : e.Throughout (printSyntax cs) :=
  h.throughout_print

theorem textOf (h : EvenLexemes e (lexemesOf cs)) : e.Throughout (textOf cs) := by
  rw [textOf_eq]
  exact (h.leadWith e.throughout_empty).throughout_print

end EvenLexemes

theorem evenLexemes_lexemesOf_iff {cs : List Syntax} :
    EvenLexemes e (lexemesOf cs) ↔ ∀ s ∈ cs, EvenLexemes e s.lexemes := forall_mem_lexemesOf_iff

/-! ## Parts of declarations -/

theorem throughout_intercalate {sep : String} {texts : List String} (hsep : e.Throughout sep)
    (h : ∀ s ∈ texts, e.Throughout s) : e.Throughout (String.intercalate sep texts) := by
  induction texts with
  | nil => exact e.throughout_empty
  | cons s texts ih =>
    obtain ⟨hs, htexts⟩ := List.forall_mem_cons.mp h
    by_cases hmore : texts = []
    · rwa [hmore, String.intercalate_singleton]
    · rw [String.intercalate_cons_of_ne_nil hmore]
      exact (hs.append hsep).append (ih htexts)

section Parts

variable (resolver : Resolver)

theorem even_identifierOf {s : Syntax} (h : EvenLexemes e s.lexemes) :
    Uniform e (identifierOf resolver s).segments := by
  rw [← lexemesOf_singleton] at h
  simp only [Identifier.segments, uniform_cons_iff, uniform_nil, and_true]
  exact ⟨h.leadOf, h.textOf⟩

theorem even_modifierOf {s : Syntax} (h : EvenLexemes e s.lexemes) :
    Uniform e (modifierOf s).segments := by
  rw [← lexemesOf_singleton] at h
  simp only [Modifier.segments, uniform_cons_iff, uniform_nil, and_true]
  exact ⟨h.leadOf, h.textOf⟩

theorem even_annotation? {s : Syntax} {a : Annotation} (h : EvenLexemes e s.lexemes)
    (ha : annotation? resolver s = some a) : Uniform e a.segments := by
  unfold annotation? at ha
  split at ha
  · next mark name arguments =>
    cases ha
    have hlexemes : (Syntax.node .annot (.leaf mark :: name :: arguments)).lexemes =
        mark :: (lexemesOf [name] ++ lexemesOf arguments) := by
      rw [Syntax.lexemes, lexemesOf_leaf, lexemesOf, lexemesOf_singleton]
    rw [hlexemes, evenLexemes_cons_iff, evenLexemes_append_iff] at h
    obtain ⟨⟨hmark, -⟩, hname, harguments⟩ := h
    have hat : e.Throughout "@" := LineEnding.throughout_of_unbroken (by decide)
    simp only [uniform_cons_iff, Annotation.segments, uniform_nil, and_true, Segment.print_space,
      Segment.print_code, print_identifierOf]
    refine ⟨hmark, (hat.append hname.printSyntax).append ?_⟩
    split
    · exact e.throughout_empty
    · exact harguments.printSyntax
  · cases ha

theorem even_leadingOf {cs : List Syntax} (h : EvenLexemes e (lexemesOf cs)) :
    Uniform e (leadingSegments (leadingOf resolver cs).1 (leadingOf resolver cs).2) := by
  induction cs with
  | nil => exact uniform_nil
  | cons s cs ih =>
    have hmembers := evenLexemes_lexemesOf_iff.mp h
    obtain ⟨hs, hcs⟩ := List.forall_mem_cons.mp hmembers
    unfold leadingOf
    split
    · next a ha =>
      have hmore := ih (evenLexemes_lexemesOf_iff.mpr hcs)
      rw [leadingSegments, List.flatMap_cons, List.append_assoc]
      exact uniform_append_iff.mpr ⟨even_annotation? resolver hs ha, hmore⟩
    · rw [leadingSegments, List.flatMap_nil, List.nil_append, uniform_flatMap_iff,
        List.forall_mem_map]
      exact fun t ht => even_modifierOf (hmembers t ht)

/-- What a declaration begins with has the line ending also without the space in front. -/
theorem even_leadingOf_clearLead {cs : List Syntax} (hleading : ∀ s ∈ cs, s.Leading)
    (h : EvenLexemes e (lexemesOf cs)) :
    Uniform e (leadingSegments (leadingOf resolver (clearLead cs)).1
      (leadingOf resolver (clearLead cs)).2) := by
  refine even_leadingOf resolver ?_
  rw [lexemesOf_clearLead fun s hs => hleading s (List.mem_of_mem_head? hs)]
  exact h.leadWith e.throughout_empty

/-- The same with type parameters between the modifiers and the type. -/
theorem even_generic {modifiers generic : List Syntax} {type : Syntax}
    (hleading : ∀ s ∈ modifiers, s.Leading) (hgeneric : ∀ s ∈ generic.head?, s.Leading)
    (hmodifiers : EvenLexemes e (lexemesOf modifiers)) (hgen : EvenLexemes e (lexemesOf generic))
    (htype : EvenLexemes e type.lexemes) :
    Uniform e (leadingSegments (leadingOf resolver (clearLead modifiers)).1
        ((leadingOf resolver (clearLead modifiers)).2 ++
          ((if modifiers.isEmpty then clearLead generic else generic).take 1).map modifierOf)) ∧
      Uniform e (Identifier.segments (if modifiers.isEmpty && generic.isEmpty then
          { identifierOf resolver type with lead := .empty }
        else
          { identifierOf resolver type with
            lead := ⟨printSyntax ((if modifiers.isEmpty then clearLead generic else generic).drop 1) ++
              (identifierOf resolver type).lead.text⟩ })) := by
  have hparts : ∀ s ∈ (if modifiers.isEmpty then clearLead generic else generic),
      EvenLexemes e s.lexemes := by
    rw [← evenLexemes_lexemesOf_iff]
    split
    · rw [lexemesOf_clearLead hgeneric]
      exact hgen.leadWith e.throughout_empty
    · exact hgen
  generalize (if modifiers.isEmpty then clearLead generic else generic) = generic' at hparts ⊢
  have hleads := even_leadingOf_clearLead resolver hleading hmodifiers
  have hwritten := even_identifierOf resolver htype
  have hbetween : EvenLexemes e (lexemesOf (generic'.drop 1)) :=
    evenLexemes_lexemesOf_iff.mpr fun s hs => hparts s (List.mem_of_mem_drop hs)
  simp only [leadingSegments, Identifier.segments, List.flatMap_append, uniform_append_iff,
    uniform_cons_iff, uniform_nil, and_true, Segment.print_space, Segment.print_code]
    at hleads hwritten ⊢
  refine ⟨⟨hleads.1, hleads.2, ?_⟩, ?_⟩
  · rw [uniform_flatMap_iff, List.forall_mem_map]
    exact fun s hs => even_modifierOf (hparts s (List.mem_of_mem_take hs))
  · split
    · exact ⟨e.throughout_empty, hwritten.2⟩
    · exact ⟨hbetween.printSyntax.append hwritten.1, hwritten.2⟩

theorem even_declaratorOf {type s : Syntax} {v : Declarator} (h : EvenLexemes e s.lexemes)
    (hv : declaratorOf resolver type s = some v) :
    e.Throughout v.print ∧ e.Throughout v.name.name := by
  unfold declaratorOf at hv
  split at hv
  · next name d dims rest =>
    cases hv
    have hlexemes : (Syntax.node .declarator (.leaf name :: .node d dims :: rest)).lexemes =
        name :: lexemesOf (.node d dims :: rest) := by
      rw [Syntax.lexemes, lexemesOf_leaf]
    rw [hlexemes, evenLexemes_cons_iff] at h
    obtain ⟨⟨hlead, hname⟩, htail⟩ := h
    refine ⟨?_, hname⟩
    simp only [Declarator.print, Identifier.print, Space.text_empty, String.empty_append]
    refine (hlead.append hname).append ?_
    split
    · exact e.throughout_empty
    · exact htail.printSyntax
  · cases hv

/-- Only the commas of a list lose their space. -/
theorem evenLexemes_of_tight {cs : List Syntax} (h : EvenLexemes e (lexemesOf (cs.map tight)))
    {p : Phrase} {ds : List Syntax} (hs : .node p ds ∈ cs) :
    EvenLexemes e (Syntax.node p ds).lexemes :=
  evenLexemes_lexemesOf_iff.mp h _ (List.mem_map.mpr ⟨_, hs, rfl⟩)

theorem even_variablesOf (id : StatementId) {modifiers declarators : List Syntax} {type : Syntax}
    {close : Lexeme} (hleading : ∀ s ∈ modifiers, s.Leading)
    (hmodifiers : EvenLexemes e (lexemesOf modifiers)) (htype : EvenLexemes e type.lexemes)
    (hdeclarators : EvenLexemes e (lexemesOf (declarators.map tight)))
    (hclose : e.Throughout close.lead.text) :
    Even e [.vars (variablesOf resolver id modifiers type declarators close)] := by
  have hfront : EvenLexemes e (lexemesOf (modifiers ++ [type])) := by
    rw [lexemesOf_append, lexemesOf_singleton]
    exact evenLexemes_append_iff.mpr ⟨hmodifiers, htype⟩
  have hdeclarator : ∀ v ∈ declarators.filterMap (declaratorOf resolver type),
      e.Throughout v.print ∧ e.Throughout v.name.name := by
    intro v hv
    obtain ⟨s, hs, hv⟩ := List.mem_filterMap.mp hv
    cases s with
    | leaf l => cases hv
    | node p ds => exact even_declaratorOf resolver (evenLexemes_of_tight hdeclarators hs) hv
  have hwritten := even_identifierOf resolver htype
  have hend : e.Throughout ";" := LineEnding.throughout_of_unbroken (by decide)
  rw [even_vars_iff]
  refine ⟨?_, fun v hv => (hdeclarator v hv).2⟩
  simp only [variablesOf, VariableDecl.segments, Identifier.segments, uniform_append_iff,
    uniform_cons_iff, uniform_nil, and_true, Segment.print_space, Segment.print_code] at hwritten ⊢
  refine ⟨⟨⟨hfront.leadOf, even_leadingOf_clearLead resolver hleading hmodifiers⟩, ?_⟩, ?_, hclose,
    hend⟩
  · split
    · exact ⟨e.throughout_empty, hwritten.2⟩
    · exact hwritten
  · refine throughout_intercalate (LineEnding.throughout_of_unbroken (by decide)) ?_
    rw [List.forall_mem_map]
    exact fun v hv => (hdeclarator v hv).1

theorem even_throwsOf {throwing : List Syntax} (hthrowing : throwing = [] ∨ ∃ key types,
      key.text = "throws" ∧ CommaList Syntax.IsNode types ∧ throwing = .leaf key :: types)
    (h : EvenLexemes e (lexemesOf (throwing.map tight))) :
    Uniform e (((throwsOf resolver throwing).map (·.segments)).getD []) := by
  rcases hthrowing with rfl | ⟨key, types, hkey, -, rfl⟩
  · exact uniform_nil
  · have htight : tight (.leaf key) = .leaf key := if_neg (by rw [hkey]; decide)
    rw [List.map_cons, htight, lexemesOf_leaf, evenLexemes_cons_iff] at h
    obtain ⟨⟨hlead, -⟩, htypes⟩ := h
    refine Throws.uniform_segments_iff.mpr ⟨hlead, fun i hi => ?_⟩
    obtain ⟨s, hs, hi⟩ := List.mem_filterMap.mp hi
    cases s with
    | leaf l => cases hi
    | node p ds =>
      cases hi
      rw [print_identifierOf]
      refine EvenLexemes.printSyntax ?_
      rw [lexemesOf_singleton]
      exact evenLexemes_of_tight htypes hs

end Parts

/-! ## Statements -/

theorem even_rawOf (id : StatementId) {cs : List Syntax} (h : EvenLexemes e (lexemesOf cs)) :
    Even e [rawOf id cs] := by
  rw [rawOf, even_raw_iff]
  simp only [RawCode.segments, uniform_cons_iff, uniform_nil, and_true, Segment.print_space,
    Segment.print_code]
  exact ⟨h.leadOf, h.textOf⟩

theorem even_callOf {env : Environment} {id : StatementId} {operand : List Syntax} {close : Lexeme}
    {call : Call} (h : EvenLexemes e (lexemesOf (operand ++ [.leaf close])))
    (hcall : callOf env id operand close = some call) : Even e [.call call] := by
  rw [lexemesOf_append, evenLexemes_append_iff, lexemesOf_leaf, evenLexemes_cons_iff] at h
  obtain ⟨hoperand, ⟨hclose, -⟩, -⟩ := h
  have hparts : ∀ {last : Syntax}, operand.getLast? = some last →
      EvenLexemes e (lexemesOf operand.dropLast) ∧ EvenLexemes e last.lexemes := by
    intro last hlast
    rwa [← List.dropLast_append_getLast? _ hlast, lexemesOf_append, evenLexemes_append_iff,
      lexemesOf_singleton] at hoperand
  have hend : e.Throughout ";" := LineEnding.throughout_of_unbroken (by decide)
  have hpoint : e.Throughout "." := LineEnding.throughout_of_unbroken (by decide)
  rw [even_call_iff]
  simp only [Call.segments, uniform_cons_iff, uniform_nil, and_true, Segment.print_space,
    Segment.print_code]
  unfold callOf at hcall
  split at hcall
  · next name arguments hfront hlast =>
    cases hcall
    obtain ⟨-, hlast⟩ := hparts hlast
    rw [Syntax.lexemes, lexemesOf_leaf, evenLexemes_cons_iff] at hlast
    obtain ⟨⟨hlead, hname⟩, harguments⟩ := hlast
    refine ⟨hlead, ?_⟩
    simp only [Call.print, Identifier.print, Space.text_empty, String.empty_append]
    exact ((hname.append harguments.printSyntax).append hclose).append hend
  · next dot name arguments hlast =>
    split at hcall
    · cases hcall
    · cases hcall
      obtain ⟨hobject, hlast⟩ := hparts hlast
      rw [Syntax.lexemes, lexemesOf_leaf, lexemesOf_leaf, evenLexemes_cons_iff,
        evenLexemes_cons_iff] at hlast
      obtain ⟨⟨hdot, -⟩, ⟨hlead, hname⟩, harguments⟩ := hlast
      refine ⟨hobject.leadOf, ?_⟩
      simp only [Call.print, Identifier.print, print_receiverOf, Space.text_empty,
        String.empty_append]
      exact ((((hobject.textOf.append hdot).append hpoint).append (hlead.append hname)).append
        harguments.printSyntax |>.append hclose).append hend
  · cases hcall

theorem even_type {m : Phrase} {modifiers : List Syntax} {key name : Lexeme} {header body : Syntax}
    (hleading : ∀ s ∈ modifiers, s.Leading)
    (h : EvenLexemes e (lexemesOf [.node m modifiers, .leaf key, .leaf name, header]))
    (hbody : ∀ env, (blockOf env body).Even e) (env : Environment) (id : StatementId) :
    Even e [statementOf env id (.node .typeDecl [.node m modifiers, .leaf key, .leaf name, header,
      body])] := by
  simp only [lexemesOf_node, lexemesOf_leaf, evenLexemes_append_iff, evenLexemes_cons_iff] at h
  obtain ⟨hmodifiers, ⟨hkeyLead, hkey⟩, ⟨hnameLead, hname⟩, hheader⟩ := h
  have hfront : EvenLexemes e (lexemesOf [.node m modifiers, .leaf key]) := by
    simp [hmodifiers, hkeyLead, hkey]
  have hkeyword : ∀ kind : TypeKind, e.Throughout kind.keyword := by
    intro kind
    cases kind <;> exact LineEnding.throughout_of_unbroken (by decide)
  refine even_type_iff.mpr ⟨?_, hbody _⟩
  simp only [TypeDecl.headSegments, Identifier.print, uniform_append_iff, uniform_cons_iff,
    uniform_nil, and_true, Segment.print_space, Segment.print_code]
  refine ⟨⟨hfront.leadOf, even_leadingOf_clearLead _ hleading hmodifiers⟩, ?_, ?_⟩
  · split
    · exact e.throughout_empty
    · exact hkeyLead
  · exact ((hkeyword _).append (hnameLead.append hname)).append hheader.printSyntax

theorem even_method {m g p t : Phrase} {modifiers generic parameters throwing : List Syntax}
    {type dims body : Syntax} {name : Lexeme} (hleading : ∀ s ∈ modifiers, s.Leading)
    (hgeneric : ∀ s ∈ generic.head?, s.Leading)
    (hthrowing : throwing = [] ∨ ∃ key types, key.text = "throws" ∧
      CommaList Syntax.IsNode types ∧ throwing = .leaf key :: types)
    (h : EvenLexemes e (lexemesOf [.node m modifiers, .node g generic, type, .leaf name,
      .node p parameters, dims, .node t (throwing.map tight)]))
    (hbody : ∀ env, match body with
      | .node b cs => (blockOf env (.node b cs)).Even e
      | .leaf l => e.Throughout l.lead.text) (env : Environment) (id : StatementId) :
    Even e [statementOf env id (.node .method [.node m modifiers, .node g generic, type,
      .leaf name, .node p parameters, dims, .node t throwing, body])] := by
  simp only [lexemesOf, Syntax.lexemes, evenLexemes_append_iff, evenLexemes_cons_iff,
    evenLexemes_nil, and_true] at h
  obtain ⟨hmodifiers, hgen, htype, ⟨hnameLead, hname⟩, hparameters, hdims, hthrows⟩ := h
  have hfront : EvenLexemes e (lexemesOf (modifiers ++ generic ++ [type])) := by
    simp [lexemesOf_append, lexemesOf_singleton, hmodifiers, hgen, htype]
  have hbehind : EvenLexemes e (lexemesOf [.node p parameters, dims]) := by
    simp [lexemesOf_singleton, hparameters, hdims]
  obtain ⟨hleads, hreturn⟩ := even_generic env.resolver hleading hgeneric hmodifiers hgen htype
  have hthrown := even_throwsOf env.resolver hthrowing hthrows
  have hmiddle : e.Throughout (name.lead.text ++ name.text ++
      printSyntax [.node p parameters, dims]) := (hnameLead.append hname).append hbehind.printSyntax
  cases body with
  | leaf l =>
    refine (even_signature_iff rfl).mpr ⟨?_, hbody env⟩
    simp only [MethodDecl.headSegments, uniform_append_iff, uniform_cons_iff, uniform_nil, and_true]
    exact ⟨⟨⟨⟨hfront.leadOf, hleads⟩, hreturn⟩, hmiddle⟩, hthrown⟩
  | node b cs =>
    refine (even_method_iff rfl).mpr ⟨?_, hbody _⟩
    simp only [MethodDecl.headSegments, uniform_append_iff, uniform_cons_iff, uniform_nil, and_true]
    exact ⟨⟨⟨⟨hfront.leadOf, hleads⟩, hreturn⟩, hmiddle⟩, hthrown⟩

/-! ## Bodies -/

theorem evenLexemes_printedItems_iff {items : List Syntax} :
    EvenLexemes e (printedItems items) ↔ ∀ s ∈ items, EvenLexemes e (printed s) := by
  induction items with
  | nil => simp [printedItems]
  | cons s items ih => rw [printedItems, evenLexemes_append_iff, ih, List.forall_mem_cons]

theorem even_braced {b i : Phrase} {first last : Lexeme} {items : List Syntax}
    (ih : ∀ s ∈ items, EvenLexemes e (printed s) → ∀ env id, Even e [statementOf env id s])
    (h : EvenLexemes e (printedBody (.node b [.leaf first, .node i items, .leaf last])))
    (env : Environment) :
    (blockOf env (.node b [.leaf first, .node i items, .leaf last])).Even e := by
  have hprinted : printedBody (.node b [.leaf first, .node i items, .leaf last]) =
      first :: printedItems items ++ [last] := rfl
  simp only [hprinted, List.cons_append, evenLexemes_cons_iff, evenLexemes_append_iff,
    evenLexemes_printedItems_iff] at h
  obtain ⟨⟨hfirst, -⟩, hitems, ⟨hlast, -⟩, -⟩ := h
  refine Block.even_iff.mpr ⟨hfirst, even_iff_forall.mpr fun t ht => ?_, hlast⟩
  obtain ⟨s, hs, env, id, -, rfl⟩ := mem_statementsOf ht
  exact ih s hs (hitems s hs) env id

/-- The semicolons behind the last member are printed with the constants. -/
theorem mem_throughLastSemicolon {items : List Syntax} {s : Syntax}
    (h : s ∈ semicolonsBehind items) : s ∈ throughLastSemicolon items := by
  unfold semicolonsBehind at h
  unfold throughLastSemicolon
  rw [List.mem_reverse] at h ⊢
  generalize items.reverse = reversed at h ⊢
  cases reversed with
  | nil => cases h
  | cons t reversed =>
    by_cases ht : isSemicolon t
    · rw [List.dropWhile_cons_of_neg (by simp [ht])]
      exact (List.takeWhile_sublist _).subset h
    · rw [List.takeWhile_cons_of_neg ht] at h
      cases h

/-- The members of an enum behind the first one. -/
theorem even_enumMembersOf_some {items : List Syntax}
    (h : ∀ s ∈ items, EvenLexemes e (printed s) ∧ ∀ env id, Even e [statementOf env id s])
    (env : Environment) (id : StatementId) {text : String} (htext : e.Throughout text) :
    Even e (enumMembersOf env id (some text) items) := by
  induction items generalizing env id text with
  | nil => exact even_nil
  | cons s items ih =>
    obtain ⟨⟨hprinted, hs⟩, hitems⟩ := List.forall_mem_cons.mp h
    cases s with
    | leaf l =>
      obtain ⟨hlead, hl⟩ := (evenLexemes_cons_iff.mp hprinted).1
      exact ih hitems env id (htext.append (hlead.append hl))
    | node p cs =>
      rw [enumMembersOf_node, even_cons_iff]
      exact ⟨(hs env id).withLead (htext.append (hs env id).throughout_lead),
        ih hitems _ _ e.throughout_empty⟩

/-- The members of an enum. The space of the first one is printed with the constants if a semicolon
stands behind it, and only then. -/
theorem even_enumMembersOf_none {items : List Syntax} (hshaped : ∀ s ∈ items, Shaped s)
    (ih : ∀ s ∈ items, EvenLexemes e (printed s) → ∀ env id, Even e [statementOf env id s])
    (hfront : EvenLexemes e (lexemesOf (throughLastSemicolon items)))
    (h : EvenLexemes e (printedMembers items)) (env : Environment) (id : StatementId) :
    Even e (enumMembersOf env id none items) := by
  induction items with
  | nil => exact even_nil
  | cons s items ihitems =>
    obtain ⟨hs, hitems⟩ := List.forall_mem_cons.mp ih
    obtain ⟨hshape, hshapes⟩ := List.forall_mem_cons.mp hshaped
    rw [throughLastSemicolon_cons] at hfront
    cases s with
    | leaf l =>
      rw [List.any_cons, show isSemicolon (.leaf l) = true from rfl, Bool.true_or, if_pos rfl,
        lexemesOf_leaf, evenLexemes_cons_iff] at hfront
      exact ihitems hshapes hitems hfront.2 h
    | node p cs =>
      rw [printedMembers, evenLexemes_append_iff, evenLexemes_printedItems_iff] at h
      obtain ⟨hown, hmore⟩ := h
      have hrest := even_enumMembersOf_some (fun t ht => ⟨hmore t ht, hitems t ht (hmore t ht)⟩)
        (env.bind (bindingsOf (statementOf env id (.node p cs)))) (id + 1) e.throughout_empty
      rw [enumMembersOf_node, even_cons_iff]
      refine ⟨?_, hrest⟩
      by_cases hbehind : items.any isSemicolon
      · rw [List.any_cons, hbehind, Bool.or_true, if_pos rfl, lexemesOf,
          evenLexemes_append_iff] at hfront
        rw [if_pos hbehind] at hown
        have hprinted : EvenLexemes e (printed (.node p cs)) :=
          hown.of_leadWith (hshape.firstLead_printed ▸ hfront.1.firstLead)
        rw [memberLead, if_pos hbehind]
        exact (hs hprinted env id).withLead e.throughout_empty
      · rw [if_neg hbehind] at hown
        rw [memberLead, if_neg hbehind, Statement.withLead_lead]
        exact hs hown env id

theorem even_enum {b c i : Phrase} {first last : Lexeme} {constants items : List Syntax}
    (hshaped : ∀ s ∈ items, Shaped s)
    (ih : ∀ s ∈ items, EvenLexemes e (printed s) → ∀ env id, Even e [statementOf env id s])
    (h : EvenLexemes e (printedBody
      (.node b [.leaf first, .node c constants, .node i items, .leaf last])))
    (env : Environment) :
    (blockOf env (.node b [.leaf first, .node c constants, .node i items, .leaf last])).Even e := by
  have hprinted : printedBody (.node b [.leaf first, .node c constants, .node i items,
      .leaf last]) = first :: lexemesOf (constants ++ throughLastSemicolon items) ++
        printedMembers items ++ [last] := rfl
  simp only [hprinted, List.cons_append, evenLexemes_cons_iff, evenLexemes_append_iff] at h
  obtain ⟨⟨hfirst, -⟩, ⟨hhead, hmembers⟩, ⟨hlast, -⟩, -⟩ := h
  have hfront : EvenLexemes e (lexemesOf (throughLastSemicolon items)) := by
    rw [lexemesOf_append, evenLexemes_append_iff] at hhead
    exact hhead.2
  unfold blockOf
  extract_lets head behind
  have hbehind : EvenLexemes e (lexemesOf behind) := by
    unfold behind
    split
    · exact evenLexemes_nil
    · exact evenLexemes_lexemesOf_iff.mpr fun s hs =>
        evenLexemes_lexemesOf_iff.mp hfront s (mem_throughLastSemicolon hs)
  refine Block.even_iff.mpr ⟨hfirst, even_append_iff.mpr ⟨?_, ?_⟩, hbehind.printSyntax.append hlast⟩
  · split
    · exact even_nil
    · exact even_rawOf 0 hhead
  · exact even_enumMembersOf_none hshaped ih hfront hmembers env 1

/-- A statement that was built from source has the line ending that its lexemes have as they are
printed. -/
theorem Shaped.even {s : Syntax} (h : Shaped s) :
    EvenLexemes e (printed s) → ∀ env id, Even e [statementOf env id s] := by
  induction h with
  | type hmodifiers hkey hfirst hlast hitems ih =>
    intro h
    obtain ⟨hhead, hbody⟩ := evenLexemes_append_iff.mp h
    exact even_type hmodifiers hhead (even_braced ih hbody)
  | enum hmodifiers hkey hfirst hlast hmembers hitems ih =>
    intro h
    obtain ⟨hhead, hbody⟩ := evenLexemes_append_iff.mp h
    exact even_type hmodifiers hhead (even_enum hitems ih hbody)
  | vars hmodifiers htype hdeclarators hclose =>
    intro h env id
    simp only [printed, lexemesOf, Syntax.lexemes, evenLexemes_append_iff, evenLexemes_cons_iff,
      evenLexemes_nil, and_true] at h
    obtain ⟨hmods, hwritten, hlist, hend, -⟩ := h
    exact even_variablesOf env.resolver id hmodifiers hmods hwritten hlist hend
  | signature hmodifiers hgeneric htype hthrowing hclose =>
    intro h
    obtain ⟨hhead, hbody⟩ := evenLexemes_append_iff.mp h
    exact even_method hmodifiers hgeneric hthrowing hhead fun _ =>
      (evenLexemes_cons_iff.mp hbody).1.1
  | method hmodifiers hgeneric htype hthrowing hfirst hlast hflat hitems ih =>
    intro h
    obtain ⟨hhead, hbody⟩ := evenLexemes_append_iff.mp h
    exact even_method hmodifiers hgeneric hthrowing hhead (even_braced ih hbody)
  | @expression e' o operand close hdot hclose =>
    intro h env id
    have hoperand : EvenLexemes e (lexemesOf (operand ++ [.leaf close])) := by
      simpa [printed, lexemesOf_append, Syntax.lexemes] using h
    rw [statementOf_expression]
    split
    · next call hcall => exact even_callOf hoperand hcall
    · exact even_rawOf id (by simpa [lexemesOf_append] using hoperand)
  | raw h =>
    intro hprinted env id
    rw [printed_of_raw h, ← lexemesOf_singleton] at hprinted
    rw [h]
    exact even_rawOf id hprinted

/-! ## Printed lexemes are whole -/

/-- No lexeme begins or ends inside a line ending. -/
def Whole (ls : List Lexeme) : Prop := ∀ l ∈ ls, Solid l.text.toList

@[simp] theorem whole_nil : Whole [] := nofun

@[simp] theorem whole_cons_iff {l : Lexeme} {ls : List Lexeme} :
    Whole (l :: ls) ↔ Solid l.text.toList ∧ Whole ls := List.forall_mem_cons

@[simp] theorem whole_append_iff {ls ms : List Lexeme} : Whole (ls ++ ms) ↔ Whole ls ∧ Whole ms :=
  List.forall_mem_append

theorem Whole.leadWith {ls : List Lexeme} (h : Whole ls) (lead : Space) :
    Whole (leadWith lead ls) := by
  cases ls with
  | nil => exact h
  | cons l ls =>
    obtain ⟨hl, hls⟩ := whole_cons_iff.mp h
    exact whole_cons_iff.mpr ⟨hl, hls⟩

theorem whole_tight {cs : List Syntax} (h : Whole (lexemesOf cs)) :
    Whole (lexemesOf (cs.map tight)) := by
  refine forall_mem_lexemesOf_iff.mpr (List.forall_mem_map.mpr fun s hs => ?_)
  have hwhole : Whole s.lexemes := forall_mem_lexemesOf_iff.mp h s hs
  cases s with
  | leaf l =>
    have hl := (whole_cons_iff.mp hwhole).1
    rw [tight]
    split <;> exact whole_cons_iff.mpr ⟨hl, whole_nil⟩
  | node p ds => exact hwhole

theorem whole_printedItems {items : List Syntax}
    (h : ∀ s ∈ items, Whole (printed s)) : Whole (printedItems items) := by
  induction items with
  | nil => exact nofun
  | cons s items ih =>
    obtain ⟨hs, hitems⟩ := List.forall_mem_cons.mp h
    rw [printedItems]
    exact whole_append_iff.mpr ⟨hs, ih hitems⟩

theorem whole_printedMembers {items : List Syntax}
    (h : ∀ s ∈ items, Whole (printed s)) : Whole (printedMembers items) := by
  induction items with
  | nil => exact nofun
  | cons s items ih =>
    obtain ⟨hs, hitems⟩ := List.forall_mem_cons.mp h
    cases s with
    | leaf l => exact ih hitems
    | node p cs =>
      rw [printedMembers]
      refine whole_append_iff.mpr ⟨?_, whole_printedItems hitems⟩
      split
      · exact hs.leadWith .empty
      · exact hs

theorem whole_throughLastSemicolon {items : List Syntax} (h : Whole (lexemesOf items)) :
    Whole (lexemesOf (throughLastSemicolon items)) := by
  exact forall_mem_lexemesOf_iff.mpr fun s hs =>
    forall_mem_lexemesOf_iff.mp h s ((throughLastSemicolon_isPrefix items).subset hs)

/-- What is printed of a statement are lexemes of its syntax tree, with other spaces. -/
theorem Shaped.whole_printed {s : Syntax} (h : Shaped s) : Whole s.lexemes → Whole (printed s) := by
  induction h with
  | type _ _ _ _ _ ih =>
    intro h
    simp only [Syntax.lexemes, lexemesOf, whole_append_iff, whole_cons_iff, whole_nil, and_true] at h
    obtain ⟨hmodifiers, hkey, hname, hheader, hfirst, hitems, hlast⟩ := h
    have hmembers := whole_printedItems fun s hs => ih s hs (forall_mem_lexemesOf_iff.mp hitems s hs)
    simp [printed, printedBody, lexemesOf, Syntax.lexemes, hmodifiers, hkey, hname, hheader, hfirst,
      hmembers, hlast]
  | enum _ _ _ _ _ _ ih =>
    intro h
    simp only [Syntax.lexemes, lexemesOf, whole_append_iff, whole_cons_iff, whole_nil, and_true] at h
    obtain ⟨hmodifiers, hkey, hname, hheader, hfirst, hconstants, hitems, hlast⟩ := h
    have hmembers := whole_printedMembers fun s hs =>
      ih s hs (forall_mem_lexemesOf_iff.mp hitems s hs)
    have hfront := whole_throughLastSemicolon hitems
    simp [printed, printedBody, lexemesOf_append, lexemesOf, Syntax.lexemes, hmodifiers, hkey, hname,
      hheader, hfirst, hconstants, hfront, hmembers, hlast]
  | vars =>
    intro h
    simp only [Syntax.lexemes, lexemesOf, whole_append_iff, whole_cons_iff, whole_nil, and_true] at h
    obtain ⟨hmodifiers, htype, hdeclarators, hclose⟩ := h
    have htight := whole_tight hdeclarators
    simp [printed, lexemesOf, Syntax.lexemes, hmodifiers, htype, htight, hclose]
  | signature =>
    intro h
    simp only [Syntax.lexemes, lexemesOf, whole_append_iff, whole_cons_iff, whole_nil, and_true] at h
    obtain ⟨hmodifiers, hgeneric, htype, hname, hparameters, hdims, hthrowing, hclose⟩ := h
    have htight := whole_tight hthrowing
    simp [printed, printedBody, lexemesOf, Syntax.lexemes, hmodifiers, hgeneric, htype, hname,
      hparameters, hdims, htight, hclose]
  | method _ _ _ _ _ _ _ _ ih =>
    intro h
    simp only [Syntax.lexemes, lexemesOf, whole_append_iff, whole_cons_iff, whole_nil, and_true] at h
    obtain ⟨hmodifiers, hgeneric, htype, hname, hparameters, hdims, hthrowing, hfirst, hitems,
      hlast⟩ := h
    have htight := whole_tight hthrowing
    have hstatements := whole_printedItems fun s hs =>
      ih s hs (forall_mem_lexemesOf_iff.mp hitems s hs)
    simp [printed, printedBody, lexemesOf, Syntax.lexemes, hmodifiers, hgeneric, htype, hname,
      hparameters, hdims, htight, hfirst, hstatements, hlast]
  | expression => exact id
  | raw h =>
    rw [printed_of_raw h]
    exact id

theorem whole_printedImport {parts : List Syntax} (h : Whole (lexemesOf parts)) :
    Whole (printedImport parts) := by
  have hbare : ∀ tail : List Syntax, Whole (lexemesOf tail) →
      Whole ((lexemesOf tail).map fun l => { l with lead := .empty }) := fun _ htail =>
    List.forall_mem_map.mpr htail
  unfold printedImport
  split
  · next key word name tail =>
    simp only [lexemesOf, Syntax.lexemes, whole_append_iff, whole_cons_iff, whole_nil, and_true] at h
    obtain ⟨hkey, hword, hname, htail⟩ := h
    simp [hkey, hword, hname.leadWith .single, hbare tail htail]
  · next key name tail _ =>
    simp only [lexemesOf, Syntax.lexemes, whole_append_iff, whole_cons_iff, whole_nil, and_true] at h
    obtain ⟨hkey, hname, htail⟩ := h
    simp [hkey, hname.leadWith .single, hbare tail htail]
  · exact h

theorem whole_printedTop {s : Syntax} (hvalid : s.Valid) (h : Whole s.lexemes) :
    Whole (printedTop s) := by
  unfold printedTop
  split
  · exact hvalid.shaped.whole_printed h
  · exact h

theorem whole_printedUnit {items : List Syntax} (hvalid : ∀ s ∈ items, s.Valid)
    (h : Whole (lexemesOf items)) : Whole (printedUnit items) := by
  have hitem := forall_mem_lexemesOf_iff.mp h
  unfold printedUnit
  refine whole_append_iff.mpr ⟨whole_append_iff.mpr ⟨?_, ?_⟩, ?_⟩
  · cases hlast : (items.filterMap packageParts).getLast? with
    | none => exact whole_nil
    | some parts =>
      obtain ⟨s, hs, hparts⟩ := List.mem_filterMap.mp (List.mem_of_getLast? hlast)
      rw [eq_of_packageParts hparts] at hs
      exact hitem _ hs
  · refine List.forall_mem_flatMap.mpr fun parts hparts => ?_
    obtain ⟨s, hs, hparts⟩ := List.mem_filterMap.mp hparts
    rw [eq_of_importParts hparts] at hs
    exact whole_printedImport (hitem _ hs)
  · refine List.forall_mem_flatMap.mpr fun s hs => ?_
    have hmem := List.mem_of_mem_filter hs
    exact whole_printedTop (hvalid s hmem) (hitem s hmem)

/-! ## Units -/

theorem even_topLevelOf {items : List Syntax} (hvalid : ∀ s ∈ items, s.Valid)
    (h : EvenLexemes e ((items.filter fun s => !isHeader s).flatMap printedTop))
    (env : Environment) : Even e (topLevelOf env items) := by
  rw [topLevelOf_eq]
  refine even_iff_forall.mpr fun t ht => ?_
  obtain ⟨id, hid, rfl⟩ := List.mem_mapIdx.mp ht
  have hmem := List.getElem_mem hid
  have hprinted : EvenLexemes e (printedTop _) := List.forall_mem_flatMap.mp h _ hmem
  split
  · next cs heq =>
    rw [heq] at hmem hprinted ⊢
    exact (hvalid _ (List.mem_of_mem_filter hmem)).shaped.even hprinted env id
  · next hne =>
    rw [printedTop_of_ne hne, ← lexemesOf_singleton] at hprinted
    exact even_rawOf id hprinted

theorem even_unitOf {items : List Syntax} (hvalid : ∀ s ∈ items, s.Valid) {close : Space}
    (h : EvenLexemes e (printedUnit items)) (hclose : e.Throughout close.text) (resolver : Resolver)
    (path : String) : (unitOf resolver path items close).Even e := by
  obtain ⟨hheader, htypes⟩ := evenLexemes_append_iff.mp h
  obtain ⟨hpackage, himports⟩ := evenLexemes_append_iff.mp hheader
  constructor
  · exact e.throughout_empty
  · show Uniform e (((packageOfItems items).map Package.segments).getD [])
    rw [packageOfItems_eq]
    cases hparts : (items.filterMap packageParts).getLast? with
    | none => exact uniform_nil
    | some parts =>
      rw [hparts] at hpackage
      simp only [Option.map_some, Option.getD_some, Package.segments, uniform_cons_iff, uniform_nil,
        and_true]
      exact ⟨EvenLexemes.leadOf hpackage, EvenLexemes.textOf hpackage⟩
  · show ∀ i ∈ importsOf items, Uniform e i.segments
    intro i hi
    rw [importsOf_eq] at hi
    obtain ⟨id, hid, rfl⟩ := List.mem_mapIdx.mp hi
    have hparts := List.getElem_mem hid
    rw [Import.uniform_segments_iff, print_importFrom (conforms_of_mem_importParts hvalid hparts)]
    exact EvenLexemes.throughout_print (List.forall_mem_flatMap.mp himports _ hparts)
  · exact even_topLevelOf hvalid htypes { resolver }
  · exact hclose

/-- If the text that a unit prints has one line ending, so has everything that it is made of. -/
theorem even_of_throughout {classpath : Classpath} {path source : String} {u : CompilationUnit}
    (h : parse? classpath path source = some u) (hprint : e.Throughout u.print) : u.Even e := by
  unfold parse? at h
  obtain ⟨⟨items, close⟩, hread, rfl⟩ := Option.map_eq_some_iff.mp h
  have hvalid := readUnit_valid hread
  obtain ⟨ls, hlex, hin⟩ := exists_lexemes hread
  have hwhole : Whole (lexemesOf items) := forall_mem_lexemesOf_iff.mpr fun s hs l hl =>
    solid_lex hlex l ((hin s hs).2.subset hl)
  rw [print_unitOf hvalid] at hprint
  obtain ⟨heven, hclose⟩ := evenLexemes_of_throughout (whole_printedUnit hvalid hwhole) hprint
  exact even_unitOf hvalid heven hclose _ path


end JavaMigration.Java
