import JavaMigration.Proofs.Java.Boundaries
import JavaMigration.Proofs.Java.Variables

/-!
# What a search over a tree sees

The pieces of a tree leave out some of its source: the package declaration, the key words of
declarations, and the annotations between the type parameters of a method and its return type,
which the tree keeps in the space in front of that type. `visible` lists the lexemes of a statement
without those annotations. Each word among them that is no key word is in a piece
(`Shaped.showsAny_statementOf`).
-/

namespace JavaMigration.Source

/-- Whether the word stands in the piece. Imports do not count. -/
def Piece.shows (w : String) : Piece → Bool
  | .imported _ => false
  | .identifier i => Text.containsWord i.name w
  | .text s => Text.containsWord s w

/-- Whether the word stands in one of the pieces. -/
def showsAny (w : String) (ps : List Piece) : Bool := ps.any (Piece.shows w)

variable {w : String}

@[simp] theorem showsAny_nil : showsAny w [] = false := rfl

@[simp] theorem showsAny_cons (p : Piece) (ps : List Piece) :
    showsAny w (p :: ps) = (p.shows w || showsAny w ps) := rfl

@[simp] theorem showsAny_append (ps qs : List Piece) :
    showsAny w (ps ++ qs) = (showsAny w ps || showsAny w qs) := List.any_append

theorem showsAny_of_mem {p : Piece} {ps : List Piece} (hp : p ∈ ps) (h : p.shows w) :
    showsAny w ps := List.any_eq_true.mpr ⟨p, hp, h⟩

/-- What a method has in front of its body is among its pieces. -/
theorem MethodDecl.showsAny_of_head {d : MethodDecl}
    (h : showsAny w (leadingPieces d.annotations d.modifiers ++
      [.identifier d.returnType, .identifier d.name, .text d.parameters] ++
      (d.throws.map (·.types)).toList.flatten.map .identifier)) : showsAny w d.pieces := by
  cases hbody : d.body with
  | none => rwa [d.pieces_of_none hbody]
  | some b => rw [d.pieces_of_some hbody, showsAny_append, h, Bool.true_or]

end JavaMigration.Source

namespace JavaMigration.Java

open Text Source

/-! ## Visible lexemes -/

mutual

/-- The lexemes of a statement that its tree does not hide in a space. -/
def visible : Syntax → List Lexeme
  | .node .typeDecl [.node m modifiers, .leaf key, .leaf name, header, body] =>
    lexemesOf [.node m modifiers, .leaf key, .leaf name, header] ++ visibleBody body
  | .node .method [.node m modifiers, .node g generic, type, .leaf name, .node p parameters,
      dims, .node t throwing, body] =>
    -- behind the type parameters stand annotations only
    lexemesOf [.node m modifiers, .node g (generic.take 1), type, .leaf name, .node p parameters,
      dims, .node t throwing] ++ visibleBody body
  | s => s.lexemes

def visibleBody : Syntax → List Lexeme
  | .node _ [.leaf first, .node _ items, .leaf last] => first :: visibleItems items ++ [last]
  | .node _ [.leaf first, .node _ constants, .node _ members, .leaf last] =>
    first :: lexemesOf constants ++ visibleItems members ++ [last]
  | s => s.lexemes

def visibleItems : List Syntax → List Lexeme
  | [] => []
  | s :: rest => visible s ++ visibleItems rest

end

/-- Raw code hides nothing. -/
theorem visible_of_raw {s : Syntax} (h : ∀ env id, statementOf env id s = rawOf id [s]) :
    visible s = s.lexemes := by
  have hstatement := h ⟨default, [], ""⟩ 0
  unfold visible
  split
  · cases hstatement
  · next body =>
    cases body with
    | leaf l => cases hstatement
    | node b cs => cases hstatement
  · rfl

/-- The key words of declarations, which are in no piece. -/
def declarationKeys : List String := ["class", "interface", "enum", "throws"]

/-! ## Words in parts -/

/-- The word is one of these lexemes of a source. -/
structure Occurs (w : String) (ls : List Lexeme) : Prop where
  separated : Separated ls
  word : HasWord w ls

namespace Occurs

variable {w : String} {ls ms : List Lexeme} {cs : List Syntax}

theorem of_append (h : Occurs w (ls ++ ms)) : Occurs w ls ∨ Occurs w ms :=
  h.word.of_append.imp (⟨h.separated.within (List.prefix_append ls ms).isInfix, ·⟩)
    (⟨h.separated.within (List.suffix_append ls ms).isInfix, ·⟩)

theorem of_cons {s : Syntax} (h : Occurs w (lexemesOf (s :: cs))) :
    Occurs w s.lexemes ∨ Occurs w (lexemesOf cs) := of_append h

theorem ne_nil (h : Occurs w (lexemesOf cs)) : cs ≠ [] := by
  rintro rfl
  exact not_hasWord_nil h.word

theorem of_lexemesOf (h : Occurs w (lexemesOf cs)) : ∃ s ∈ cs, Occurs w s.lexemes := by
  induction cs with
  | nil => exact absurd rfl h.ne_nil
  | cons s cs ih =>
    rcases h.of_cons with h | h
    · exact ⟨s, List.mem_cons_self, h⟩
    · obtain ⟨t, ht, h⟩ := ih h
      exact ⟨t, List.mem_cons_of_mem _ ht, h⟩

theorem leadWith_empty (h : Occurs w ls) : Occurs w (leadWith .empty ls) :=
  ⟨h.separated.leadWith_empty, h.word.leadWith_empty⟩

theorem textOf (h : Occurs w (lexemesOf cs)) : containsWord (textOf cs) w :=
  containsWord_textOf h.separated h.word

theorem printSyntax (h : Occurs w (lexemesOf cs)) : containsWord (printSyntax cs) w :=
  containsWord_printSyntax h.separated h.word

theorem leaf {l : Lexeme} (h : Occurs w [l]) : containsWord l.text w := by
  have hcs : Occurs w (lexemesOf [.leaf l]) := h
  have htext : Java.textOf [.leaf l] = l.text := String.append_empty
  rw [← htext]
  exact hcs.textOf

theorem text_eq {l : Lexeme} (h : Occurs w [l]) : l.text = w := h.word.of_singleton.2

/-- A word is no mark. -/
theorem ne_mark {l : Lexeme} (h : Occurs w [l]) {m : String}
    (hm : isIdentifier m.toList = false) : l.text ≠ m := by
  have hl := h.separated.bounded l List.mem_cons_self
  rintro rfl
  rw [hl.word h.word.of_singleton.1] at hm
  cases hm

end Occurs

theorem Syntax.In.occurs {w : String} {ls : List Lexeme} {p : Phrase} {cs ds : List Syntax}
    (hs : (Syntax.node p cs).In ls) (hls : Separated ls) (hds : ds <:+: cs)
    (h : HasWord w (lexemesOf ds)) : Occurs w (lexemesOf ds) :=
  ⟨hls.within ((lexemesOf_isInfix hds).trans hs.2), h⟩

theorem Syntax.In.not_hasWord {w : String} {ls : List Lexeme} {l : Lexeme} {m : String}
    (hs : (Syntax.leaf l).In ls) (hls : Separated ls) (htext : l.text = m)
    (hm : isIdentifier m.toList = false) : ¬ HasWord w [l] := fun h =>
  absurd htext (Occurs.ne_mark ⟨hls.within hs.2, h⟩ hm)

/-! ## Parts of declarations -/

section

variable {w : String} (resolver : Resolver)

theorem shows_identifierOf {s : Syntax} (h : Occurs w s.lexemes) :
    containsWord (identifierOf resolver s).name w := by
  rw [← lexemesOf_singleton] at h
  exact h.textOf

theorem shows_modifierOf {s : Syntax} (h : Occurs w s.lexemes) :
    containsWord (modifierOf s).word w := by
  rw [← lexemesOf_singleton] at h
  exact h.textOf

theorem showsAny_annotation? {s : Syntax} {a : Annotation} (hs : s.Leading)
    (h : Occurs w s.lexemes) (ha : annotation? resolver s = some a) : showsAny w a.pieces := by
  unfold annotation? at ha
  split at ha
  · next mark name arguments =>
    cases ha
    have hmark : mark.text = "@" := hs rfl
    rcases Occurs.of_cons h with h | h
    · exact absurd hmark (h.ne_mark (by decide))
    · unfold Annotation.pieces
      rw [showsAny_cons, Bool.or_eq_true]
      rcases h.of_cons with h | h
      · exact .inl (shows_identifierOf resolver h)
      · right
        rw [if_neg (by simpa using h.ne_nil)]
        exact Bool.or_eq_true_iff.mpr (.inl h.printSyntax)
  · cases ha

theorem showsAny_modifiers {cs : List Syntax} (h : Occurs w (lexemesOf cs)) :
    showsAny w ((cs.map modifierOf).map fun m => .text m.word) := by
  obtain ⟨s, hs, hword⟩ := h.of_lexemesOf
  rw [List.map_map]
  exact showsAny_of_mem (List.mem_map_of_mem hs) (shows_modifierOf hword)

theorem showsAny_leadingOf {cs : List Syntax} (hcs : ∀ s ∈ cs, s.Leading)
    (h : Occurs w (lexemesOf cs)) :
    showsAny w (leadingPieces (leadingOf resolver cs).1 (leadingOf resolver cs).2) := by
  induction cs with
  | nil => exact absurd rfl h.ne_nil
  | cons s cs ih =>
    obtain ⟨hs, hcs⟩ := List.forall_mem_cons.mp hcs
    unfold leadingOf
    split
    · next a ha =>
      rw [leadingPieces, List.flatMap_cons, List.append_assoc, showsAny_append, Bool.or_eq_true]
      exact h.of_cons.imp (showsAny_annotation? resolver hs · ha) (ih hcs)
    · exact showsAny_modifiers h

theorem showsAny_leadingOf_clearLead {cs : List Syntax} (hcs : ∀ s ∈ cs, s.Leading)
    (h : Occurs w (lexemesOf cs)) :
    showsAny w (leadingPieces (leadingOf resolver (clearLead cs)).1
      (leadingOf resolver (clearLead cs)).2) := by
  refine showsAny_leadingOf resolver (leading_clearLead hcs) ?_
  rw [lexemesOf_clearLead fun s hs => hcs s (List.mem_of_mem_head? hs)]
  exact h.leadWith_empty

/-- The type parameters in front of a method are kept with its modifiers. -/
theorem showsAny_generic {generic : List Syntax} (hgeneric : ∀ s ∈ generic.head?, s.Leading)
    (h : Occurs w (lexemesOf (generic.take 1))) (bare : Bool) :
    showsAny w ((((if bare then clearLead generic else generic).take 1).map modifierOf).map
      fun m => .text m.word) := by
  refine showsAny_modifiers ?_
  split
  · cases generic with
    | nil => exact h
    | cons s generic =>
      have hs := hgeneric s rfl
      rw [clearLead_cons hs, List.take_succ_cons, List.take_zero, lexemesOf_singleton,
        hs.lexemes_clearLead]
      rw [List.take_succ_cons, List.take_zero, lexemesOf_singleton] at h
      exact h.leadWith_empty
  · exact h

/-- A word among elements with commas between them is in an element. -/
theorem Occurs.of_commaList {P : Syntax → Prop} {cs : List Syntax} (h : Occurs w (lexemesOf cs))
    (hcs : CommaList P cs) : ∃ s ∈ cs, P s ∧ Occurs w s.lexemes := by
  obtain ⟨s, hs, hword⟩ := h.of_lexemesOf
  rcases hcs.mem_cases hs with hP | ⟨comma, rfl, hcomma⟩
  · exact ⟨s, hs, hP, hword⟩
  · exact absurd hcomma (hword.ne_mark (by decide))

theorem showsAny_declarators {type : Syntax} {cs : List Syntax}
    (hcs : CommaList Syntax.IsDeclarator cs) (h : Occurs w (lexemesOf cs)) :
    showsAny w ((cs.filterMap (declaratorOf resolver type)).flatMap (·.pieces)) := by
  obtain ⟨s, hs, hdeclarator, hword⟩ := h.of_commaList hcs
  unfold Syntax.IsDeclarator at hdeclarator
  split at hdeclarator
  · next name d dims rest =>
    have hmem := List.mem_filterMap.mpr ⟨_, hs, (rfl : declaratorOf resolver type _ = _)⟩
    rcases Occurs.of_cons hword with hword | hword
    · exact showsAny_of_mem (List.mem_flatMap.mpr ⟨_, hmem, List.mem_cons_self⟩) hword.leaf
    · refine showsAny_of_mem (p := .text (printSyntax (.node d dims :: rest)))
        (List.mem_flatMap.mpr ⟨_, hmem, List.mem_cons_of_mem _ ?_⟩) hword.printSyntax
      rw [if_neg fun hempty => ?_]
      · exact List.mem_singleton.mpr rfl
      · have hfound := hword.printSyntax
        rw [String.isEmpty_iff.mp hempty] at hfound
        simp [containsWord, wordFrom] at hfound
  · cases hdeclarator

theorem showsAny_throwsOf {throwing : List Syntax} (hw : w ∉ declarationKeys)
    (hthrowing : throwing = [] ∨ ∃ key types, key.text = "throws" ∧
      CommaList Syntax.IsNode types ∧ throwing = .leaf key :: types)
    (h : Occurs w (lexemesOf throwing)) :
    showsAny w (((throwsOf resolver throwing).map (·.types)).toList.flatten.map .identifier) := by
  rcases hthrowing with rfl | ⟨key, types, hkey, htypes, rfl⟩
  · exact absurd rfl h.ne_nil
  · rcases h.of_cons with h | h
    · rw [← h.text_eq, hkey] at hw
      exact absurd (by decide) hw
    · obtain ⟨t, ht, hnode, hword⟩ := h.of_commaList htypes
      cases t with
      | leaf l => cases hnode
      | node p cs =>
        refine showsAny_of_mem (p := .identifier (identifierOf resolver (.node p cs))) ?_
          (shows_identifierOf resolver hword)
        refine List.mem_map_of_mem (List.mem_flatten.mpr ⟨_, List.mem_singleton.mpr rfl, ?_⟩)
        exact List.mem_filterMap.mpr ⟨_, ht, rfl⟩

end

/-! ## Statements -/

section

variable {w : String} {ls : List Lexeme}

theorem showsAny_rawOf (id : StatementId) {cs : List Syntax} (h : Occurs w (lexemesOf cs)) :
    showsAny w (rawOf id cs).pieces := Bool.or_eq_true_iff.mpr (.inl h.textOf)

theorem shows_receiverOf (env : Environment) {object : List Syntax}
    (h : Occurs w (lexemesOf object)) : (receiverOf env object).piece.shows w := by
  unfold receiverOf
  split
  · next l =>
    split <;> exact h.leaf
  · exact h.textOf

theorem showsAny_callOf {env : Environment} {id : StatementId} {operand : List Syntax}
    {close : Lexeme} {call : Call}
    (hdot : ∀ dot name arguments,
      operand.getLast? = some (.node .callOn [.leaf dot, .leaf name, arguments]) → dot.text = ".")
    (hcall : callOf env id operand close = some call) (h : Occurs w (lexemesOf operand)) :
    showsAny w call.pieces := by
  have hoperand : ∀ {last : Syntax}, operand.getLast? = some last →
      Occurs w (lexemesOf operand.dropLast) ∨ Occurs w last.lexemes := by
    intro last hlast
    rw [← List.dropLast_append_getLast? _ hlast, lexemesOf_append, lexemesOf_singleton] at h
    exact h.of_append
  unfold callOf at hcall
  split at hcall
  · next name arguments hfront hlast =>
    cases hcall
    rcases hoperand hlast with h | h
    · rw [hfront] at h
      exact absurd rfl h.ne_nil
    · refine Bool.or_eq_true_iff.mpr ?_
      rcases Occurs.of_cons h with h | h
      · exact .inl h.leaf
      · exact .inr (Bool.or_eq_true_iff.mpr (.inl h.printSyntax))
  · next dot name arguments hlast =>
    split at hcall
    · cases hcall
    · cases hcall
      rcases hoperand hlast with h | h
      · exact Bool.or_eq_true_iff.mpr (.inl (shows_receiverOf env h))
      · refine Bool.or_eq_true_iff.mpr (.inr (Bool.or_eq_true_iff.mpr ?_))
        rcases Occurs.of_cons h with h | h
        · exact absurd (hdot _ _ _ hlast) (h.ne_mark (by decide))
        · rcases h.of_cons with h | h
          · exact .inl h.leaf
          · exact .inr (Bool.or_eq_true_iff.mpr (.inl h.printSyntax))
  · cases hcall

theorem showsAny_type {m : Phrase} {modifiers : List Syntax} {key name : Lexeme}
    {header body : Syntax} (hls : Separated ls)
    (hin : (Syntax.node .typeDecl [.node m modifiers, .leaf key, .leaf name, header, body]).In ls)
    (hmodifiers : ∀ s ∈ modifiers, s.Leading) (hkey : key.text ∈ ["class", "interface", "enum"])
    (hw : w ∉ declarationKeys)
    (hbody : HasWord w (visibleBody body) → ∀ env,
      showsAny w (piecesOf (blockOf env body).statements))
    (h : HasWord w (visible
      (.node .typeDecl [.node m modifiers, .leaf key, .leaf name, header, body])))
    (env : Environment) (id : StatementId) :
    showsAny w (statementOf env id
      (.node .typeDecl [.node m modifiers, .leaf key, .leaf name, header, body])).pieces := by
  refine Eq.trans (congrArg (showsAny w) (TypeDecl.pieces_eq _)) ?_
  rw [visible] at h
  rw [showsAny_append, showsAny_cons, showsAny_cons]
  simp only [Bool.or_eq_true]
  rcases h.of_append with h | h
  · have hhead := hin.occurs hls (List.prefix_append _ [body]).isInfix h
    rcases hhead.of_cons with h | h
    · exact .inl (showsAny_leadingOf_clearLead _ hmodifiers h)
    · rcases h.of_cons with h | h
      · rw [← h.text_eq] at hw
        exact absurd (List.mem_append_left ["throws"] hkey) hw
      · rcases h.of_cons with h | h
        · exact .inr (.inl h.leaf)
        · exact .inr (.inr (.inl h.printSyntax))
  · exact .inr (.inr (.inr (hbody h _)))

theorem showsAny_vars {m d : Phrase} {modifiers declarators : List Syntax} {type : Syntax}
    {close : Lexeme} (hmodifiers : ∀ s ∈ modifiers, s.Leading)
    (hdeclarators : CommaList Syntax.IsDeclarator declarators) (hclose : close.text = ";")
    (h : Occurs w (lexemesOf [.node m modifiers, type, .node d declarators, .leaf close]))
    (env : Environment) (id : StatementId) :
    showsAny w (statementOf env id
      (.node .vars [.node m modifiers, type, .node d declarators, .leaf close])).pieces := by
  refine Eq.trans (b := showsAny w (VariableDecl.pieces _)) rfl ?_
  rw [VariableDecl.pieces, showsAny_append, showsAny_cons]
  simp only [Bool.or_eq_true]
  rcases h.of_cons with h | h
  · exact .inl (showsAny_leadingOf_clearLead _ hmodifiers h)
  · rcases h.of_cons with h | h
    · have htype := shows_identifierOf env.resolver h
      refine .inr (.inl ?_)
      unfold variablesOf
      dsimp only [Piece.shows]
      split <;> exact htype
    · rcases h.of_cons with h | h
      · exact .inr (.inr (showsAny_declarators _ hdeclarators h))
      · exact absurd hclose (Occurs.ne_mark (lexemesOf_singleton _ ▸ h) (by decide))

/-- What a method has in front of its body, but for annotations behind its type parameters. -/
theorem showsAny_methodHead (resolver : Resolver) {m g p t : Phrase}
    {modifiers generic parameters throwing : List Syntax} {type dims body : Syntax} {name : Lexeme}
    {returnType : Identifier} (hls : Separated ls)
    (hin : (Syntax.node .method [.node m modifiers, .node g generic, type, .leaf name,
      .node p parameters, dims, .node t throwing, body]).In ls)
    (hmodifiers : ∀ s ∈ modifiers, s.Leading) (hgeneric : ∀ s ∈ generic.head?, s.Leading)
    (hthrowing : throwing = [] ∨ ∃ key types, key.text = "throws" ∧
      CommaList Syntax.IsNode types ∧ throwing = .leaf key :: types)
    (hw : w ∉ declarationKeys) (hreturn : returnType.name = (identifierOf resolver type).name)
    (h : HasWord w (lexemesOf [.node m modifiers, .node g (generic.take 1), type, .leaf name,
      .node p parameters, dims, .node t throwing])) :
    showsAny w (leadingPieces (leadingOf resolver (clearLead modifiers)).1
        ((leadingOf resolver (clearLead modifiers)).2 ++
          ((if modifiers.isEmpty then clearLead generic else generic).take 1).map modifierOf) ++
      [.identifier returnType, .identifier { lead := name.lead, name := name.text },
        .text (printSyntax [.node p parameters, dims])] ++
      ((throwsOf resolver throwing).map (·.types)).toList.flatten.map .identifier) := by
  rw [leadingPieces, List.map_append, ← List.append_assoc, ← leadingPieces]
  simp only [showsAny_append, showsAny_cons, showsAny_nil, Bool.or_eq_true, Bool.false_eq_true,
    or_false]
  rcases HasWord.of_append h with h | h
  · have hmods := (hin.child (s := .node m modifiers) (by simp)).occurs hls (List.infix_refl _) h
    exact .inl (.inl (.inl (showsAny_leadingOf_clearLead resolver hmodifiers hmods)))
  rcases HasWord.of_append h with h | h
  · have hgen := (hin.child (s := .node g generic) (by simp)).occurs hls
      (List.take_prefix 1 generic).isInfix h
    exact .inl (.inl (.inr (showsAny_generic hgeneric hgen _)))
  have hrest := hin.occurs hls ⟨[.node m modifiers, .node g generic], [body], rfl⟩ h
  rcases hrest.of_cons with h | h
  · refine .inl (.inr (.inl ?_))
    rw [Piece.shows, hreturn]
    exact shows_identifierOf resolver h
  · rcases h.of_cons with h | h
    · exact .inl (.inr (.inr (.inl h.leaf)))
    · rw [show [Syntax.node p parameters, dims, .node t throwing] =
        [.node p parameters, dims] ++ [.node t throwing] from rfl, lexemesOf_append,
        lexemesOf_singleton] at h
      rcases h.of_append with h | h
      · exact .inl (.inr (.inr (.inr h.printSyntax)))
      · exact .inr (showsAny_throwsOf resolver hw hthrowing h)

theorem showsAny_method {m g p t : Phrase} {modifiers generic parameters throwing : List Syntax}
    {type dims body : Syntax} {name : Lexeme} (hls : Separated ls)
    (hin : (Syntax.node .method [.node m modifiers, .node g generic, type, .leaf name,
      .node p parameters, dims, .node t throwing, body]).In ls)
    (hmodifiers : ∀ s ∈ modifiers, s.Leading) (hgeneric : ∀ s ∈ generic.head?, s.Leading)
    (hthrowing : throwing = [] ∨ ∃ key types, key.text = "throws" ∧
      CommaList Syntax.IsNode types ∧ throwing = .leaf key :: types)
    (hw : w ∉ declarationKeys)
    (hbody : HasWord w (visibleBody body) → body.IsNode ∧
      ∀ env, showsAny w (piecesOf (blockOf env body).statements))
    (h : HasWord w (visible (.node .method [.node m modifiers, .node g generic, type, .leaf name,
      .node p parameters, dims, .node t throwing, body])))
    (env : Environment) (id : StatementId) :
    showsAny w (statementOf env id (.node .method [.node m modifiers, .node g generic, type,
      .leaf name, .node p parameters, dims, .node t throwing, body])).pieces := by
  have hreturn : ∀ b : Bool, ∀ lead : Space,
      (if b then { identifierOf env.resolver type with lead := .empty }
        else { identifierOf env.resolver type with lead } : Identifier).name =
          (identifierOf env.resolver type).name := by
    intro b lead
    split <;> rfl
  rw [visible] at h
  rcases h.of_append with hhead | hitems
  · cases body
    all_goals
      exact MethodDecl.showsAny_of_head (showsAny_methodHead env.resolver hls hin hmodifiers
        hgeneric hthrowing hw (hreturn _ _) hhead)
  · obtain ⟨hnode, hshows⟩ := hbody hitems
    cases body with
    | leaf l => cases hnode
    | node b cs =>
      refine Eq.trans (congrArg (showsAny w) (MethodDecl.pieces_of_some rfl)) ?_
      rw [showsAny_append, hshows, Bool.or_true]

theorem showsAny_expression {e o : Phrase} {operand : List Syntax} {close : Lexeme}
    (hdot : ∀ dot name arguments,
      operand.getLast? = some (.node .callOn [.leaf dot, .leaf name, arguments]) → dot.text = ".")
    (hclose : close.text = ";")
    (h : Occurs w (lexemesOf [.node e [.node o operand], .leaf close]))
    (env : Environment) (id : StatementId) :
    showsAny w (statementOf env id
      (.node .expressionStatement [.node e [.node o operand], .leaf close])).pieces := by
  rw [statementOf_expression]
  split
  · next call hcall =>
    rcases h.of_cons with h | h
    · refine showsAny_callOf hdot hcall ?_
      rwa [Syntax.lexemes, lexemesOf_singleton] at h
    · rw [lexemesOf_singleton] at h
      exact absurd hclose (Occurs.ne_mark h (by decide))
  · exact showsAny_rawOf id h

/-! ## Bodies -/

/-- A word that is visible in the syntax tree is in what is built from it. -/
def ShowsWord (w : String) (s : Syntax) : Prop :=
  HasWord w (visible s) → ∀ env id, showsAny w (statementOf env id s).pieces

theorem showsAny_statementsOf {items : List Syntax} (hitems : ∀ s ∈ items, ShowsWord w s)
    (h : HasWord w (visibleItems items)) (env : Environment) (id : StatementId) :
    showsAny w (piecesOf (statementsOf env id items)) := by
  induction items generalizing env id with
  | nil => exact absurd h not_hasWord_nil
  | cons s items ih =>
    obtain ⟨hs, hitems⟩ := List.forall_mem_cons.mp hitems
    rw [visibleItems] at h
    rw [statementsOf, piecesOf, showsAny_append, Bool.or_eq_true]
    exact h.of_append.imp (hs · env id) (ih hitems · _ _)

/-- Semicolons between the members of an enum are no words. -/
theorem showsAny_enumMembersOf {items : List Syntax} (hls : Separated ls)
    (hin : ∀ s ∈ items, s.In ls) (hmembers : ∀ s ∈ items, s.IsMember)
    (hitems : ∀ s ∈ items, ShowsWord w s) (h : HasWord w (visibleItems items)) (env : Environment)
    (id : StatementId) (before : Option String) :
    showsAny w (piecesOf (enumMembersOf env id before items)) := by
  induction items generalizing env id before with
  | nil => exact absurd h not_hasWord_nil
  | cons s items ih =>
    obtain ⟨hs, hitems'⟩ := List.forall_mem_cons.mp hitems
    obtain ⟨hsin, hin'⟩ := List.forall_mem_cons.mp hin
    obtain ⟨hmember, hmembers'⟩ := List.forall_mem_cons.mp hmembers
    rw [visibleItems] at h
    cases s with
    | leaf l =>
      rcases h.of_append with h | h
      · exact absurd h (hsin.not_hasWord hls hmember (by decide))
      · exact ih hin' hmembers' hitems' h _ _ _
    | node p cs =>
      rw [enumMembersOf_node, piecesOf, showsAny_append, Statement.pieces_withLead, Bool.or_eq_true]
      exact h.of_append.imp (hs · env id) (ih hin' hmembers' hitems' · _ _ _)

theorem showsAny_braced {b i : Phrase} {items : List Syntax} {first last : Lexeme}
    (hls : Separated ls) (hin : (Syntax.node b [.leaf first, .node i items, .leaf last]).In ls)
    (hfirst : first.text = "\x7b") (hlast : last.text = "\x7d")
    (hitems : ∀ s ∈ items, ShowsWord w s)
    (h : HasWord w (visibleBody (.node b [.leaf first, .node i items, .leaf last])))
    (env : Environment) :
    showsAny w (piecesOf (blockOf env
      (.node b [.leaf first, .node i items, .leaf last])).statements) := by
  have hopen := hin.child (s := .leaf first) (by simp)
  have hclose := hin.child (s := .leaf last) (by simp)
  rw [visibleBody, ← List.singleton_append] at h
  rcases h.of_append with h | h
  · rcases h.of_append with h | h
    · exact absurd h (hopen.not_hasWord hls hfirst (by decide))
    · exact showsAny_statementsOf hitems h env 0
  · exact absurd h (hclose.not_hasWord hls hlast (by decide))

/-- The raw statement in front of the members of an enum. -/
theorem showsAny_head {head : List Syntax} (h : containsWord (textOf head) w) :
    showsAny w (piecesOf (if head.isEmpty then [] else [rawOf 0 head])) := by
  cases head with
  | nil => exact absurd h (by simp [textOf, containsWord, wordFrom])
  | cons s head => exact Bool.or_eq_true_iff.mpr (.inl h)

theorem showsAny_enum {b c i : Phrase} {constants items : List Syntax} {first last : Lexeme}
    (hls : Separated ls)
    (hin : (Syntax.node b [.leaf first, .node c constants, .node i items, .leaf last]).In ls)
    (hfirst : first.text = "\x7b") (hlast : last.text = "\x7d")
    (hmembers : ∀ s ∈ items, s.IsMember) (hitems : ∀ s ∈ items, ShowsWord w s)
    (h : HasWord w (visibleBody
      (.node b [.leaf first, .node c constants, .node i items, .leaf last])))
    (env : Environment) :
    showsAny w (piecesOf (blockOf env
      (.node b [.leaf first, .node c constants, .node i items, .leaf last])).statements) := by
  have hopen := hin.child (s := .leaf first) (by simp)
  have hclose := hin.child (s := .leaf last) (by simp)
  have hmembersIn := hin.child (s := .node i items) (by simp)
  rw [visibleBody, ← List.singleton_append] at h
  unfold blockOf
  rw [piecesOf_append, showsAny_append, Bool.or_eq_true]
  rcases h.of_append with h | h
  · rcases h.of_append with h | h
    · rcases h.of_append with h | h
      · exact absurd h (hopen.not_hasWord hls hfirst (by decide))
      · refine .inl (showsAny_head (Occurs.textOf ⟨hls.within ?_, ?_⟩))
        · obtain ⟨back, hback⟩ := throughLastSemicolon_isPrefix items
          have hitems : lexemesOf items =
              lexemesOf (throughLastSemicolon items) ++ lexemesOf back := by
            rw [← lexemesOf_append, hback]
          refine List.IsInfix.trans ⟨[first], lexemesOf back ++ [last], ?_⟩ hin.2
          simp [Syntax.lexemes, lexemesOf_append, hitems]
        · rw [lexemesOf_append]
          exact h.append _
    · exact .inr (showsAny_enumMembersOf hls (fun s hs => hmembersIn.child hs) hmembers hitems h
        env 1 none)
  · exact absurd h (hclose.not_hasWord hls hlast (by decide))

/-- A word among the visible lexemes of a statement is in one of its pieces. -/
theorem Shaped.showsAny_statementOf {s : Syntax} (h : Shaped s) (hls : Separated ls) (hs : s.In ls)
    (hw : w ∉ declarationKeys) : ShowsWord w s := by
  induction h with
  | @type m b i modifiers items key name first last header hmodifiers hkey hfirst hlast _ ih =>
    have hbody := hs.child (s := .node b [.leaf first, .node i items, .leaf last]) (by simp)
    have hitems := hbody.child (s := .node i items) (by simp)
    exact showsAny_type hls hs hmodifiers hkey hw
      (showsAny_braced hls hbody hfirst hlast fun s hmem => ih s hmem (hitems.child hmem))
  | @enum m b c i modifiers constants items key name first last header hmodifiers hkey hfirst
      hlast hmembers _ ih =>
    have hbody := hs.child
      (s := .node b [.leaf first, .node c constants, .node i items, .leaf last]) (by simp)
    have hitems := hbody.child (s := .node i items) (by simp)
    exact showsAny_type hls hs hmodifiers hkey hw
      (showsAny_enum hls hbody hfirst hlast hmembers fun s hmem => ih s hmem (hitems.child hmem))
  | vars hmodifiers _ hdeclarators hclose =>
    exact fun hword => showsAny_vars hmodifiers hdeclarators hclose
      (hs.occurs hls (List.infix_refl _) hword)
  | @signature m g p modifiers generic parameters throwing type dims name close hmodifiers hgeneric
      _ hthrowing hclose =>
    have hleaf := hs.child (s := .leaf close) (by simp)
    exact showsAny_method hls hs hmodifiers hgeneric hthrowing hw fun hword =>
      absurd hword (hleaf.not_hasWord hls hclose (by decide))
  | @method m g p b i modifiers generic parameters throwing items type dims name first last
      hmodifiers hgeneric _ hthrowing hfirst hlast _ _ ih =>
    have hbody := hs.child (s := .node b [.leaf first, .node i items, .leaf last]) (by simp)
    have hitems := hbody.child (s := .node i items) (by simp)
    exact showsAny_method hls hs hmodifiers hgeneric hthrowing hw fun hword =>
      ⟨trivial, showsAny_braced hls hbody hfirst hlast
        (fun s hmem => ih s hmem (hitems.child hmem)) hword⟩
  | expression hdot hclose =>
    exact fun hword => showsAny_expression hdot hclose (hs.occurs hls (List.infix_refl _) hword)
  | raw h =>
    intro hword env id
    rw [visible_of_raw h, ← lexemesOf_singleton] at hword
    rw [h]
    exact showsAny_rawOf id ⟨hls.within (lexemesOf_singleton _ ▸ hs.2), hword⟩

end

end JavaMigration.Java
