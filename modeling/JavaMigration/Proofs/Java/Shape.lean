import JavaMigration.Java.Parse
import JavaMigration.Proofs.Java.Conforms

/-!
# Where the tree builder finds the parts

The tree builder takes declarations apart by matching on their children. `Shaped` lists the forms
it meets, each with what is known about its parts; every valid syntax tree has one of them
(`Syntax.Valid.shaped`). Proofs about built trees are inductions on `Shaped`.
-/

namespace JavaMigration.Java

open Source Rule Grammar

/-! ## Parts -/

/-- Elements with commas between them. -/
inductive CommaList (P : Syntax → Prop) : List Syntax → Prop
  | single {s : Syntax} (h : P s) : CommaList P [s]
  | cons {s : Syntax} {comma : Lexeme} {rest : List Syntax} (h : P s) (hcomma : comma.text = ",")
      (hrest : CommaList P rest) : CommaList P (s :: .leaf comma :: rest)

theorem CommaList.mem_cases {P : Syntax → Prop} {cs : List Syntax} (h : CommaList P cs)
    {s : Syntax} (hs : s ∈ cs) : P s ∨ ∃ l, s = .leaf l ∧ l.text = "," := by
  induction h with
  | single h => exact .inl (List.mem_singleton.mp hs ▸ h)
  | cons h hcomma _ ih =>
    rcases List.mem_cons.mp hs with rfl | hs
    · exact .inl h
    · rcases List.mem_cons.mp hs with rfl | hs
      · exact .inr ⟨_, rfl, hcomma⟩
      · exact ih hs

theorem Conforms.commaList {r : Rule} {cs : List Syntax} {P : Syntax → Prop}
    (h : Conforms (sepBy1 "," r) cs) (hr : ∀ ds, Conforms r ds → ∃ s, ds = [s] ∧ P s) :
    CommaList P cs := by
  unfold sepBy1 at h
  simp only [seq_cons_iff, seq_nil_iff, many_iff, token_iff] at h
  obtain ⟨front, hfront, back, ⟨_, ⟨parts, hparts, rfl⟩, _, rfl, rfl⟩, rfl⟩ := h
  rw [List.append_nil]
  induction parts generalizing front with
  | nil =>
    obtain ⟨s, rfl, hs⟩ := hr front hfront
    exact .single hs
  | cons c parts ih =>
    obtain ⟨s, rfl, hs⟩ := hr front hfront
    obtain ⟨_, ⟨l, hl, rfl⟩, _, ⟨ds, hds, _, rfl, rfl⟩, rfl⟩ := hparts c List.mem_cons_self
    have hrest := ih ds hds fun d hd => hparts d (List.mem_cons_of_mem _ hd)
    rw [List.flatten_cons, List.append_nil]
    exact .cons hs hl hrest

/-- What stands among modifiers and in front of a return type: it begins with a leaf, which for
an annotation is its at-sign. -/
def Syntax.Leading : Syntax → Prop
  | .leaf _ => True
  | .node p (.leaf l :: _) => p = .annot → l.text = "@"
  | .node _ _ => False

/-- A declarator as the tree builder expects it. -/
def Syntax.IsDeclarator : Syntax → Prop
  | .node .declarator (.leaf _ :: .node _ _ :: _) => True
  | _ => False

def Syntax.IsNode : Syntax → Prop
  | .leaf _ => False
  | .node .. => True

def Syntax.isMethod : Syntax → Bool
  | .node .method _ => true
  | _ => false

def Syntax.isExpression : Syntax → Bool
  | .node .expressionStatement _ => true
  | _ => false

/-- A member of an enum as the tree builder expects it: a semicolon, or a node for no expression. -/
def Syntax.IsMember : Syntax → Prop
  | .leaf l => l.text = ";"
  | .node p _ => p ≠ .expressionStatement

theorem Syntax.IsMember.isExpression {s : Syntax} (h : s.IsMember) : s.isExpression = false := by
  cases s with
  | leaf l => rfl
  | node p cs =>
    unfold Syntax.isExpression
    split
    · next heq => cases heq; exact absurd rfl h
    · rfl

theorem leading_annot {cs : List Syntax} (h : Conforms (Phrase.rule .annot) cs) :
    Syntax.Leading (.node .annot cs) := by
  rw [show Phrase.rule .annot = seq ["@", Phrase.qualified, optional Phrase.annotationArguments]
    from rfl, Conforms.seq_token_iff] at h
  obtain ⟨l, hl, rest, -, rfl⟩ := h
  exact fun _ => hl

/-- What holds of all that one turn of a repetition gives holds of everything in it. -/
theorem Conforms.forall_of_many {r : Rule} {cs : List Syntax} {P : Syntax → Prop}
    (h : Conforms (many r) cs) (hr : ∀ part, Conforms r part → ∀ s ∈ part, P s) :
    ∀ s ∈ cs, P s := by
  obtain ⟨parts, hparts, rfl⟩ := Conforms.many_iff.mp h
  intro s hs
  obtain ⟨part, hpart, hs⟩ := List.mem_flatten.mp hs
  exact hr part (hparts part hpart) s hs

theorem leading_of_modifiers {cs : List Syntax} (h : Conforms (Phrase.rule .modifiers) cs) :
    ∀ s ∈ cs, s.Leading := by
  rw [show Phrase.rule .modifiers = many (choice [Phrase.annot, "public", "protected", "private",
    "abstract", "static", "final", "strictfp", "default", "synchronized", "native", "transient",
    "volatile", Phrase.nonSealed, "sealed"]) from rfl] at h
  refine h.forall_of_many fun part hone s hs => ?_
  have hleaf : ∀ l, part = [.leaf l] → s.Leading := by
    rintro l rfl
    rw [List.mem_singleton.mp hs]
    exact trivial
  simp only [Conforms.choice_cons_iff, Conforms.choice_nil_iff, Conforms.token_iff,
    Conforms.phrase_iff, or_false] at hone
  obtain ⟨ds, hds, rfl⟩ | hone := hone
  · rw [List.mem_singleton.mp hs]
    exact leading_annot hds
  · obtain ⟨l, -, h⟩ | ⟨l, -, h⟩ | ⟨l, -, h⟩ | ⟨l, -, h⟩ | ⟨l, -, h⟩ | ⟨l, -, h⟩ | ⟨l, -, h⟩ |
      ⟨l, -, h⟩ | ⟨l, -, h⟩ | ⟨l, -, h⟩ | ⟨l, -, h⟩ | ⟨l, -, h⟩ | ⟨ds, hds, rfl⟩ | ⟨l, -, h⟩ := hone
    all_goals first | exact hleaf l h | skip
    rw [show Phrase.rule .nonSealed = seq ["non", glued "-", glued "sealed"] from rfl,
      Conforms.seq_token_iff] at hds
    obtain ⟨l, -, rest, -, rfl⟩ := hds
    rw [List.mem_singleton.mp hs]
    intro h
    cases h

theorem lexemesOf_plainType {cs : List Syntax} (h : Conforms (Phrase.rule .plainType) cs) :
    lexemesOf cs ≠ [] := by
  rw [show Phrase.rule .plainType = choice [primitive,
    seq [nameExcept declarationWords, optional Phrase.typeArguments,
      many (seq [".", annotations, nameExcept memberWords, optional Phrase.typeArguments])]]
    from rfl] at h
  simp only [Conforms.choice_cons_iff, Conforms.choice_nil_iff, or_false] at h
  obtain h | h := h
  · unfold primitive at h
    cases h with
    | choice mem h =>
      obtain ⟨word, -, rfl⟩ := List.mem_map.mp mem
      obtain ⟨l, -, rfl⟩ := Conforms.token_iff.mp h
      rw [lexemesOf_leaf]
      exact List.cons_ne_nil _ _
  · unfold nameExcept at h
    obtain ⟨front, hfront, back, -, rfl⟩ := Conforms.seq_cons_iff.mp h
    simp only [Conforms.seq_cons_iff, Conforms.except_iff, Conforms.name_iff,
      Conforms.seq_nil_iff] at hfront
    obtain ⟨_, rfl, _, ⟨_, ⟨l, -, rfl⟩, _, rfl, rfl⟩, rfl⟩ := hfront
    exact List.cons_ne_nil _ _

theorem lexemesOf_typeRef {cs : List Syntax} (h : Conforms (Phrase.rule .typeRef) cs) :
    lexemesOf cs ≠ [] := by
  rw [show Phrase.rule .typeRef = seq [Phrase.plainType, many dimension] from rfl,
    Conforms.seq_phrase_iff] at h
  obtain ⟨ds, hds, rest, -, rfl⟩ := h
  rw [lexemesOf_node]
  exact List.append_ne_nil_of_left_ne_nil (lexemesOf_plainType hds) _

theorem leading_of_genericPart {cs : List Syntax} (h : Conforms (Phrase.rule .genericPart) cs) :
    ∀ s ∈ cs.head?, s.Leading := by
  rw [show Phrase.rule .genericPart = optional (seq [Phrase.typeParameters, annotations]) from rfl,
    Conforms.optional_iff, Conforms.seq_phrase_iff] at h
  obtain ⟨ds, hds, rest, -, rfl⟩ | rfl := h
  · rw [show Phrase.rule .typeParameters = seq ["<", sepBy1 "," typeParameter, ">"] from rfl,
      Conforms.seq_token_iff] at hds
    obtain ⟨l, -, inner, -, rfl⟩ := hds
    rintro s ⟨⟩
    exact nofun
  · exact nofun

/-- A `throws` clause is absent, or its key word with types. -/
theorem throwsPart_eq {cs : List Syntax} (h : Conforms (Phrase.rule .throwsPart) cs) :
    cs = [] ∨ ∃ key types, key.text = "throws" ∧ CommaList Syntax.IsNode types ∧
      cs = .leaf key :: types := by
  rw [show Phrase.rule .throwsPart = optional (seq ["throws", typeList]) from rfl,
    Conforms.optional_iff, Conforms.seq_token_iff] at h
  obtain ⟨key, hkey, rest, hrest, rfl⟩ | rfl := h
  · right
    simp only [Conforms.seq_cons_iff, Conforms.seq_nil_iff] at hrest
    obtain ⟨types, htypes, _, rfl, rfl⟩ := hrest
    refine ⟨key, types, hkey, htypes.commaList ?_, by rw [List.append_nil]⟩
    intro ds hds
    obtain ⟨cs, -, rfl⟩ := Conforms.phrase_iff.mp hds
    exact ⟨_, rfl, trivial⟩
  · exact .inl rfl

theorem declarators_commaList {cs : List Syntax} (h : Conforms (Phrase.rule .declarators) cs) :
    CommaList Syntax.IsDeclarator cs := by
  rw [show Phrase.rule .declarators = sepBy1 "," Phrase.declarator from rfl] at h
  refine h.commaList fun ds hds => ?_
  obtain ⟨cs, hcs, rfl⟩ := Conforms.phrase_iff.mp hds
  rw [show Phrase.rule .declarator = seq [name, Phrase.dimensions, Phrase.initializer] from rfl,
    Conforms.seq_name_iff] at hcs
  obtain ⟨l, -, rest, hrest, rfl⟩ := hcs
  obtain ⟨dims, -, tail, -, rfl⟩ := Conforms.seq_phrase_iff.mp hrest
  exact ⟨_, rfl, trivial⟩

/-! ## Bodies -/

/-- A body in braces around one list. -/
theorem braced_eq {p : Phrase} {cs : List Syntax}
    (h : Conforms (seq ["\x7b", p, "\x7d"]) cs) :
    ∃ first items last, first.text = "\x7b" ∧ last.text = "\x7d" ∧ Conforms p.rule items ∧
      cs = [.leaf first, .node p items, .leaf last] := by
  simp only [Conforms.seq_token_iff, Conforms.seq_phrase_iff, Conforms.seq_nil_iff] at h
  obtain ⟨first, hfirst, _, ⟨items, hitems, _, ⟨last, hlast, _, rfl, rfl⟩, rfl⟩, rfl⟩ := h
  exact ⟨first, items, last, hfirst, hlast, hitems, rfl⟩

theorem enumBody_eq {cs : List Syntax} (h : Conforms (Phrase.rule .enumBody) cs) :
    ∃ first constants members last, first.text = "\x7b" ∧ last.text = "\x7d" ∧
      Conforms (Phrase.rule .enumMembers) members ∧
      cs = [.leaf first, .node .enumConstants constants, .node .enumMembers members,
        .leaf last] := by
  rw [show Phrase.rule .enumBody = seq ["\x7b", Phrase.enumConstants, Phrase.enumMembers, "\x7d"]
    from rfl] at h
  simp only [Conforms.seq_token_iff, Conforms.seq_phrase_iff, Conforms.seq_nil_iff] at h
  obtain ⟨first, hfirst, _, ⟨constants, -, _, ⟨members, hmembers, _, ⟨last, hlast, _, rfl, rfl⟩,
    rfl⟩, rfl⟩, rfl⟩ := h
  exact ⟨first, constants, members, last, hfirst, hlast, hmembers, rfl⟩

/-- No statement of a method body is a method. -/
theorem not_method_of_statements {cs : List Syntax} (h : Conforms (Phrase.rule .statements) cs) :
    ∀ s ∈ cs, s.isMethod = false := by
  rw [show Phrase.rule .statements = many statement from rfl] at h
  refine h.forall_of_many fun part hpart s hs => ?_
  simp only [statement, Conforms.choice_cons_iff, Conforms.choice_nil_iff, Conforms.token_iff,
    Conforms.phrase_iff, Conforms.seq_except_iff, Conforms.seq_singleton_iff, or_false] at hpart
  rcases hpart with ⟨_, -, rfl⟩ | ⟨_, -, rfl⟩ | ⟨_, -, rfl⟩ | ⟨_, -, rfl⟩ | ⟨_, -, rfl⟩ |
    ⟨_, -, rfl⟩ | ⟨_, -, rfl⟩ | ⟨_, -, rfl⟩ | ⟨_, -, rfl⟩ | ⟨_, -, rfl⟩ | ⟨_, -, rfl⟩ | ⟨_, -, rfl⟩
  all_goals
    obtain rfl := List.mem_singleton.mp hs
    rfl

theorem isMember_of_enumMembers {cs : List Syntax}
    (h : Conforms (Phrase.rule .enumMembers) cs) : ∀ s ∈ cs, s.IsMember := by
  rw [show Phrase.rule .enumMembers = optional (seq [";", many classMember]) from rfl,
    Conforms.optional_iff, Conforms.seq_token_iff] at h
  obtain ⟨l, hl, rest, hrest, rfl⟩ | rfl := h
  · rw [Conforms.seq_singleton_iff] at hrest
    refine List.forall_mem_cons.mpr ⟨hl, hrest.forall_of_many fun part hpart s hs => ?_⟩
    simp only [classMember, Conforms.choice_cons_iff, Conforms.choice_nil_iff, Conforms.token_iff,
      Conforms.phrase_iff, or_false] at hpart
    rcases hpart with ⟨_, -, rfl⟩ | ⟨_, -, rfl⟩ | ⟨_, -, rfl⟩ | ⟨_, -, rfl⟩ | ⟨_, -, rfl⟩ |
      ⟨_, hsemicolon, rfl⟩ | ⟨_, -, rfl⟩ | ⟨_, -, rfl⟩ | ⟨_, -, rfl⟩
    all_goals obtain rfl := List.mem_singleton.mp hs
    case inr.inr.inr.inr.inr.inl => exact hsemicolon
    all_goals exact Phrase.noConfusion
  · intro s hs
    cases hs

/-! ## Declarations and statements -/

/-- The forms of a syntax tree that the tree builder tells apart. -/
inductive Shaped : Syntax → Prop
  | type {m b i : Phrase} {modifiers items : List Syntax} {key name first last : Lexeme}
      {header : Syntax} (hmodifiers : ∀ s ∈ modifiers, s.Leading)
      (hkey : key.text ∈ ["class", "interface", "enum"]) (hfirst : first.text = "\x7b")
      (hlast : last.text = "\x7d") (hitems : ∀ s ∈ items, Shaped s) :
      Shaped (.node .typeDecl [.node m modifiers, .leaf key, .leaf name, header,
        .node b [.leaf first, .node i items, .leaf last]])
  | enum {m b c i : Phrase} {modifiers constants items : List Syntax} {key name first last : Lexeme}
      {header : Syntax} (hmodifiers : ∀ s ∈ modifiers, s.Leading)
      (hkey : key.text ∈ ["class", "interface", "enum"]) (hfirst : first.text = "\x7b")
      (hlast : last.text = "\x7d") (hmembers : ∀ s ∈ items, s.IsMember)
      (hitems : ∀ s ∈ items, Shaped s) :
      Shaped (.node .typeDecl [.node m modifiers, .leaf key, .leaf name, header,
        .node b [.leaf first, .node c constants, .node i items, .leaf last]])
  | vars {m : Phrase} {modifiers declarators : List Syntax} {type : Syntax} {close : Lexeme}
      (hmodifiers : ∀ s ∈ modifiers, s.Leading) (htype : type.lexemes ≠ [])
      (hdeclarators : CommaList Syntax.IsDeclarator declarators) (hclose : close.text = ";") :
      Shaped (.node .vars [.node m modifiers, type, .node .declarators declarators, .leaf close])
  | signature {m g p : Phrase} {modifiers generic parameters throwing : List Syntax}
      {type dims : Syntax} {name close : Lexeme} (hmodifiers : ∀ s ∈ modifiers, s.Leading)
      (hgeneric : ∀ s ∈ generic.head?, s.Leading) (htype : type.lexemes ≠ [])
      (hthrowing : throwing = [] ∨ ∃ key types, key.text = "throws" ∧
        CommaList Syntax.IsNode types ∧ throwing = .leaf key :: types)
      (hclose : close.text = ";") :
      Shaped (.node .method [.node m modifiers, .node g generic, type, .leaf name,
        .node p parameters, dims, .node .throwsPart throwing, .leaf close])
  | method {m g p b i : Phrase} {modifiers generic parameters throwing items : List Syntax}
      {type dims : Syntax} {name first last : Lexeme} (hmodifiers : ∀ s ∈ modifiers, s.Leading)
      (hgeneric : ∀ s ∈ generic.head?, s.Leading) (htype : type.lexemes ≠ [])
      (hthrowing : throwing = [] ∨ ∃ key types, key.text = "throws" ∧
        CommaList Syntax.IsNode types ∧ throwing = .leaf key :: types)
      (hfirst : first.text = "\x7b") (hlast : last.text = "\x7d")
      (hflat : ∀ s ∈ items, s.isMethod = false) (hitems : ∀ s ∈ items, Shaped s) :
      Shaped (.node .method [.node m modifiers, .node g generic, type, .leaf name,
        .node p parameters, dims, .node .throwsPart throwing,
        .node b [.leaf first, .node i items, .leaf last]])
  | expression {e o : Phrase} {operand : List Syntax} {close : Lexeme}
      (hdot : ∀ dot name arguments,
        operand.getLast? = some (.node .callOn [.leaf dot, .leaf name, arguments]) →
          dot.text = ".")
      (hclose : close.text = ";") :
      Shaped (.node .expressionStatement [.node e [.node o operand], .leaf close])
  | raw {s : Syntax} (h : ∀ env id, statementOf env id s = rawOf id [s]) : Shaped s

/-- The nodes that may become something else than raw code. -/
def Phrase.isLowered : Phrase → Bool
  | .typeDecl => true
  | .vars => true
  | .method => true
  | .expressionStatement => true
  | _ => false

theorem Shaped.of_not_lowered {p : Phrase} (h : p.isLowered = false) (cs : List Syntax) :
    Shaped (.node p cs) := by
  refine .raw fun env id => ?_
  cases p <;> first | rfl | exact nomatch h

theorem Shaped.leaf (l : Lexeme) : Shaped (.leaf l) := .raw fun _ _ => rfl

theorem shaped_expressionStatement {cs : List Syntax}
    (h : Conforms (Phrase.rule .expressionStatement) cs) :
    Shaped (.node .expressionStatement cs) := by
  rw [show Phrase.rule .expressionStatement = seq [Phrase.expression, ";"] from rfl] at h
  simp only [Conforms.seq_token_iff, Conforms.seq_phrase_iff, Conforms.seq_nil_iff] at h
  obtain ⟨inner, hinner, _, ⟨close, hclose, _, rfl, rfl⟩, rfl⟩ := h
  rcases inner with _ | ⟨first, _ | ⟨second, more⟩⟩
  · exact .raw fun _ _ => rfl
  · cases first with
    | leaf l => exact .raw fun _ _ => rfl
    | node o operand =>
      refine .expression ?_ hclose
      intro dot name arguments hlast
      have hnode := hinner.valid _ List.mem_cons_self
      have hcall := hnode.valid _ (List.mem_of_getLast? hlast)
      have hrule : Conforms (seq [".", optional Phrase.typeArguments, nameExcept memberWords,
        Phrase.arguments]) [.leaf dot, .leaf name, arguments] := hcall
      obtain ⟨l, hl, _, _, heq⟩ := Conforms.seq_token_iff.mp hrule
      cases heq
      exact hl
  · cases first with
    | leaf l => exact .raw fun _ _ => rfl
    | node o operand => exact .raw fun _ _ => rfl

/-- Children of a list in a body are smaller than what the body stands in. -/
theorem sizeOf_item_lt {s : Syntax} {cs items : List Syntax} (b i : Phrase) (ds : List Syntax)
    (hbody : .node b ds ∈ cs) (hitems : .node i items ∈ ds) (hs : s ∈ items) :
    sizeOf s < sizeOf cs := by
  have h₁ := List.sizeOf_lt_of_mem hs
  have h₂ := List.sizeOf_lt_of_mem hitems
  have h₃ := List.sizeOf_lt_of_mem hbody
  simp only [Syntax.node.sizeOf_spec] at h₂ h₃
  omega

theorem shaped_typeDecl {cs : List Syntax} (h : Conforms (Phrase.rule .typeDecl) cs)
    (ih : ∀ s, sizeOf s < sizeOf cs → s.Valid → Shaped s) : Shaped (.node .typeDecl cs) := by
  rw [show Phrase.rule .typeDecl = seq [Phrase.modifiers, choice [
    seq ["class", name, Phrase.classHeader, Phrase.classBody],
    seq ["interface", name, Phrase.interfaceHeader, Phrase.interfaceBody],
    seq ["enum", name, Phrase.enumHeader, Phrase.enumBody]]] from rfl] at h
  simp only [Conforms.seq_phrase_iff, Conforms.seq_singleton_iff, Conforms.choice_cons_iff,
    Conforms.choice_nil_iff, Conforms.seq_token_iff, Conforms.seq_name_iff,
    Conforms.phrase_iff, or_false] at h
  obtain ⟨modifiers, hmodifiers, _, hrest, rfl⟩ := h
  have hmods := leading_of_modifiers hmodifiers
  rcases hrest with hrest | hrest | hrest
  · obtain ⟨key, hkey, _, ⟨n, -, _, ⟨header, -, _, ⟨body, hbody, rfl⟩, rfl⟩, rfl⟩, rfl⟩ := hrest
    obtain ⟨first, items, last, hfirst, hlast, hitems, rfl⟩ := braced_eq (p := .members) hbody
    refine .type hmods (by simp [hkey]) hfirst hlast fun s hs => ih s ?_ (hitems.valid s hs)
    exact sizeOf_item_lt .classBody .members [.leaf first, .node .members items, .leaf last] (by simp)
      (by simp) hs
  · obtain ⟨key, hkey, _, ⟨n, -, _, ⟨header, -, _, ⟨body, hbody, rfl⟩, rfl⟩, rfl⟩, rfl⟩ := hrest
    obtain ⟨first, items, last, hfirst, hlast, hitems, rfl⟩ :=
      braced_eq (p := .interfaceMembers) hbody
    refine .type hmods (by simp [hkey]) hfirst hlast fun s hs => ih s ?_ (hitems.valid s hs)
    exact sizeOf_item_lt .interfaceBody .interfaceMembers [.leaf first, .node .interfaceMembers items, .leaf last] (by simp)
      (by simp) hs
  · obtain ⟨key, hkey, _, ⟨n, -, _, ⟨header, -, _, ⟨body, hbody, rfl⟩, rfl⟩, rfl⟩, rfl⟩ := hrest
    obtain ⟨first, constants, items, last, hfirst, hlast, hitems, rfl⟩ := enumBody_eq hbody
    refine .enum hmods (by simp [hkey]) hfirst hlast (isMember_of_enumMembers hitems)
      fun s hs => ih s ?_ (hitems.valid s hs)
    exact sizeOf_item_lt .enumBody .enumMembers [.leaf first, .node .enumConstants constants,
      .node .enumMembers items, .leaf last] (by simp) (by simp) hs

theorem vars_eq {cs : List Syntax} (h : Conforms (Phrase.rule .vars) cs) :
    ∃ modifiers type declarators close, (∀ s ∈ modifiers, s.Leading) ∧ type.lexemes ≠ [] ∧
      CommaList Syntax.IsDeclarator declarators ∧ close.text = ";" ∧
      cs = [.node .modifiers modifiers, type, .node .declarators declarators, .leaf close] := by
  rw [show Phrase.rule .vars = seq [Phrase.modifiers, Phrase.typeRef, Phrase.declarators, ";"]
    from rfl] at h
  simp only [Conforms.seq_phrase_iff, Conforms.seq_token_iff, Conforms.seq_nil_iff] at h
  obtain ⟨modifiers, hmodifiers, _, ⟨type, htype, _, ⟨declarators, hdeclarators, _,
    ⟨close, hclose, _, rfl, rfl⟩, rfl⟩, rfl⟩, rfl⟩ := h
  exact ⟨modifiers, .node .typeRef type, declarators, close, leading_of_modifiers hmodifiers,
    lexemesOf_typeRef htype, declarators_commaList hdeclarators, hclose, rfl⟩

theorem shaped_vars {cs : List Syntax} (h : Conforms (Phrase.rule .vars) cs) :
    Shaped (.node .vars cs) := by
  obtain ⟨modifiers, type, declarators, close, hmodifiers, htype, hdeclarators, hclose, rfl⟩ :=
    vars_eq h
  exact .vars hmodifiers htype hdeclarators hclose

theorem shaped_method {cs : List Syntax} (h : Conforms (Phrase.rule .method) cs)
    (ih : ∀ s, sizeOf s < sizeOf cs → s.Valid → Shaped s) : Shaped (.node .method cs) := by
  rw [show Phrase.rule .method = seq [Phrase.modifiers, Phrase.genericPart, Phrase.typeRef, name,
    Phrase.parameters, Phrase.dimensions, Phrase.throwsPart, choice [Phrase.block, ";"]]
    from rfl] at h
  simp only [Conforms.seq_phrase_iff, Conforms.seq_singleton_iff, Conforms.choice_cons_iff,
    Conforms.choice_nil_iff, Conforms.token_iff, Conforms.seq_name_iff, Conforms.phrase_iff,
    or_false] at h
  obtain ⟨modifiers, hmodifiers, _, ⟨generic, hgeneric, _, ⟨type, htype, _, ⟨n, -, _, ⟨parameters, -,
    _, ⟨dims, -, _, ⟨throwing, hthrowing, _, hrest, rfl⟩, rfl⟩, rfl⟩, rfl⟩, rfl⟩, rfl⟩, rfl⟩ := h
  have hmods := leading_of_modifiers hmodifiers
  have hgen := leading_of_genericPart hgeneric
  rcases hrest with ⟨body, hbody, rfl⟩ | ⟨close, hclose, rfl⟩
  · obtain ⟨first, items, last, hfirst, hlast, hitems, rfl⟩ := braced_eq (p := .statements) hbody
    refine .method hmods hgen (lexemesOf_typeRef htype) (throwsPart_eq hthrowing) hfirst hlast
      (not_method_of_statements hitems) fun s hs => ih s ?_ (hitems.valid s hs)
    exact sizeOf_item_lt .block .statements [.leaf first, .node .statements items, .leaf last] (by simp)
      (by simp) hs
  · exact .signature hmods hgen (lexemesOf_typeRef htype) (throwsPart_eq hthrowing) hclose

/-- Every valid syntax tree has one of the forms. -/
theorem Syntax.Valid.shaped {s : Syntax} (h : s.Valid) : Shaped s := by
  match s, h with
  | .leaf l, _ => exact .leaf l
  | .node p cs, h =>
    have ih : ∀ t : Syntax, sizeOf t < sizeOf cs → t.Valid → Shaped t := fun t ht hvalid =>
      hvalid.shaped
    by_cases hp : p.isLowered
    · cases p with
      | typeDecl => exact shaped_typeDecl h ih
      | vars => exact shaped_vars h
      | method => exact shaped_method h ih
      | expressionStatement => exact shaped_expressionStatement h
      | _ => cases hp
    · exact .of_not_lowered (Bool.eq_false_iff.mpr hp) cs
  termination_by sizeOf s

end JavaMigration.Java
