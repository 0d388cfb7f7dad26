import JavaMigration.Proofs.Java.FirstWord
import JavaMigration.Proofs.Java.Printed
import JavaMigration.Proofs.Java.Takes

/-!
# Declarations that begin with known lexemes

An import is read up to its semicolon (`read_importLine`). A class and a method without modifiers are
read as their key words say, up to the brace that opens their body (`classDecl_eq`, `method_eq`).
-/

namespace JavaMigration.Java

open Source Rule Grammar Takes

/-! ## Reading to the end -/

/-- A repetition that comes to the end reads something first. -/
theorem readMany_of_ne_nil {read : Reader} {bound ls : List Lexeme} {items : List Syntax}
    (hne : ls ≠ []) (h : readMany read bound ls = (items, [])) :
    ∃ cs rest more bound, read ls = some (cs, rest) ∧ readMany read bound rest = (more, []) ∧
      items = cs ++ more := by
  cases bound with
  | nil => exact absurd (Prod.mk.inj h).2 hne
  | cons b bound =>
    unfold readMany at h
    split at h
    · next cs rest hread =>
      obtain ⟨hitems, hrest⟩ := Prod.mk.inj h
      exact ⟨cs, rest, (readMany read bound rest).1, bound, hread, Prod.ext rfl hrest, hitems.symm⟩
    · exact absurd (Prod.mk.inj h).2 hne

/-- The items of a unit are read one by one. -/
theorem readMany_of_readUnit {source : String} {items : List Syntax} {close : Space}
    (h : readUnit source = some (items, close)) :
    ∃ ls depth, lex source = some (ls, close) ∧
      readMany (topLevel.read (readPhrase Phrase.rule depth)) ls ls = (items, []) := by
  obtain ⟨ls, depth, hlex, hread⟩ := readPhrase_of_readUnit h
  cases depth with
  | zero => cases hread
  | succ depth =>
    rw [readPhrase] at hread
    split at hread
    · next hrule =>
      cases hread
      exact ⟨ls, depth, hlex, Option.some.inj hrule⟩
    · cases hread

/-! ## Imports -/

/-- The lexemes of an import from its key word to its first semicolon. -/
inductive ImportLine : List Lexeme → Prop
  | mk {key close : Lexeme} {names : List Lexeme} (hword : key.kind = .word)
      (hkey : key.text = "import") (hnames : ∀ l ∈ names, l.text ≠ ";")
      (hmark : close.kind = .mark) (hclose : close.text = ";") :
      ImportLine (key :: names ++ [close])

/-- Lexemes that are no semicolons, unless as words. -/
def FreeOfSemicolons (ls : List Lexeme) : Prop := ∀ l ∈ ls, l.text = ";" → l.kind = .word

theorem FreeOfSemicolons.append {ls ms : List Lexeme} (hl : FreeOfSemicolons ls)
    (hm : FreeOfSemicolons ms) : FreeOfSemicolons (ls ++ ms) := List.forall_mem_append.mpr ⟨hl, hm⟩

theorem freeOfSemicolons_token {text : String} {cs : List Syntax} (h : Conforms (.token text) cs)
    (htext : text ≠ ";") : FreeOfSemicolons (lexemesOf cs) := by
  obtain ⟨l, hl, rfl⟩ := Conforms.token_iff.mp h
  intro m hm hsemicolon
  obtain rfl := List.mem_singleton.mp hm
  exact absurd (hl.symm.trans hsemicolon) htext

theorem freeOfSemicolons_name {cs : List Syntax} (h : Conforms .name cs) :
    FreeOfSemicolons (lexemesOf cs) := by
  obtain ⟨l, hl, rfl⟩ := Conforms.name_iff.mp h
  intro m hm _
  rwa [List.mem_singleton.mp hm]

theorem FreeOfSemicolons.pair {r t : Rule} {cs : List Syntax} (h : Conforms (seq [r, t]) cs)
    (hr : ∀ ds, Conforms r ds → FreeOfSemicolons (lexemesOf ds))
    (ht : ∀ ds, Conforms t ds → FreeOfSemicolons (lexemesOf ds)) : FreeOfSemicolons (lexemesOf cs) := by
  simp only [Conforms.seq_cons_iff, Conforms.seq_nil_iff] at h
  obtain ⟨front, hfront, _, ⟨back, hback, _, rfl, rfl⟩, rfl⟩ := h
  rw [List.append_nil, lexemesOf_append]
  exact (hr front hfront).append (ht back hback)

theorem freeOfSemicolons_qualified {cs : List Syntax} (h : Conforms (Phrase.rule .qualified) cs) :
    FreeOfSemicolons (lexemesOf cs) := by
  refine FreeOfSemicolons.pair (t := many (seq [".", name])) h (fun _ => freeOfSemicolons_name)
    fun ds hds => ?_
  obtain ⟨parts, hparts, rfl⟩ := Conforms.many_iff.mp hds
  induction parts with
  | nil => exact nofun
  | cons part parts ih =>
    obtain ⟨hpart, hrest⟩ := List.forall_mem_cons.mp hparts
    rw [List.flatten_cons, lexemesOf_append]
    refine FreeOfSemicolons.append ?_ (ih hrest (Conforms.many_iff.mpr ⟨parts, hrest, rfl⟩))
    exact .pair hpart (fun _ h => freeOfSemicolons_token h (by decide)) fun _ => freeOfSemicolons_name

/-- In front of its last lexeme, an import has no semicolon that is a mark. -/
theorem lexemesOf_importDecl {parts : List Syntax} (h : Conforms (Phrase.rule .importDecl) parts) :
    ∃ front close, lexemesOf parts = front ++ [close] ∧ close.text = ";" ∧
      FreeOfSemicolons front := by
  rw [show Phrase.rule .importDecl = Rule.seq ["import", Rule.optional "static", Phrase.qualified,
    Rule.optional (Rule.seq [".", "*"]), ";"] from rfl, Conforms.seq_cons_iff] at h
  obtain ⟨key, hkey, _, hrest, rfl⟩ := h
  obtain ⟨static, hstatic, _, hback, rfl⟩ := Conforms.seq_cons_iff.mp hrest
  obtain ⟨names, hnames, _, htail, rfl⟩ := Conforms.seq_phrase_iff.mp hback
  obtain ⟨star, hstar, _, hend, rfl⟩ := Conforms.seq_cons_iff.mp htail
  obtain ⟨close, hclose, rfl⟩ := Conforms.token_iff.mp (Conforms.seq_singleton_iff.mp hend)
  have hstaticFree : FreeOfSemicolons (lexemesOf static) := by
    rcases Conforms.optional_iff.mp hstatic with hstatic | rfl
    · exact freeOfSemicolons_token hstatic (by decide)
    · exact nofun
  have hstarFree : FreeOfSemicolons (lexemesOf star) := by
    rcases Conforms.optional_iff.mp hstar with hstar | rfl
    · exact .pair hstar (fun _ h => freeOfSemicolons_token h (by decide))
        fun _ h => freeOfSemicolons_token h (by decide)
    · exact nofun
  refine ⟨lexemesOf key ++ (lexemesOf static ++ (lexemesOf names ++ lexemesOf star)), close, ?_, hclose,
    (freeOfSemicolons_token hkey (by decide)).append
      (hstaticFree.append ((freeOfSemicolons_qualified hnames).append hstarFree))⟩
  simp [lexemesOf_append]

/-- A list is cut in one way in front of what does not occur before the cut. -/
theorem append_cons_inj {α : Type} {as bs cs ds : List α} {a b : α} (h : as ++ a :: bs = cs ++ b :: ds)
    (ha : a ∉ cs) (hb : b ∉ as) : as = cs ∧ bs = ds := by
  rcases List.append_eq_append_iff.mp h with ⟨more, hmore, hrest⟩ | ⟨more, hmore, hrest⟩
  · cases more with
    | nil =>
      cases hrest
      exact ⟨by rw [hmore, List.append_nil], rfl⟩
    | cons c more =>
      cases hrest
      exact absurd (by simp [hmore]) ha
  · cases more with
    | nil =>
      cases hrest
      exact ⟨by rw [hmore, List.append_nil], rfl⟩
    | cons c more =>
      cases hrest
      exact absurd (by simp [hmore]) hb

/-- What begins with the lexemes of an import is that import. -/
theorem read_importLine {depth : Nat} {line ls rest : List Lexeme} {cs : List Syntax}
    (hline : ImportLine line)
    (h : topLevel.read (readPhrase Phrase.rule depth) (line ++ ls) = some (cs, rest)) :
    rest = ls ∧ ∃ parts, cs = [.node .importDecl parts] := by
  cases hline with
  | @mk key close names hword hkey hnames hmark hclose =>
    have hread := importDecl_of_topLevel hword hkey h
    obtain ⟨hconforms, hlexemes⟩ := sound_readPhrase _ _ hread
    obtain ⟨parts, hparts, rfl⟩ := Conforms.phrase_iff.mp hconforms
    obtain ⟨front, last, hfront, hlast, hfree⟩ := lexemesOf_importDecl hparts
    have hcut : front ++ last :: rest = (key :: names) ++ close :: ls := by
      rw [lexemesOf_singleton, Syntax.lexemes, hfront] at hlexemes
      simpa using hlexemes
    refine ⟨(append_cons_inj hcut ?_ ?_).2, parts, rfl⟩
    · rintro hmem
      rcases List.mem_cons.mp hmem with rfl | hmem
      · exact absurd (hkey.symm.trans hlast) (by decide)
      · exact hnames last hmem hlast
    · intro hmem
      have hkind := hfree close hmem hclose
      rw [hmark] at hkind
      cases hkind

/-- Imports at the beginning are read one by one. -/
theorem readMany_importLines {depth : Nat} {bound : List Lexeme} {lines : List (List Lexeme)}
    {ls : List Lexeme} {items : List Syntax} (hlines : ∀ line ∈ lines, ImportLine line)
    (h : readMany (topLevel.read (readPhrase Phrase.rule depth)) bound (lines.flatten ++ ls) =
      (items, [])) :
    ∃ bound imports rest, items = imports ++ rest ∧
      (∀ s ∈ imports, ∃ parts, s = .node .importDecl parts) ∧
      readMany (topLevel.read (readPhrase Phrase.rule depth)) bound ls = (rest, []) := by
  induction lines generalizing bound items with
  | nil => exact ⟨bound, [], items, rfl, nofun, h⟩
  | cons line lines ih =>
    obtain ⟨hline, hlines⟩ := List.forall_mem_cons.mp hlines
    have hne : (line :: lines).flatten ++ ls ≠ [] := by
      cases hline
      exact List.cons_ne_nil _ _
    obtain ⟨cs, rest, more, b, hread, hmore, rfl⟩ := readMany_of_ne_nil hne h
    rw [List.flatten_cons, List.append_assoc] at hread
    obtain ⟨rfl, parts, rfl⟩ := read_importLine hline hread
    obtain ⟨bound', imports, back, rfl, himports, hback⟩ := ih hlines hmore
    exact ⟨bound', .node .importDecl parts :: imports, back, rfl,
      List.forall_mem_cons.mpr ⟨⟨parts, rfl⟩, himports⟩, hback⟩

/-! ## Classes -/

/-- What takes nothing from the lexemes has none. -/
theorem lexemesOf_eq_nil {r : Rule} {cs : List Syntax} {ls rest : List Lexeme} (h : Conforms r cs)
    (hlexemes : lexemesOf cs ++ rest = ls) (hstop : Takes r ls rest → ls = rest) :
    lexemesOf cs = [] ∧ rest = ls := by
  have heq := hstop ⟨cs, h, hlexemes.symm⟩
  rw [heq] at hlexemes
  exact ⟨by simpa using hlexemes, heq.symm⟩

/-- A class without type parameters and supertypes has an empty header. -/
theorem eq_of_classHeader {l : Lexeme} {ls rest : List Lexeme}
    (h : Takes (Phrase.rule .classHeader) (l :: ls) rest)
    (hl : l.text ∉ ["<", "extends", "implements", "permits"]) : l :: ls = rest := by
  simp only [List.mem_cons, List.not_mem_nil, or_false, not_or] at hl
  rw [show Phrase.rule .classHeader = seq [optional Phrase.typeParameters,
    optional (seq ["extends", Phrase.annotatedType]), implementsPart, permitsPart] from rfl] at h
  simp only [seq_cons_iff, seq_nil_iff] at h
  obtain ⟨_, hparameters, _, hextends, _, himplements, _, hpermits, rfl⟩ := h
  rw [← eq_of_optional hparameters fun h => not_seq_token hl.1 (phrase_iff.mp h)] at hextends
  rw [← eq_of_optional hextends (not_seq_token hl.2.1)] at himplements
  rw [← eq_of_optional himplements (not_seq_token hl.2.2.1)] at hpermits
  exact eq_of_optional hpermits (not_seq_token hl.2.2.2)

/-- A type declaration that begins with `class`, a name and a brace goes up to a closing brace. -/
theorem classDecl_eq {parts : List Syntax} {key name first : Lexeme} {ls rest : List Lexeme}
    (h : Conforms (Phrase.rule .typeDecl) parts)
    (hlexemes : lexemesOf parts ++ rest = key :: name :: first :: ls) (hkey : key.text = "class")
    (hfirst : first.text = "\x7b") :
    ∃ modifiers header items last, parts = [.node .modifiers modifiers, .leaf key, .leaf name, header,
        .node .classBody [.leaf first, .node .members items, .leaf last]] ∧
      Conforms (Phrase.rule .members) items ∧ last.text = "\x7d" ∧
      lexemesOf items ++ last :: rest = ls := by
  rw [show Phrase.rule .typeDecl = seq [Phrase.modifiers, choice [
    seq ["class", Rule.name, Phrase.classHeader, Phrase.classBody],
    seq ["interface", Rule.name, Phrase.interfaceHeader, Phrase.interfaceBody],
    seq ["enum", Rule.name, Phrase.enumHeader, Phrase.enumBody]]] from rfl] at h
  simp only [Conforms.seq_phrase_iff, Conforms.seq_singleton_iff, Conforms.choice_cons_iff,
    Conforms.choice_nil_iff, Conforms.seq_token_iff, Conforms.seq_name_iff,
    Conforms.phrase_iff, or_false] at h
  obtain ⟨modifiers, hmodifiers, _, hrest, rfl⟩ := h
  rw [lexemesOf_node, List.append_assoc] at hlexemes
  obtain ⟨hnone, hbehind⟩ := lexemesOf_eq_nil hmodifiers hlexemes fun h =>
    eq_of_modifiers h (by rw [hkey]; decide)
  rcases hrest with ⟨k, hk, _, ⟨n, -, _, ⟨header, hheader, _, ⟨body, hbody, rfl⟩, rfl⟩, rfl⟩, rfl⟩ |
    ⟨k, hk, _, -, rfl⟩ | ⟨k, hk, _, -, rfl⟩
  · simp only [lexemesOf_leaf, lexemesOf_node, List.cons_append, List.append_assoc,
      lexemesOf_nil, List.nil_append, List.cons.injEq] at hbehind
    obtain ⟨rfl, rfl, hhead⟩ := hbehind
    obtain ⟨-, hbody'⟩ := lexemesOf_eq_nil hheader hhead fun h =>
      eq_of_classHeader h (by rw [hfirst]; decide)
    obtain ⟨brace, items, last, -, hlast, hitems, rfl⟩ := braced_eq (p := .members) hbody
    simp only [lexemesOf_leaf, lexemesOf_node, List.cons_append, List.append_assoc,
      lexemesOf_nil, List.nil_append, List.cons.injEq] at hbody'
    obtain ⟨rfl, hinside⟩ := hbody'
    exact ⟨modifiers, _, items, last, rfl, hitems, hlast, hinside⟩
  · rw [lexemesOf_leaf, List.cons_append] at hbehind
    obtain ⟨rfl, -⟩ := List.cons.inj hbehind
    exact absurd (hkey.symm.trans hk) (by decide)
  · rw [lexemesOf_leaf, List.cons_append] at hbehind
    obtain ⟨rfl, -⟩ := List.cons.inj hbehind
    exact absurd (hkey.symm.trans hk) (by decide)

/-! ## Methods -/

section

variable {v t p q first : Lexeme} {ls rest : List Lexeme}

theorem behind_modifiers (rs : List Rule) (hv : v.text = "void")
    (h : Takes (seq (Phrase.modifiers :: rs)) (v :: ls) rest) : Takes (seq rs) (v :: ls) rest := by
  rw [seq_cons_iff] at h
  obtain ⟨mid, hmodifiers, hbehind⟩ := h
  rwa [eq_of_modifiers (phrase_iff.mp hmodifiers) (by rw [hv]; decide)]

/-- The head of a method is no constructor. -/
theorem not_constructor_of_method (hv : v.text = "void") (hparen : t.text ≠ "(")
    (hbrace : t.text ≠ "\x7b") : ¬Takes (Phrase.rule .constructor) (v :: t :: ls) rest := by
  have hname : ∀ {words : List String} {mid : List Lexeme},
      Takes (nameExcept words) (v :: t :: ls) mid → t :: ls = mid := by
    intro words mid h
    unfold nameExcept at h
    simp only [seq_cons_iff, seq_nil_iff, except_iff] at h
    obtain ⟨_, rfl, _, hword, rfl⟩ := h
    exact (name_cons_iff.mp hword).2
  intro h
  rw [show Phrase.rule .constructor = choice [
    seq (Phrase.modifiers :: optional Phrase.typeParameters :: nameExcept declarationWords ::
      Phrase.parameters :: [Phrase.throwsPart, "\x7b",
        optional (choice [
          seq [optional Phrase.typeArguments, choice ["this", "super"], Phrase.arguments, ";"],
          seq [Phrase.operand, ".", optional Phrase.typeArguments, "super", Phrase.arguments, ";"]]),
        many statement, "\x7d"]),
    seq [Phrase.modifiers, nameExcept declarationWords, Phrase.block]] from rfl] at h
  simp only [choice_cons_iff, choice_nil_iff, or_false] at h
  rcases h with h | h
  · obtain ⟨_, hparameters, hbehind⟩ := seq_cons_iff.mp (behind_modifiers _ hv h)
    rw [← eq_of_optional hparameters fun h => not_seq_token (by rw [hv]; decide) (phrase_iff.mp h)]
      at hbehind
    obtain ⟨_, hword, hbehind⟩ := seq_cons_iff.mp hbehind
    rw [← hname hword] at hbehind
    obtain ⟨_, hopen, -⟩ := seq_cons_iff.mp hbehind
    exact not_seq_token hparen (phrase_iff.mp hopen)
  · obtain ⟨_, hword, hbehind⟩ := seq_cons_iff.mp (behind_modifiers _ hv h)
    rw [← hname hword] at hbehind
    obtain ⟨_, hblock, -⟩ := seq_cons_iff.mp hbehind
    exact not_seq_token hbrace (phrase_iff.mp hblock)

/-- Of the members of a class, only a method begins with this head. -/
theorem method_of_classMember {part : List Syntax} (h : Conforms classMember part)
    (hlexemes : lexemesOf part ++ rest = v :: t :: p :: ls) (hv : v.text = "void")
    (ht : t.text ∉ ["@", "<", ".", "[", "(", "\x7b"]) (hp : p.text = "(") :
    ∃ cs, part = [.node .method cs] ∧ Conforms (Phrase.rule .method) cs := by
  have htakes : ∀ {P : Phrase} {cs : List Syntax}, Conforms P.rule cs → part = [.node P cs] →
      Takes P.rule (v :: t :: p :: ls) rest := by
    rintro P cs hcs rfl
    rw [lexemesOf_singleton, Syntax.lexemes] at hlexemes
    exact ⟨cs, hcs, hlexemes.symm⟩
  have hkey : ∀ {text : String} {rs : List Rule}, text ≠ "void" →
      ¬Takes (seq (.token text :: rs)) (v :: t :: p :: ls) rest := by
    intro text rs hne
    exact not_seq_token (by rw [hv]; exact hne.symm)
  simp only [List.mem_cons, List.not_mem_nil, or_false, not_or] at ht
  simp only [classMember, Conforms.choice_cons_iff, Conforms.choice_nil_iff, Conforms.token_iff,
    Conforms.phrase_iff, or_false] at h
  rcases h with ⟨cs, hcs, hpart⟩ | ⟨cs, hcs, hpart⟩ | ⟨cs, hcs, hpart⟩ | ⟨cs, hcs, hpart⟩ |
    ⟨cs, hcs, hpart⟩ | ⟨l, hl, rfl⟩ | ⟨cs, hcs, hpart⟩ | ⟨cs, hcs, hpart⟩ | ⟨cs, hcs, hpart⟩
  · have hbehind := behind_modifiers [choice [
      seq ["class", Rule.name, Phrase.classHeader, Phrase.classBody],
      seq ["interface", Rule.name, Phrase.interfaceHeader, Phrase.interfaceBody],
      seq ["enum", Rule.name, Phrase.enumHeader, Phrase.enumBody]]] hv (htakes hcs hpart)
    obtain ⟨_, hchoice, hnil⟩ := seq_cons_iff.mp hbehind
    rw [seq_nil_iff] at hnil
    subst hnil
    simp only [choice_cons_iff, choice_nil_iff, or_false] at hchoice
    rcases hchoice with h | h | h
    all_goals exact absurd h (hkey (by decide))
  · exact absurd (behind_modifiers _ hv (htakes hcs hpart)) (hkey (by decide))
  · exact absurd (behind_modifiers _ hv (htakes hcs hpart)) (hkey (by decide))
  · exact absurd (htakes hcs hpart) (hkey (by decide))
  · exact absurd (htakes hcs hpart) (hkey (by decide))
  · rw [lexemesOf_leaf, List.cons_append, List.cons.injEq] at hlexemes
    rw [hlexemes.1, hv] at hl
    exact absurd hl (by decide)
  · exact absurd (htakes hcs hpart) (not_vars_of_method hv (by simp [ht]) hp)
  · exact ⟨cs, hpart, hcs⟩
  · exact absurd (htakes hcs hpart)
      (not_constructor_of_method hv ht.2.2.2.2.1 ht.2.2.2.2.2)

/-- No type begins with a closing parenthesis. -/
theorem not_typeRef_of_mark (hq : q.text = ")") (hmark : q.kind = .mark) :
    ¬Takes (Phrase.rule .typeRef) (q :: ls) rest := by
  intro h
  rw [show Phrase.rule .typeRef = seq [Phrase.plainType, many dimension] from rfl,
    seq_cons_iff] at h
  obtain ⟨mid, hplain, -⟩ := h
  rw [phrase_iff, show Phrase.rule .plainType = choice [primitive,
    seq [nameExcept declarationWords, optional Phrase.typeArguments,
      many (seq [".", annotations, nameExcept memberWords, optional Phrase.typeArguments])]]
    from rfl] at hplain
  simp only [choice_cons_iff, choice_nil_iff, or_false, nameExcept, seq_cons_iff, except_iff] at hplain
  rcases hplain with ⟨cs, hcs, heq⟩ | ⟨_, ⟨_, rfl, _, hname, -⟩, -⟩
  · cases hcs with
    | choice hmem hword =>
      obtain ⟨word, hprimitive, rfl⟩ := List.mem_map.mp hmem
      have htext := (token_cons_iff.mp ⟨cs, hword, heq⟩).1
      rw [hq] at htext
      rw [← htext] at hprimitive
      exact absurd hprimitive (by decide)
  · have hkind := (name_cons_iff.mp hname).1
    rw [hmark] at hkind
    cases hkind

/-- An empty parameter list. -/
theorem eq_of_parameters (hq : q.text = ")") (hmark : q.kind = .mark)
    (h : Takes (Phrase.rule .parameters) (p :: q :: ls) rest) : ls = rest := by
  rw [show Phrase.rule .parameters = seq ["(",
    optional (sepBy1 "," (choice [Phrase.spread, Phrase.receiver, Phrase.formal])), ")"]
    from rfl] at h
  simp only [seq_cons_iff, seq_nil_iff] at h
  obtain ⟨_, hopen, _, hlist, _, hclose, rfl⟩ := h
  obtain ⟨-, rfl⟩ := token_cons_iff.mp hopen
  have hnone : ∀ {mid : List Lexeme},
      ¬Takes (choice [Phrase.spread, Phrase.receiver, Phrase.formal]) (q :: ls) mid := by
    intro mid h
    have hmodifiers : ∀ {rs : List Rule} {mid : List Lexeme},
        ¬Takes (seq (Phrase.modifiers :: Phrase.typeRef :: rs)) (q :: ls) mid := by
      intro rs mid h
      simp only [seq_cons_iff] at h
      obtain ⟨_, hfirst, _, htype, -⟩ := h
      rw [← eq_of_modifiers (phrase_iff.mp hfirst) (by rw [hq]; decide)] at htype
      exact not_typeRef_of_mark hq hmark (phrase_iff.mp htype)
    simp only [choice_cons_iff, choice_nil_iff, or_false, phrase_iff] at h
    rcases h with h | h | h
    · exact hmodifiers h
    · rw [show Phrase.rule .receiver = seq [annotations, Phrase.typeRef, many (seq [name, "."]), "this"]
        from rfl] at h
      simp only [seq_cons_iff] at h
      obtain ⟨_, hfirst, _, htype, -⟩ := h
      rw [← eq_of_annotations hfirst (by rw [hq]; decide)] at htype
      exact not_typeRef_of_mark hq hmark (phrase_iff.mp htype)
    · exact hmodifiers h
  have hlist' : q :: ls = _ := eq_of_optional hlist fun h => by
    obtain ⟨_, hfirst, -⟩ := seq_cons_iff.mp h
    exact hnone hfirst
  rw [← hlist'] at hclose
  exact (token_cons_iff.mp hclose).2

/-- A method without modifiers, parameters and exceptions whose body begins with a brace goes up to a
closing brace. -/
theorem method_eq {cs : List Syntax} (h : Conforms (Phrase.rule .method) cs)
    (hlexemes : lexemesOf cs ++ rest = v :: t :: p :: q :: first :: ls) (hv : v.text = "void")
    (ht : t.text ∉ ["@", "<", ".", "["]) (hq : q.text = ")") (hmark : q.kind = .mark)
    (hfirst : first.text = "\x7b") :
    ∃ modifiers generic type parameters dims throwing items last,
      cs = [.node .modifiers modifiers, .node .genericPart generic, type, .leaf t,
        .node .parameters parameters, dims, .node .throwsPart throwing,
        .node .block [.leaf first, .node .statements items, .leaf last]] ∧
      Conforms (Phrase.rule .statements) items ∧ last.text = "\x7d" ∧
      lexemesOf items ++ last :: rest = ls := by
  rw [show Phrase.rule .method = seq [Phrase.modifiers, Phrase.genericPart, Phrase.typeRef, name,
    Phrase.parameters, Phrase.dimensions, Phrase.throwsPart, choice [Phrase.block, ";"]]
    from rfl] at h
  simp only [Conforms.seq_phrase_iff, Conforms.seq_singleton_iff, Conforms.choice_cons_iff,
    Conforms.choice_nil_iff, Conforms.token_iff, Conforms.seq_name_iff, Conforms.phrase_iff,
    or_false] at h
  obtain ⟨modifiers, hmodifiers, _, ⟨generic, hgeneric, _, ⟨type, htype, _, ⟨n, -, _, ⟨parameters,
    hparameters, _, ⟨dims, hdims, _, ⟨throwing, hthrowing, _, hrest, rfl⟩, rfl⟩, rfl⟩, rfl⟩, rfl⟩, rfl⟩,
    rfl⟩ := h
  simp only [lexemesOf_leaf, lexemesOf_node, List.cons_append, List.append_assoc] at hlexemes
  obtain ⟨-, hbehind⟩ := lexemesOf_eq_nil hmodifiers hlexemes fun h =>
    eq_of_modifiers h (by rw [hv]; decide)
  obtain ⟨-, hsignature⟩ := lexemesOf_eq_nil hgeneric hbehind fun h => eq_of_optional h fun h => by
    obtain ⟨_, hparameters, -⟩ := seq_cons_iff.mp h
    exact not_seq_token (by rw [hv]; decide) (phrase_iff.mp hparameters)
  have hnamed := eq_of_typeRef ⟨type, htype, hsignature.symm⟩ ht
  rw [List.cons.injEq] at hnamed
  obtain ⟨rfl, hopen⟩ := hnamed
  have hclosed := eq_of_parameters hq hmark ⟨parameters, hparameters, hopen⟩
  obtain ⟨-, hclause⟩ := lexemesOf_eq_nil hdims hclosed.symm fun h => eq_of_many h fun _ =>
    not_dimension (by rw [hfirst]; decide) (by rw [hfirst]; decide)
  obtain ⟨-, hbody⟩ := lexemesOf_eq_nil hthrowing hclause fun h => eq_of_optional h
    (not_seq_token (by rw [hfirst]; decide))
  rcases hrest with ⟨body, hblock, rfl⟩ | ⟨close, hclose, rfl⟩
  · obtain ⟨brace, items, last, -, hlast, hitems, rfl⟩ := braced_eq (p := .statements) hblock
    simp only [lexemesOf_leaf, lexemesOf_node, List.cons_append, List.append_assoc,
      lexemesOf_nil, List.nil_append, List.cons.injEq] at hbody
    obtain ⟨rfl, hinside⟩ := hbody
    exact ⟨modifiers, generic, _, parameters, _, throwing, items, last, rfl, hitems, hlast, hinside⟩
  · rw [lexemesOf_leaf, List.cons_append, List.cons.injEq] at hbody
    rw [hbody.1, hfirst] at hclose
    exact absurd hclose (by decide)

end

end JavaMigration.Java
