import JavaMigration.Proofs.Edit.TemplateCode
import JavaMigration.Proofs.Java.Cutting
import JavaMigration.Proofs.Java.Openings

/-!
# The class around a template

The code of a template is read in a class, behind its imports. Those and the head of the class are
read as such whatever the code is (`exists_of_wrapped`), but the class ends where the code closes
it: its members are read from the code up to the first closing brace that the code does not open
(`exists_of_members`). So are the statements of the method around code that is no member
(`exists_of_statements`).
-/

namespace JavaMigration.Edit

open Java Source Text

/-! ## Imports -/

/-- A text without semicolons, comments and literals, as the target of an import. -/
def IsTarget (s : List Char) : Prop := ∀ c ∈ s, c ∉ [';', '/', '"', '\'']

instance (s : List Char) : Decidable (IsTarget s) := List.decidableBAll _ s

theorem IsTarget.of_suffix {s t : List Char} (h : IsTarget s) (ht : t <:+ s) : IsTarget t :=
  fun c hc => h c (ht.subset hc)

/-- The space at the beginning of such a text ends in front of its semicolon. -/
theorem takeSpace_target {s : List Char} (hs : IsTarget s) (bound rest : List Char) :
    ∃ t, t <:+ s ∧ (takeSpace bound (s ++ ';' :: rest)).2 = t ++ ';' :: rest := by
  induction bound generalizing s with
  | nil => exact ⟨s, List.suffix_rfl, rfl⟩
  | cons b bound ih =>
    cases s with
    | nil => exact ⟨[], List.suffix_rfl, rfl⟩
    | cons c s =>
      have hslash : c ≠ '/' := by
        rintro rfl
        exact hs '/' List.mem_cons_self (by decide)
      have hno : ∀ d (t : List Char), c = '/' → s ++ ';' :: rest ≠ d :: t :=
        fun _ _ hc => absurd hc hslash
      rw [List.cons_append, takeSpace_cons (hno '/') (hno '*')]
      split
      · obtain ⟨t, ht, hbehind⟩ := ih (hs.of_suffix (List.suffix_cons c s))
        exact ⟨t, ht.trans (List.suffix_cons c s), hbehind⟩
      · exact ⟨c :: s, List.suffix_rfl, rfl⟩

/-- Up to its semicolon an import has no other. -/
theorem lexFrom_target {n : Nat} {before s rest : List Char} {ls : List Lexeme} {close : Space}
    (hs : IsTarget s) (h : lexFrom n before (s ++ ';' :: rest) = some (ls, close)) :
    ∃ n names semicolon more, ls = names ++ semicolon :: more ∧ (∀ l ∈ names, l.text ≠ ";") ∧
      semicolon.kind = .mark ∧ semicolon.text = ";" ∧
      lexFrom n [] rest = some (more, close) := by
  induction ls generalizing n before s with
  | nil =>
    obtain ⟨space, hspace, -⟩ := exists_of_lexFrom_nil h
    obtain ⟨t, -, hbehind⟩ := takeSpace_target hs (s ++ ';' :: rest) rest
    rw [hspace] at hbehind
    exact absurd hbehind.symm (by simp)
  | cons l ls ih =>
    obtain ⟨n, kind, space, taken, rest', hspace, hne, hlexeme, rfl, hmore⟩ :=
      exists_of_lexFrom_cons h
    obtain ⟨t, ht, hbehind⟩ := takeSpace_target hs (s ++ ';' :: rest) rest
    rw [hspace] at hbehind
    dsimp only at hbehind
    rw [hbehind] at hlexeme
    cases t with
    | nil =>
      have hmark : lexeme ([] ++ ';' :: rest) = some (.mark, rest) := rfl
      rw [hmark] at hlexeme
      cases hlexeme
      have htaken : taken = [';'] := List.append_cancel_right hbehind
      exact ⟨n, [], _, ls, rfl, nofun, rfl, by rw [htaken], hmore⟩
    | cons c t =>
      have hc := hs c (ht.subset List.mem_cons_self)
      rw [lexeme_append_stop (by decide) (by simp_all) t] at hlexeme
      obtain ⟨⟨kind', rest''⟩, hfirst, hpair⟩ := Option.map_eq_some_iff.mp hlexeme
      cases hpair
      rw [← List.append_assoc] at hbehind
      have hsplit : taken ++ rest'' = c :: t := List.append_cancel_right hbehind
      obtain ⟨n, names, semicolon, more, rfl, hnames, hkind, htext, hrest⟩ :=
        ih (hs.of_suffix (.trans ⟨taken, hsplit⟩ ht)) hmore
      refine ⟨n, _ :: names, semicolon, more, rfl, List.forall_mem_cons.mpr ⟨?_, hnames⟩, hkind,
        htext, hrest⟩
      intro hsemicolon
      have htaken : taken = [';'] := String.ofList_inj.mp hsemicolon
      rw [htaken] at hsplit
      exact hs ';' (ht.subset (hsplit ▸ List.mem_cons_self)) (by decide)

/-- Where a line begins, or the text itself. -/
def LineStart (front : List Char) : Prop := front = [] ∨ front = ['\n']

theorem LineStart.blank {front : List Char} (h : LineStart front) :
    ∀ b ∈ front, b ∈ ['\n', ' '] := by
  rcases h with rfl | rfl
  · exact nofun
  · exact List.forall_mem_singleton.mpr List.mem_cons_self

theorem importLines_cons (name : String) (imports : List String) :
    importLines (name :: imports) = "import " ++ name ++ ";\n" ++ importLines imports :=
  String.join_cons

/-- The lines in front of the class are imports. -/
theorem lexFrom_importLines {n : Nat} {front rest : List Char} {imports : List String}
    {ls : List Lexeme} {close : Space} (hfront : LineStart front)
    (himports : ∀ name ∈ imports, IsTarget name.toList)
    (h : lexFrom n [] (front ++ ((importLines imports).toList ++ rest)) = some (ls, close)) :
    ∃ (n : Nat) (front : List Char) (lines : List (List Lexeme)) (more : List Lexeme),
      ls = lines.flatten ++ more ∧ (∀ line ∈ lines, ImportLine line) ∧
      LineStart front ∧ lexFrom n [] (front ++ rest) = some (more, close) := by
  induction imports generalizing n front ls with
  | nil => exact ⟨n, front, [], ls, rfl, nofun, hfront, h⟩
  | cons name imports ih =>
    obtain ⟨hname, himports⟩ := List.forall_mem_cons.mp himports
    have hline : lexFrom n [] (front ++ ("import".toList ++
        ' ' :: (name.toList ++ ';' :: '\n' :: ((importLines imports).toList ++ rest)))) =
        some (ls, close) := by
      rw [← h, importLines_cons]
      simp
    obtain ⟨key, n, ls, rfl, hword, hkey, htarget⟩ :=
      lexFrom_word front hline hfront.blank (by decide) (by simp; decide)
    have htarget' : IsTarget (' ' :: name.toList) :=
      List.forall_mem_cons.mpr ⟨by decide, hname⟩
    obtain ⟨n, names, semicolon, ls, rfl, hnames, hkind, htext, hmore⟩ :=
      lexFrom_target htarget' htarget
    obtain ⟨n, front', lines, more, rfl, hlines, hstart, hrest⟩ :=
      ih (.inr rfl) himports hmore
    exact ⟨n, front', (key :: names ++ [semicolon]) :: lines, more, by simp,
      List.forall_mem_cons.mpr ⟨.mk hword hkey hnames hkind htext, hlines⟩, hstart, hrest⟩

/-! ## The head of the class -/

/-- The imports are followed by the head of the class and the lexemes of what stands in it. -/
theorem lex_wrap {imports : List String} {code : String} {ls : List Lexeme} {close : Space}
    (himports : ∀ name ∈ imports, IsTarget name.toList)
    (h : lex (wrap imports code) = some (ls, close)) :
    ∃ (n : Nat) (lines : List (List Lexeme)) (key name first : Lexeme) (inside : List Lexeme),
      ls = lines.flatten ++ key :: name :: first :: inside ∧ (∀ line ∈ lines, ImportLine line) ∧
      key.kind = .word ∧ key.text = "class" ∧
      name.text = wrapperName ∧ first.text = "\x7b" ∧
      lexFrom n [] ('\n' :: code.toList ++ ['\n'] ++ closing) = some (inside, close) := by
  obtain ⟨n, hlex⟩ : ∃ n, lexFrom n [] ([] ++ ((importLines imports).toList ++ ("class".toList ++
      ' ' :: ("__Template".toList ++ ' ' :: '\x7b' :: ('\n' :: code.toList ++ ['\n'] ++ closing))))) =
      some (ls, close) := by
    have hsource : (wrap imports code).toList = (importLines imports).toList ++ ("class".toList ++
        ' ' :: ("__Template".toList ++ ' ' :: '\x7b' ::
          ('\n' :: code.toList ++ ['\n'] ++ closing))) := by
      rw [toList_wrap]
      simp [closing]
    unfold lex at h
    split at h
    · next hmark =>
      rw [hsource] at hmark
      cases imports with
      | nil => exact absurd hmark (by simp [importLines])
      | cons => exact absurd hmark (by simp [importLines_cons])
    · rw [hsource] at h
      exact ⟨_, h⟩
  obtain ⟨n, front, lines, more, rfl, hlines, hfront, hclass⟩ :=
    lexFrom_importLines (.inl rfl) himports hlex
  obtain ⟨key, n, more, rfl, hword, hkey, hnamed⟩ :=
    lexFrom_word front hclass hfront.blank (by decide) (by simp; decide)
  obtain ⟨name, n, more, rfl, -, hname, hbrace⟩ := lexFrom_word [' '] (w := "__Template".toList)
    hnamed (by simp) (by decide) (by simp; decide)
  obtain ⟨first, n, inside, rfl, -, hfirst, hinside⟩ := lexFrom_mark [' '] hbrace (by simp) (by simp)
  exact ⟨n, lines, key, name, first, inside, rfl, hlines, hword, hkey, hname, hfirst, hinside⟩

/-! ## Members and statements -/

/-- Behind its imports, a unit that goes on with the head of a class has that class first. -/
theorem classDecl_of_readMany {depth : Nat} {bound inside : List Lexeme} {lines : List (List Lexeme)}
    {key name first : Lexeme} {items : List Syntax} (hlines : ∀ line ∈ lines, ImportLine line)
    (hword : key.kind = .word) (hkey : key.text = "class") (hfirst : first.text = "\x7b")
    (h : readMany (Grammar.topLevel.read (readPhrase Phrase.rule depth)) bound
      (lines.flatten ++ key :: name :: first :: inside) = (items, [])) :
    ∃ imports modifiers header parts last rest more, items = imports ++ Syntax.node .typeDecl
        [.node .modifiers modifiers, .leaf key, .leaf name, header,
          .node .classBody [.leaf first, .node .members parts, .leaf last]] :: more ∧
      (∀ s ∈ imports, isHeader s) ∧ Conforms (Phrase.rule .members) parts ∧
      last.text = "\x7d" ∧ lexemesOf parts ++ last :: rest = inside := by
  obtain ⟨bound, imports, behind, rfl, himports, hbehind⟩ := readMany_importLines hlines h
  obtain ⟨cs, rest, more, bound, hread, -, rfl⟩ := readMany_of_ne_nil (List.cons_ne_nil _ _) hbehind
  obtain ⟨hconforms, hlexemes⟩ := sound_readPhrase _ _ (typeDecl_of_topLevel hword hkey hread)
  obtain ⟨parts, hparts, rfl⟩ := Conforms.phrase_iff.mp hconforms
  rw [lexemesOf_singleton, Syntax.lexemes] at hlexemes
  obtain ⟨modifiers, header, members, last, rfl, hmembers, hlast, hinside⟩ :=
    classDecl_eq hparts hlexemes hkey hfirst
  refine ⟨imports, modifiers, header, members, last, rest, more, rfl, fun s hs => ?_, hmembers, hlast,
    hinside⟩
  obtain ⟨cs, rfl⟩ := himports s hs
  rfl

/-- The members of a class are the statements of its body. -/
theorem typeDecls_unitOf {front more modifiers parts : List Syntax} {key name first last : Lexeme}
    {header : Syntax} (hfront : ∀ s ∈ front, isHeader s) (resolver : Resolver) (path : String)
    (close : Space) :
    ∃ d env behind, (unitOf resolver path (front ++ Syntax.node .typeDecl
        [.node .modifiers modifiers, .leaf key, .leaf name, header,
          .node .classBody [.leaf first, .node .members parts, .leaf last]] :: more) close).typeDecls =
        d :: behind ∧ d.name.name = name.text ∧ d.body.statements = statementsOf env 0 parts := by
  have hfilter : front.filter (fun s => !isHeader s) = [] :=
    List.filter_eq_nil_iff.mpr fun s hs => by simp [hfront s hs]
  unfold unitOf CompilationUnit.typeDecls
  dsimp only
  rw [topLevelOf_eq, List.filter_append, hfilter, List.nil_append, List.filter_cons_of_pos rfl,
    List.mapIdx_cons]
  exact ⟨_, _, _, List.filterMap_cons_some rfl, rfl, rfl⟩

/-- The members of the class around a code are read from the lexemes behind its opening brace, up to
a closing one. -/
theorem exists_of_wrapped {imports : List String} {code : String} {members : List Statement}
    (himports : ∀ name ∈ imports, IsTarget name.toList)
    (h : wrapped imports code = some members) :
    ∃ n env items last rest close,
      lexFrom n [] ('\n' :: code.toList ++ ['\n'] ++ closing) =
        some (lexemesOf items ++ last :: rest, close) ∧
      Conforms (Phrase.rule .members) items ∧ last.text = "\x7d" ∧
      members = statementsOf env 0 items := by
  unfold wrapped parse? at h
  rw [Option.map_map] at h
  obtain ⟨⟨items, close⟩, hunit, rfl⟩ := Option.map_eq_some_iff.mp h
  obtain ⟨ls, depth, hlex, hread⟩ := readMany_of_readUnit hunit
  obtain ⟨n, lines, key, name, first, inside, rfl, hlines, hword, hkey, hname, hfirst, hinside⟩ :=
    lex_wrap himports hlex
  obtain ⟨front, modifiers, header, parts, last, rest, more, rfl, hfront, hparts, hlast, rfl⟩ :=
    classDecl_of_readMany hlines hword hkey hfirst hread
  obtain ⟨d, env, behind, hdecls, hd, hbody⟩ := typeDecls_unitOf hfront
    (resolverOf _ (.ofList imports)) wrapperPath close
  refine ⟨n, env, parts, last, rest, close, hinside, hparts, hlast, ?_⟩
  rw [← hbody, Function.comp_apply, hdecls, List.find?_cons_of_pos (by simp [hd, hname])]
  rfl

/-! ## The code in the class -/

/-- The lexemes of a text in lines of its own. -/
theorem lex_ownLines {code : String} {ls : List Lexeme} {close : Space}
    (h : lexFrom (('\n' :: code.toList ++ ['\n']).length + 1) [] ('\n' :: code.toList ++ ['\n']) =
      some (ls, close)) : lex ("\n" ++ code ++ "\n") = some (ls, close) := by
  have hsource : ("\n" ++ code ++ "\n").toList = '\n' :: code.toList ++ ['\n'] := by simp
  unfold lex
  rw [hsource]
  exact h

/-- The members of the class around a code are those of its lexemes that stand in front of the first
closing brace that the code does not open. -/
theorem exists_of_members {imports : List String} {code : String} {members : List Statement}
    (himports : ∀ name ∈ imports, IsTarget name.toList)
    (h : wrapped imports code = some members) :
    ∃ env items ls close, lex ("\n" ++ code ++ "\n") = some (ls, close) ∧
      (∀ s ∈ items, s.Valid) ∧ braceDepth 0 (lexemesOf items) = some 0 ∧
      lexemesOf items = upToUnmatched 0 ls ∧
      members = statementsOf env 0 items := by
  obtain ⟨n, env, items, last, rest, close, hlex, hitems, hlast, rfl⟩ := exists_of_wrapped himports h
  obtain ⟨ls, close, hcode, hlexemes, -⟩ := lexFrom_append_closing (endsLine_concat _) hlex
  have hplain := plain_of_lexFrom hlex
  have hdepth := braceDepth_of_conforms hitems fun l hl => hplain l (List.mem_append_left _ hl)
  exact ⟨env, items, ls, close, lex_ownLines hcode, hitems.valid, hdepth,
    (upToUnmatched_eq hdepth hlast rfl hlexemes).symm, rfl⟩

/-! ## The code in a method -/

/-- The lexemes of the method around a code, and of the code in it. -/
theorem lex_method {n : Nat} {code : String} {ls : List Lexeme} {close : Space}
    (h : lexFrom n [] ('\n' :: ("void __template() \x7b\n" ++ code ++ "\n\x7d").toList ++ ['\n'] ++
      closing) = some (ls, close)) :
    ∃ v t p q first inside brace last space,
      ls = v :: t :: p :: q :: first :: (inside ++ [brace] ++ [last]) ∧
      v.text = "void" ∧ t.text = "__template" ∧ p.text = "(" ∧ q.text = ")" ∧ q.kind = .mark ∧
      first.text = "\x7b" ∧ brace.text = "\x7d" ∧
      lex ("\n" ++ code ++ "\n") = some (inside, space) := by
  have hsource : '\n' :: ("void __template() \x7b\n" ++ code ++ "\n\x7d").toList ++ ['\n'] ++ closing =
      ['\n'] ++ ("void".toList ++ ' ' :: ("__template".toList ++ '(' :: ')' :: ' ' :: '\x7b' ::
        ('\n' :: code.toList ++ ['\n'] ++ closing ++ closing))) := by
    simp [closing]
  rw [hsource] at h
  obtain ⟨v, n, ls, rfl, -, hv, hname⟩ :=
    lexFrom_word ['\n'] h (by simp) (by decide) (by simp; decide)
  obtain ⟨t, n, ls, rfl, -, ht, hopen⟩ := lexFrom_word [' '] (w := "__template".toList) hname
    (by simp) (by decide) (by simp; decide)
  obtain ⟨p, n, ls, rfl, -, hp, hclose⟩ := lexFrom_mark [] hopen (List.forall_mem_nil _) (by simp)
  obtain ⟨q, n, ls, rfl, hmark, hq, hbrace⟩ := lexFrom_mark [] hclose (List.forall_mem_nil _) (by simp)
  obtain ⟨first, n, ls, rfl, -, hfirst, hinside⟩ := lexFrom_mark [' '] hbrace (by simp) (by simp)
  have hends : EndsLine ('\n' :: code.toList ++ ['\n'] ++ closing) := by
    have hlines := endsLine_concat ('\n' :: code.toList ++ ['\n', '\x7d'])
    simpa [closing] using hlines
  obtain ⟨ls, space, hbody, rfl, -⟩ := lexFrom_append_closing hends hinside
  obtain ⟨inside, space, hcode, rfl, -⟩ := lexFrom_append_closing (endsLine_concat _) hbody
  exact ⟨v, t, p, q, first, inside, _, _, space, rfl, hv, ht, hp, hq, hmark, hfirst, rfl,
    lex_ownLines hcode⟩

/-- The statements of the method around a code are those of its lexemes that stand in front of the
first closing brace that the code does not open. -/
theorem exists_of_statements {imports : List String} {code : String} {members : List Statement}
    (himports : ∀ name ∈ imports, IsTarget name.toList)
    (h : wrapped imports ("void __template() \x7b\n" ++ code ++ "\n\x7d") = some members) :
    ∃ env items ls close, lex ("\n" ++ code ++ "\n") = some (ls, close) ∧
      (∀ s ∈ items, s.Valid) ∧ braceDepth 0 (lexemesOf items) = some 0 ∧
      lexemesOf items = upToUnmatched 0 ls ∧
      firstBody members = statementsOf env 0 items := by
  obtain ⟨n, env, members, last, rest, close, hlex, hmembers, hlast, rfl⟩ :=
    exists_of_wrapped himports h
  obtain ⟨v, t, p, q, first, ls, brace, final, space, hlexemes, hv, ht, hp, hq, hmark, hfirst, hbrace,
    hcode⟩ := lex_method hlex
  rw [hlexemes] at hlex
  have hplain := plain_of_lexFrom hlex
  obtain ⟨parts, hparts, rfl⟩ := Conforms.many_iff.mp hmembers
  cases parts with
  | nil =>
    have hvoid : last.text = v.text := congrArg Lexeme.text (List.cons.inj hlexemes).1
    exact absurd (hlast.symm.trans (hvoid.trans hv)) (by decide)
  | cons part parts =>
    obtain ⟨hpart, -⟩ := List.forall_mem_cons.mp hparts
    rw [List.flatten_cons, lexemesOf_append, List.append_assoc] at hlexemes
    obtain ⟨cs, rfl, hcs⟩ := method_of_classMember hpart hlexemes hv (by rw [ht]; decide) hp
    rw [lexemesOf_singleton, Syntax.lexemes] at hlexemes
    obtain ⟨modifiers, generic, type, parameters, dims, throwing, items, close', rfl, hitems, hclose,
      hbody⟩ := method_eq hcs hlexemes hv (by rw [ht]; decide) hq hmark hfirst
    -- The last brace closes the class, so the method is closed in front of it.
    obtain ⟨front, x, hfront⟩ :=
      (List.eq_nil_or_concat (lexemesOf parts.flatten ++ last :: rest)).resolve_left (by simp)
    rw [hfront, List.concat_eq_append, ← List.cons_append, ← List.append_assoc] at hbody
    have hinside := List.append_inj_left' hbody rfl
    have hdepth := braceDepth_of_conforms hitems fun l hl => hplain l <| by
      have hl' : l ∈ ls ++ [brace] := hinside ▸ List.mem_append_left _ hl
      simp only [List.mem_cons, List.mem_append.mpr (.inl hl'), or_true]
    exact ⟨_, items, ls, space, hcode, hitems.valid, hdepth,
      (upToUnmatched_eq hdepth hclose hbrace hinside).symm, rfl⟩

end JavaMigration.Edit
