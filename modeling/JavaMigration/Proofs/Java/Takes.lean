import JavaMigration.Proofs.Java.Conforms

/-!
# What a rule takes

A rule seen from the lexemes: which front parts of them it can take. A rule that cannot begin with
the first lexeme takes nothing, and so known lexemes tell where a part of a phrase ends.
-/

namespace JavaMigration.Java

open Rule Grammar

/-- The rule can take the front of the lexemes and leave the rest. -/
def Takes (r : Rule) (ls rest : List Lexeme) : Prop :=
  ∃ cs, Conforms r cs ∧ ls = lexemesOf cs ++ rest

namespace Takes

variable {r : Rule} {rs : List Rule} {l : Lexeme} {ls rest : List Lexeme} {text : String}

theorem of_conforms {cs : List Syntax} (h : Conforms r cs) (rest : List Lexeme) :
    Takes r (lexemesOf cs ++ rest) rest := ⟨cs, h, rfl⟩

theorem token_cons_iff : Takes (.token text) (l :: ls) rest ↔ l.text = text ∧ ls = rest := by
  unfold Takes
  constructor
  · rintro ⟨cs, hcs, heq⟩
    obtain ⟨k, hk, rfl⟩ := Conforms.token_iff.mp hcs
    cases heq
    exact ⟨hk, rfl⟩
  · rintro ⟨h, rfl⟩
    exact ⟨_, .token h, rfl⟩

theorem name_cons_iff : Takes .name (l :: ls) rest ↔ l.kind = .word ∧ ls = rest := by
  unfold Takes
  constructor
  · rintro ⟨cs, hcs, heq⟩
    obtain ⟨k, hk, rfl⟩ := Conforms.name_iff.mp hcs
    cases heq
    exact ⟨hk, rfl⟩
  · rintro ⟨h, rfl⟩
    exact ⟨_, .name h, rfl⟩

theorem except_iff {words : List String} : Takes (.except words) ls rest ↔ ls = rest := by
  simp [Takes]

theorem phrase_iff {p : Phrase} : Takes (.phrase p) ls rest ↔ Takes p.rule ls rest := by
  unfold Takes
  constructor
  · rintro ⟨cs, hcs, rfl⟩
    obtain ⟨ds, hds, rfl⟩ := Conforms.phrase_iff.mp hcs
    exact ⟨ds, hds, by simp⟩
  · rintro ⟨ds, hds, rfl⟩
    exact ⟨[.node p ds], .phrase hds, by simp⟩

theorem seq_nil_iff : Takes (.seq []) ls rest ↔ ls = rest := by simp [Takes]

theorem seq_cons_iff :
    Takes (.seq (r :: rs)) ls rest ↔ ∃ mid, Takes r ls mid ∧ Takes (.seq rs) mid rest := by
  unfold Takes
  constructor
  · rintro ⟨cs, hcs, rfl⟩
    obtain ⟨front, hfront, back, hback, rfl⟩ := Conforms.seq_cons_iff.mp hcs
    rw [lexemesOf_append, List.append_assoc]
    exact ⟨_, ⟨front, hfront, rfl⟩, back, hback, rfl⟩
  · rintro ⟨mid, ⟨front, hfront, rfl⟩, back, hback, rfl⟩
    refine ⟨front ++ back, .seqCons hfront hback, ?_⟩
    rw [lexemesOf_append, List.append_assoc]

theorem choice_nil_iff : Takes (.choice []) ls rest ↔ False := by simp [Takes]

theorem choice_cons_iff :
    Takes (.choice (r :: rs)) ls rest ↔ Takes r ls rest ∨ Takes (.choice rs) ls rest := by
  simp [Takes, or_and_right, exists_or]

theorem optional_iff : Takes (optional r) ls rest ↔ Takes r ls rest ∨ ls = rest := by
  simp [Takes, or_and_right, exists_or]

theorem many_iff :
    Takes (.many r) ls rest ↔ ls = rest ∨ ∃ mid, Takes r ls mid ∧ Takes (.many r) mid rest := by
  unfold Takes
  constructor
  · rintro ⟨cs, hcs, rfl⟩
    cases hcs with
    | manyNil => exact .inl rfl
    | manyCons head tail =>
      rw [lexemesOf_append, List.append_assoc]
      exact .inr ⟨_, ⟨_, head, rfl⟩, _, tail, rfl⟩
  · rintro (rfl | ⟨mid, ⟨front, hfront, rfl⟩, back, hback, rfl⟩)
    · exact ⟨[], .manyNil r, rfl⟩
    · refine ⟨front ++ back, .manyCons hfront hback, ?_⟩
      rw [lexemesOf_append, List.append_assoc]

/-- A repetition ends where the rule cannot go on. -/
theorem eq_of_many (h : Takes (.many r) ls rest) (hstop : ∀ mid, ¬Takes r ls mid) : ls = rest := by
  rcases many_iff.mp h with heq | ⟨mid, hmid, -⟩
  · exact heq
  · exact absurd hmid (hstop mid)

theorem eq_of_optional (h : Takes (optional r) ls rest) (hstop : ¬Takes r ls rest) : ls = rest :=
  (optional_iff.mp h).resolve_left hstop

theorem not_seq_token (hl : l.text ≠ text) : ¬Takes (.seq (.token text :: rs)) (l :: ls) rest := by
  rw [seq_cons_iff]
  rintro ⟨mid, hmid, -⟩
  exact hl (token_cons_iff.mp hmid).1

/-! ## What cannot begin with a lexeme -/

theorem not_annot (hl : l.text ≠ "@") : ¬Takes (Phrase.rule .annot) (l :: ls) rest := not_seq_token hl

theorem eq_of_annotations (h : Takes annotations (l :: ls) rest) (hl : l.text ≠ "@") :
    l :: ls = rest := h.eq_of_many fun _ hmid => not_annot hl (phrase_iff.mp hmid)

theorem not_dimension (hl : l.text ≠ "@") (hl' : l.text ≠ "[") :
    ¬Takes dimension (l :: ls) rest := by
  unfold dimension
  rw [seq_cons_iff]
  rintro ⟨mid, hmid, hrest⟩
  rw [← eq_of_annotations hmid hl] at hrest
  exact not_seq_token hl' hrest

/-- Modifiers end where a lexeme follows that none of them begins with. -/
theorem eq_of_modifiers (h : Takes (Phrase.rule .modifiers) (l :: ls) rest)
    (hl : l.text ∉ ["@", "public", "protected", "private", "abstract", "static", "final",
      "strictfp", "default", "synchronized", "native", "transient", "volatile", "non",
      "sealed"]) : l :: ls = rest := by
  simp only [List.mem_cons, List.not_mem_nil, or_false, not_or] at hl
  refine eq_of_many h fun mid hmid => ?_
  have hsealed : ¬Takes (Phrase.rule .nonSealed) (l :: ls) mid := not_seq_token (by simp [hl])
  simp only [choice_cons_iff, choice_nil_iff, phrase_iff, token_cons_iff, hl, hsealed,
    not_annot hl.1, false_and, or_self] at hmid

/-! ## Short names and types -/

/-- In front of something else than a point or an argument list, an annotation is one name. -/
theorem eq_of_annot {mark a : Lexeme} (h : Takes (Phrase.rule .annot) (mark :: a :: l :: ls) rest)
    (hpoint : l.text ≠ ".") (hopen : l.text ≠ "(") : l :: ls = rest := by
  rw [show Phrase.rule .annot = seq ["@", Phrase.qualified, optional Phrase.annotationArguments]
    from rfl] at h
  simp only [seq_cons_iff, seq_nil_iff] at h
  obtain ⟨behindMark, hmark, behindName, hname, _, harguments, rfl⟩ := h
  obtain ⟨-, rfl⟩ := token_cons_iff.mp hmark
  have hqualified : l :: ls = behindName := by
    rw [phrase_iff, show Phrase.rule .qualified = seq [name, many (seq [".", name])] from rfl] at hname
    simp only [seq_cons_iff, seq_nil_iff] at hname
    obtain ⟨mid, hfirst, _, hmore, rfl⟩ := hname
    rw [← (name_cons_iff.mp hfirst).2] at hmore
    exact eq_of_many hmore fun _ => not_seq_token hpoint
  rw [← hqualified] at harguments
  exact eq_of_optional harguments fun hmid => not_seq_token hopen (phrase_iff.mp hmid)

/-- In front of something that neither continues a type nor makes it an array, a type is one
word. -/
theorem eq_of_typeRef {a : Lexeme} (h : Takes (Phrase.rule .typeRef) (a :: l :: ls) rest)
    (hl : l.text ∉ ["@", "<", ".", "["]) : l :: ls = rest := by
  simp only [List.mem_cons, List.not_mem_nil, or_false, not_or] at hl
  rw [show Phrase.rule .typeRef = seq [Phrase.plainType, many dimension] from rfl] at h
  simp only [seq_cons_iff, seq_nil_iff] at h
  obtain ⟨behindType, hplain, _, hdims, rfl⟩ := h
  have htype : l :: ls = behindType := by
    rw [phrase_iff, show Phrase.rule .plainType = choice [primitive,
      seq [nameExcept declarationWords, optional Phrase.typeArguments,
        many (seq [".", annotations, nameExcept memberWords, optional Phrase.typeArguments])]]
      from rfl] at hplain
    simp only [choice_cons_iff, choice_nil_iff, or_false, nameExcept, seq_cons_iff, seq_nil_iff,
      except_iff] at hplain
    obtain ⟨cs, hcs, heq⟩ | ⟨mid, hword, mid', harguments, _, hmore, rfl⟩ := hplain
    · cases hcs with
      | choice hmem hword =>
        obtain ⟨word, -, rfl⟩ := List.mem_map.mp hmem
        exact (token_cons_iff.mp ⟨cs, hword, heq⟩).2
    · obtain ⟨_, rfl, _, hname, rfl⟩ := hword
      rw [← (name_cons_iff.mp hname).2] at harguments
      have hstop := eq_of_optional harguments fun hmid => not_seq_token hl.2.1 (phrase_iff.mp hmid)
      rw [← hstop] at hmore
      exact eq_of_many hmore fun _ => not_seq_token hl.2.2.1
  rw [← htype] at hdims
  exact eq_of_many hdims fun _ => not_dimension hl.1 hl.2.2.2

/-- Declarators that begin with a word in front of an argument list consist of that word. -/
theorem eq_of_declarators {a : Lexeme} (h : Takes (Phrase.rule .declarators) (a :: l :: ls) rest)
    (hl : l.text ∉ ["@", "[", "=", ","]) : l :: ls = rest := by
  simp only [List.mem_cons, List.not_mem_nil, or_false, not_or] at hl
  rw [show Phrase.rule .declarators = seq [Phrase.declarator, many (seq [",", Phrase.declarator])]
    from rfl] at h
  simp only [seq_cons_iff, seq_nil_iff] at h
  obtain ⟨behindFirst, hfirst, _, hmore, rfl⟩ := h
  have hone : l :: ls = behindFirst := by
    rw [phrase_iff, show Phrase.rule .declarator =
      seq [name, Phrase.dimensions, Phrase.initializer] from rfl] at hfirst
    simp only [seq_cons_iff, seq_nil_iff, phrase_iff] at hfirst
    obtain ⟨mid, hname, mid', hdims, _, hvalue, rfl⟩ := hfirst
    rw [← (name_cons_iff.mp hname).2] at hdims
    rw [← eq_of_many hdims fun _ => not_dimension hl.1 hl.2.1] at hvalue
    exact eq_of_optional hvalue (not_seq_token hl.2.2.1)
  rw [← hone] at hmore
  exact eq_of_many hmore fun _ => not_seq_token hl.2.2.2

theorem vars_iff {ls rest : List Lexeme} : Takes (Phrase.rule .vars) ls rest ↔
    ∃ l₁, Takes (Phrase.rule .modifiers) ls l₁ ∧ ∃ l₂, Takes (Phrase.rule .typeRef) l₁ l₂ ∧
      ∃ l₃, Takes (Phrase.rule .declarators) l₂ l₃ ∧ Takes (.token ";") l₃ rest := by
  rw [show Phrase.rule .vars = seq [Phrase.modifiers, Phrase.typeRef, Phrase.declarators, ";"] from rfl]
  simp only [seq_cons_iff, seq_nil_iff, phrase_iff, exists_eq_right]

end Takes

open Takes

/-- The head of a method is no field. -/
theorem not_vars_of_method {v t p : Lexeme} {ls rest : List Lexeme} (hv : v.text = "void")
    (ht : t.text ∉ ["@", "<", ".", "["]) (hp : p.text = "(") :
    ¬Takes (Phrase.rule .vars) (v :: t :: p :: ls) rest := by
  rw [vars_iff]
  rintro ⟨_, hmodifiers, _, htype, _, hdeclarators, hclose⟩
  obtain rfl := eq_of_modifiers hmodifiers (by rw [hv]; decide)
  obtain rfl := eq_of_typeRef htype ht
  obtain rfl := eq_of_declarators hdeclarators (by rw [hp]; decide)
  exact absurd (hp.symm.trans (token_cons_iff.mp hclose).1) (by decide)

/-- Nor is it one with an annotation in front. -/
theorem not_field_of_method {mark a v t p : Lexeme} {ls l₁ l₂ l₃ l₄ l₅ : List Lexeme}
    (hv : v.text = "void") (hp : p.text = "(") (ht : t.text ∉ ["@", "<", ".", "["])
    (hannot : Takes (Phrase.rule .annot) (mark :: a :: v :: t :: p :: ls) l₁)
    (hmodifiers : Takes (Phrase.rule .modifiers) l₁ l₂)
    (htype : Takes (Phrase.rule .typeRef) l₂ l₃)
    (hdeclarators : Takes (Phrase.rule .declarators) l₃ l₄) : ¬Takes (.token ";") l₄ l₅ := by
  obtain rfl := eq_of_annot hannot (by rw [hv]; decide) (by rw [hv]; decide)
  exact fun hclose => not_vars_of_method hv ht hp
    (vars_iff.mpr ⟨l₂, hmodifiers, l₃, htype, l₄, hdeclarators, hclose⟩)

end JavaMigration.Java
