import JavaMigration.Java.Grammar

/-!
# What a rule can give

`Conforms` says which syntax trees belong to a rule, without the order of choices and without
what is read ahead. Whatever a rule reads conforms to it, and the lexemes of the trees with the
rest are the lexemes it was given (`Rule.sound_read`).
-/

namespace JavaMigration.Java

/-! ## Conforming -/

/-- The syntax trees that a rule of Java can give. -/
inductive Conforms : Rule → List Syntax → Prop
  | token {l : Lexeme} {text : String} (h : l.text = text) : Conforms (.token text) [.leaf l]
  | glued {l : Lexeme} {text : String} (h : l.text = text) : Conforms (.glued text) [.leaf l]
  | name {l : Lexeme} (h : l.kind = .word) : Conforms .name [.leaf l]
  | except (words : List String) : Conforms (.except words) []
  | literal {l : Lexeme} (h : l.kind = .number ∨ l.kind = .character) : Conforms .literal [.leaf l]
  | string {l : Lexeme} (h : l.kind = .string) : Conforms .string [.leaf l]
  | phrase {p : Phrase} {cs : List Syntax} (h : Conforms p.rule cs) :
      Conforms (.phrase p) [.node p cs]
  | seqNil : Conforms (.seq []) []
  | seqCons {r : Rule} {rs : List Rule} {cs ds : List Syntax} (head : Conforms r cs)
      (tail : Conforms (.seq rs) ds) : Conforms (.seq (r :: rs)) (cs ++ ds)
  | choice {r : Rule} {rs : List Rule} {cs : List Syntax} (mem : r ∈ rs) (h : Conforms r cs) :
      Conforms (.choice rs) cs
  | manyNil (r : Rule) : Conforms (.many r) []
  | manyCons {r : Rule} {cs ds : List Syntax} (head : Conforms r cs)
      (tail : Conforms (.many r) ds) : Conforms (.many r) (cs ++ ds)

namespace Conforms

variable {r : Rule} {rs : List Rule} {cs ds : List Syntax} {p : Phrase}

@[simp] theorem token_iff {text : String} :
    Conforms (.token text) cs ↔ ∃ l : Lexeme, l.text = text ∧ cs = [.leaf l] := by
  constructor
  · intro h
    cases h with
    | token h => exact ⟨_, h, rfl⟩
  · rintro ⟨l, h, rfl⟩
    exact .token h

@[simp] theorem name_iff :
    Conforms .name cs ↔ ∃ l : Lexeme, l.kind = .word ∧ cs = [.leaf l] := by
  constructor
  · intro h
    cases h with
    | name h => exact ⟨_, h, rfl⟩
  · rintro ⟨l, h, rfl⟩
    exact .name h

@[simp] theorem except_iff {words : List String} : Conforms (.except words) cs ↔ cs = [] := by
  constructor
  · rintro ⟨⟩
    rfl
  · rintro rfl
    exact .except words

@[simp] theorem phrase_iff :
    Conforms (.phrase p) cs ↔ ∃ ds, Conforms p.rule ds ∧ cs = [.node p ds] := by
  constructor
  · intro h
    cases h with
    | phrase h => exact ⟨_, h, rfl⟩
  · rintro ⟨ds, h, rfl⟩
    exact .phrase h

@[simp] theorem seq_nil_iff : Conforms (.seq []) cs ↔ cs = [] := by
  constructor
  · rintro ⟨⟩
    rfl
  · rintro rfl
    exact .seqNil

@[simp] theorem seq_cons_iff :
    Conforms (.seq (r :: rs)) cs ↔
      ∃ front, Conforms r front ∧ ∃ back, Conforms (.seq rs) back ∧ cs = front ++ back := by
  constructor
  · intro h
    cases h with
    | seqCons head tail => exact ⟨_, head, _, tail, rfl⟩
  · rintro ⟨front, hfront, back, hback, rfl⟩
    exact .seqCons hfront hback

theorem seq_token_iff {text : String} :
    Conforms (.seq (.token text :: rs)) cs ↔
      ∃ l : Lexeme, l.text = text ∧ ∃ rest, Conforms (.seq rs) rest ∧ cs = .leaf l :: rest := by
  rw [seq_cons_iff]
  simp only [token_iff]
  constructor
  · rintro ⟨_, ⟨l, hl, rfl⟩, rest, hrest, rfl⟩
    exact ⟨l, hl, rest, hrest, rfl⟩
  · rintro ⟨l, hl, rest, hrest, rfl⟩
    exact ⟨_, ⟨l, hl, rfl⟩, rest, hrest, rfl⟩

theorem seq_name_iff :
    Conforms (.seq (.name :: rs)) cs ↔
      ∃ l : Lexeme, l.kind = .word ∧ ∃ rest, Conforms (.seq rs) rest ∧ cs = .leaf l :: rest := by
  rw [seq_cons_iff]
  simp only [name_iff]
  constructor
  · rintro ⟨_, ⟨l, hl, rfl⟩, rest, hrest, rfl⟩
    exact ⟨l, hl, rest, hrest, rfl⟩
  · rintro ⟨l, hl, rest, hrest, rfl⟩
    exact ⟨_, ⟨l, hl, rfl⟩, rest, hrest, rfl⟩

theorem seq_phrase_iff :
    Conforms (.seq (.phrase p :: rs)) cs ↔
      ∃ ds, Conforms p.rule ds ∧ ∃ rest, Conforms (.seq rs) rest ∧ cs = .node p ds :: rest := by
  rw [seq_cons_iff]
  simp only [phrase_iff]
  constructor
  · rintro ⟨_, ⟨ds, hds, rfl⟩, rest, hrest, rfl⟩
    exact ⟨ds, hds, rest, hrest, rfl⟩
  · rintro ⟨ds, hds, rest, hrest, rfl⟩
    exact ⟨_, ⟨ds, hds, rfl⟩, rest, hrest, rfl⟩

theorem seq_except_iff {words : List String} :
    Conforms (.seq (.except words :: rs)) cs ↔ Conforms (.seq rs) cs := by
  rw [seq_cons_iff]
  simp only [except_iff]
  constructor
  · rintro ⟨_, rfl, back, hback, rfl⟩
    exact hback
  · intro h
    exact ⟨[], rfl, cs, h, rfl⟩

theorem seq_singleton_iff : Conforms (.seq [r]) cs ↔ Conforms r cs := by
  rw [seq_cons_iff]
  simp only [seq_nil_iff]
  constructor
  · rintro ⟨front, hfront, _, rfl, rfl⟩
    rwa [List.append_nil]
  · intro h
    exact ⟨cs, h, [], rfl, (List.append_nil cs).symm⟩

@[simp] theorem choice_nil_iff : Conforms (.choice []) cs ↔ False := by
  constructor
  · intro h
    cases h with
    | choice mem => cases mem
  · exact False.elim

@[simp] theorem choice_cons_iff :
    Conforms (.choice (r :: rs)) cs ↔ Conforms r cs ∨ Conforms (.choice rs) cs := by
  constructor
  · intro h
    cases h with
    | choice mem h =>
      rcases List.mem_cons.mp mem with rfl | mem
      · exact .inl h
      · exact .inr (.choice mem h)
  · rintro (h | h)
    · exact .choice List.mem_cons_self h
    · cases h with
      | choice mem h => exact .choice (List.mem_cons_of_mem _ mem) h

@[simp] theorem optional_iff : Conforms (.optional r) cs ↔ Conforms r cs ∨ cs = [] := by
  unfold Rule.optional
  simp

/-- What stands for a repetition is cut into parts that each conform. -/
@[simp] theorem many_iff :
    Conforms (.many r) cs ↔ ∃ parts : List (List Syntax), (∀ c ∈ parts, Conforms r c) ∧
      cs = parts.flatten := by
  constructor
  · intro h
    generalize hrule : Rule.many r = rule at h
    induction h with
    | manyNil => exact ⟨[], by simp, rfl⟩
    | manyCons head tail _ ih =>
      cases hrule
      obtain ⟨parts, hparts, rfl⟩ := ih rfl
      exact ⟨_ :: parts, by simpa using ⟨head, hparts⟩, rfl⟩
    | _ => cases hrule
  · rintro ⟨parts, hparts, rfl⟩
    induction parts with
    | nil => exact .manyNil r
    | cons c parts ih =>
      exact .manyCons (hparts c List.mem_cons_self)
        (ih fun d hd => hparts d (List.mem_cons_of_mem _ hd))

end Conforms

/-- A leaf, or a node whose children conform to its phrase. -/
def Syntax.Valid : Syntax → Prop
  | .leaf _ => True
  | .node p cs => Conforms p.rule cs

/-- All trees that stand for a rule are valid, and so are their children in turn. -/
theorem Conforms.valid {r : Rule} {cs : List Syntax} (h : Conforms r cs) : ∀ s ∈ cs, s.Valid := by
  induction h with
  | phrase h =>
    intro s hs
    rw [List.mem_singleton.mp hs]
    exact h
  | seqCons _ _ ihead itail =>
    intro s hs
    exact (List.mem_append.mp hs).elim (ihead s) (itail s)
  | manyCons _ _ ihead itail =>
    intro s hs
    exact (List.mem_append.mp hs).elim (ihead s) (itail s)
  | choice _ _ ih => exact ih
  | except | seqNil | manyNil => exact fun s hs => nomatch hs
  | token | glued | name | literal | string =>
    intro s hs
    rw [List.mem_singleton.mp hs]
    exact trivial

/-! ## Reading -/

theorem lexemesOf_append (cs ds : List Syntax) :
    lexemesOf (cs ++ ds) = lexemesOf cs ++ lexemesOf ds := by
  induction cs with
  | nil => rfl
  | cons c cs ih => rw [List.cons_append, lexemesOf, lexemesOf, ih, List.append_assoc]

@[simp] theorem lexemesOf_nil : lexemesOf [] = [] := rfl

@[simp] theorem lexemesOf_leaf (l : Lexeme) (cs : List Syntax) :
    lexemesOf (.leaf l :: cs) = l :: lexemesOf cs := rfl

@[simp] theorem lexemesOf_node (p : Phrase) (cs ds : List Syntax) :
    lexemesOf (.node p cs :: ds) = lexemesOf cs ++ lexemesOf ds := by
  rw [lexemesOf, Syntax.lexemes]

theorem lexemesOf_singleton (s : Syntax) : lexemesOf [s] = s.lexemes := by
  rw [lexemesOf, lexemesOf_nil, List.append_nil]

/-- What holds of all lexemes of some syntax trees holds of those of each. -/
theorem forall_mem_lexemesOf_iff {P : Lexeme → Prop} {cs : List Syntax} :
    (∀ l ∈ lexemesOf cs, P l) ↔ ∀ s ∈ cs, ∀ l ∈ s.lexemes, P l := by
  induction cs with
  | nil => simp
  | cons c cs ih => rw [lexemesOf, List.forall_mem_append, ih, List.forall_mem_cons]

/-- What a reader takes conforms to the rule, and nothing of its input is lost. -/
def Reader.Sound (read : Reader) (r : Rule) : Prop :=
  ∀ ⦃ls cs rest⦄, read ls = some (cs, rest) → Conforms r cs ∧ lexemesOf cs ++ rest = ls

theorem Reader.sound_readIf {p : Lexeme → Bool} {r : Rule}
    (h : ∀ l, p l → Conforms r [.leaf l]) : Sound (readIf p) r := by
  intro ls cs rest hread
  cases ls with
  | nil => cases hread
  | cons l ls =>
    rw [show readIf p (l :: ls) = if p l then some ([.leaf l], ls) else none from rfl] at hread
    by_cases hl : p l
    · rw [if_pos hl] at hread
      cases hread
      exact ⟨h l hl, rfl⟩
    · rw [if_neg hl] at hread
      cases hread

theorem Reader.sound_readMany {read : Reader} {r : Rule} (h : Sound read r)
    (bound ls : List Lexeme) :
    Conforms (.many r) (readMany read bound ls).1 ∧
      lexemesOf (readMany read bound ls).1 ++ (readMany read bound ls).2 = ls := by
  induction bound generalizing ls with
  | nil => exact ⟨.manyNil r, rfl⟩
  | cons l bound ih =>
    unfold readMany
    split
    · next cs rest hread =>
      obtain ⟨hcs, hls⟩ := h hread
      obtain ⟨hmore, hrest⟩ := ih rest
      refine ⟨.manyCons hcs hmore, ?_⟩
      rw [lexemesOf_append, List.append_assoc, hrest, hls]
    · exact ⟨.manyNil r, rfl⟩

mutual

theorem Rule.sound_read {call : Phrase → Reader} (h : ∀ p, (call p).Sound (.phrase p)) :
    ∀ r : Rule, Reader.Sound (r.read call) r
  | .token text => Reader.sound_readIf fun l hl => .token (by simpa using hl)
  | .glued text => Reader.sound_readIf fun l hl => .glued (by simp at hl; exact hl.1)
  | .name => Reader.sound_readIf fun l hl => .name (by simpa using hl)
  | .except words => by
    intro ls cs rest hread
    unfold Rule.read at hread
    split at hread
    · cases hread
    · cases hread
      exact ⟨.except words, rfl⟩
  | .literal => Reader.sound_readIf fun l hl => .literal (by simpa using hl)
  | .string => Reader.sound_readIf fun l hl => .string (by simpa using hl)
  | .phrase p => h p
  | .seq parts => sound_readSeq h parts
  | .choice parts => fun ls cs rest hread => by
    obtain ⟨r, hr, hcs, hls⟩ := sound_readChoice h parts ls cs rest hread
    exact ⟨.choice hr hcs, hls⟩
  | .many r => by
    intro ls cs rest hread
    have hmany : readMany (r.read call) ls ls = (cs, rest) := Option.some.inj hread
    have hsound := Reader.sound_readMany (Rule.sound_read h r) ls ls
    rwa [hmany] at hsound

theorem sound_readSeq {call : Phrase → Reader} (h : ∀ p, (call p).Sound (.phrase p)) :
    ∀ rs : List Rule, Reader.Sound (readSeq call rs) (.seq rs)
  | [] => by
    intro ls cs rest hread
    cases hread
    exact ⟨.seqNil, rfl⟩
  | r :: rs => by
    intro ls cs rest hread
    unfold readSeq at hread
    split at hread
    · cases hread
    · next front mid hfront =>
      split at hread
      · cases hread
      · next back last hback =>
        cases hread
        obtain ⟨hf, hls⟩ := Rule.sound_read h r hfront
        obtain ⟨hb, hmid⟩ := sound_readSeq h rs hback
        refine ⟨.seqCons hf hb, ?_⟩
        rw [lexemesOf_append, List.append_assoc, hmid, hls]

theorem sound_readChoice {call : Phrase → Reader} (h : ∀ p, (call p).Sound (.phrase p)) :
    ∀ (rs : List Rule) (ls : List Lexeme) (cs : List Syntax) (rest : List Lexeme),
      readChoice call rs ls = some (cs, rest) →
        ∃ r ∈ rs, Conforms r cs ∧ lexemesOf cs ++ rest = ls
  | [], ls, cs, rest, hread => by cases hread
  | r :: rs, ls, cs, rest, hread => by
    unfold readChoice at hread
    split at hread
    · next hr =>
      cases hread
      exact ⟨r, List.mem_cons_self, Rule.sound_read h r hr⟩
    · obtain ⟨r', hr', hcs⟩ := sound_readChoice h rs ls cs rest hread
      exact ⟨r', List.mem_cons_of_mem _ hr', hcs⟩

end

theorem sound_readPhrase (depth : Nat) (p : Phrase) :
    Reader.Sound (readPhrase Phrase.rule depth p) (.phrase p) := by
  induction depth generalizing p with
  | zero => intro ls cs rest hread; cases hread
  | succ depth ih =>
    intro ls cs rest hread
    unfold readPhrase at hread
    split at hread
    · next ds rest' hds =>
      cases hread
      obtain ⟨hconf, hls⟩ := Rule.sound_read ih p.rule hds
      exact ⟨.phrase hconf, by simpa using hls⟩
    · cases hread

end JavaMigration.Java
