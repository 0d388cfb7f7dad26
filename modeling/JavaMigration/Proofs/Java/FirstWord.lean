import JavaMigration.Proofs.Java.Conforms

/-!
# What the first word decides

In front of some words most rules fail at once. `Rule.start` reads that off a rule, with phrases
followed to some depth, and `Phrase.startsAs` says that the readers agree. So at top level what
begins with `import` is read as an import and what begins with `class` as a type declaration
(`importDecl_of_topLevel`, `typeDecl_of_topLevel`).
-/

namespace JavaMigration.Java

open Grammar

/-! ## Starts -/

/-- What a rule does in front of a word, as far as that word tells. -/
inductive Start where
  /-- It fails. -/
  | fails
  /-- It fails or takes nothing. -/
  | idles
  /-- It may take something. -/
  | goes
  deriving DecidableEq

mutual

/-- What a rule does in front of the word, if the phrases do what `call` says. -/
def Rule.start (word : String) (call : Phrase → Start) : Rule → Start
  | .token text => if text = word then .goes else .fails
  | .glued text => if text = word then .goes else .fails
  | .name => .goes
  | .except words => if words.contains word then .fails else .idles
  | .literal => .fails
  | .string => .fails
  | .phrase p => call p
  | .seq parts => seqStart word call parts
  | .choice parts => choiceStart word call parts
  | .many r => if r.start word call = .goes then .goes else .idles

def seqStart (word : String) (call : Phrase → Start) : List Rule → Start
  | [] => .idles
  | r :: rs =>
    match r.start word call with
    | .fails => .fails
    | .idles => seqStart word call rs
    | .goes => .goes

def choiceStart (word : String) (call : Phrase → Start) : List Rule → Start
  | [] => .fails
  | r :: rs =>
    match r.start word call with
    | .fails => choiceStart word call rs
    | .idles => if choiceStart word call rs = .goes then .goes else .idles
    | .goes => .goes

end

/-- What a phrase does in front of the word; phrases are followed `n` deep. -/
def Phrase.start (word : String) : Nat → Phrase → Start
  | 0, _ => .goes
  | n + 1, p => p.rule.start word (Phrase.start word n)

/-! ## Reading -/

theorem readSeq_cons (call : Phrase → Reader) (r : Rule) (rs : List Rule) (ls : List Lexeme) :
    readSeq call (r :: rs) ls = (r.read call ls).bind fun front =>
      (readSeq call rs front.2).map fun back => (front.1 ++ back.1, back.2) := by
  rw [readSeq]
  dsimp only
  cases r.read call ls with
  | none => rfl
  | some front =>
    rw [Option.bind_some]
    dsimp only
    cases readSeq call rs front.2 <;> rfl

theorem readChoice_cons (call : Phrase → Reader) (r : Rule) (rs : List Rule) (ls : List Lexeme) :
    readChoice call (r :: rs) ls = (r.read call ls).or (readChoice call rs ls) := by
  rw [readChoice]
  dsimp only
  cases r.read call ls <;> rfl

/-- The reader does so in front of the lexeme. -/
def Reader.StartsAs (read : Reader) (l : Lexeme) : Start → Prop
  | .fails => ∀ ls, read (l :: ls) = none
  | .idles => ∀ ⦃ls cs rest⦄, read (l :: ls) = some (cs, rest) → rest = l :: ls
  | .goes => True

namespace Reader.StartsAs

variable {read : Reader} {l : Lexeme}

theorem idles_of_fails (h : read.StartsAs l .fails) : read.StartsAs l .idles := by
  intro ls cs rest hread
  rw [h ls] at hread
  cases hread

theorem idles_of_ne_goes {s : Start} (h : read.StartsAs l s) (hs : s ≠ .goes) :
    read.StartsAs l .idles := by
  cases s with
  | fails => exact h.idles_of_fails
  | idles => exact h
  | goes => exact absurd rfl hs

/-- Who takes nothing once takes nothing again. -/
theorem readMany (h : read.StartsAs l .idles) (bound ls : List Lexeme) :
    (Java.readMany read bound (l :: ls)).2 = l :: ls := by
  induction bound with
  | nil => rfl
  | cons _ bound ih =>
    unfold Java.readMany
    split
    · next cs rest hread =>
      rw [h hread]
      exact ih
    · rfl

end Reader.StartsAs

variable {l : Lexeme} {call : Phrase → Reader} {start : Phrase → Start}

theorem startsAs_readIf {p : Lexeme → Bool} {text : String}
    (hp : l.text ≠ text → p l = false) :
    (readIf p).StartsAs l (if text = l.text then .goes else .fails) := by
  split
  · exact trivial
  · next hne =>
    intro ls
    rw [show readIf p (l :: ls) = if p l then some ([.leaf l], ls) else none from rfl,
      hp (Ne.symm hne), if_neg Bool.false_ne_true]

mutual

theorem Rule.startsAs (hl : l.kind = .word) (h : ∀ p, (call p).StartsAs l (start p)) :
    ∀ r : Rule, (r.read call).StartsAs l (r.start l.text start)
  | .token text => startsAs_readIf fun hne => by simp [hne]
  | .glued text => startsAs_readIf fun hne => by simp [hne]
  | .name => trivial
  | .except words => by
    rw [Rule.start]
    split
    · next hmem => exact fun ls => if_pos hmem
    · intro ls cs rest hread
      unfold Rule.read at hread
      split at hread
      · cases hread
      · cases hread
        rfl
  | .literal => fun ls => if_neg (by simp [hl])
  | .string => fun ls => if_neg (by simp [hl])
  | .phrase p => h p
  | .seq parts => startsAs_readSeq hl h parts
  | .choice parts => startsAs_readChoice hl h parts
  | .many r => by
    rw [Rule.start]
    split
    · exact trivial
    · next hne =>
      have hidles := (Rule.startsAs hl h r).idles_of_ne_goes hne
      intro ls cs rest hread
      have hmany := hidles.readMany (l :: ls) ls
      have hpair : readMany (r.read call) (l :: ls) (l :: ls) = (cs, rest) := Option.some.inj hread
      rwa [hpair] at hmany

theorem startsAs_readSeq (hl : l.kind = .word) (h : ∀ p, (call p).StartsAs l (start p)) :
    ∀ rs : List Rule, (readSeq call rs).StartsAs l (seqStart l.text start rs)
  | [] => fun ls cs rest hread => by
    cases hread
    rfl
  | r :: rs => by
    have hfirst := Rule.startsAs hl h r
    have hmore := startsAs_readSeq hl h rs
    rw [seqStart]
    split
    · next hr =>
      rw [hr] at hfirst
      intro ls
      rw [readSeq_cons, hfirst ls, Option.bind_none]
    · next hr =>
      rw [hr] at hfirst
      -- the first part takes nothing, and so the others stand in front of the same word
      cases hs : seqStart l.text start rs with
      | goes => exact trivial
      | fails =>
        rw [hs] at hmore
        intro ls
        rw [readSeq_cons, Option.bind_eq_none_iff]
        intro front hfront
        rw [hfirst hfront, hmore ls, Option.map_none]
      | idles =>
        rw [hs] at hmore
        intro ls cs rest hread
        rw [readSeq_cons] at hread
        obtain ⟨front, hfront, hread⟩ := Option.bind_eq_some_iff.mp hread
        obtain ⟨back, hback, hpair⟩ := Option.map_eq_some_iff.mp hread
        cases hpair
        rw [hfirst hfront] at hback
        exact hmore hback
    · exact trivial

theorem startsAs_readChoice (hl : l.kind = .word) (h : ∀ p, (call p).StartsAs l (start p)) :
    ∀ rs : List Rule, (readChoice call rs).StartsAs l (choiceStart l.text start rs)
  | [] => fun ls => rfl
  | r :: rs => by
    have hfirst := Rule.startsAs hl h r
    have hmore := startsAs_readChoice hl h rs
    rw [choiceStart]
    split
    · next hr =>
      rw [hr] at hfirst
      have hrest : ∀ ls, readChoice call (r :: rs) (l :: ls) = readChoice call rs (l :: ls) := by
        intro ls
        rw [readChoice_cons, hfirst ls, Option.none_or]
      cases hs : choiceStart l.text start rs with
      | goes => exact trivial
      | fails =>
        rw [hs] at hmore
        exact fun ls => (hrest ls).trans (hmore ls)
      | idles =>
        rw [hs] at hmore
        exact fun ls cs rest hread => hmore ((hrest ls).symm.trans hread)
    · next hr =>
      rw [hr] at hfirst
      split
      · exact trivial
      · next hne =>
        intro ls cs rest hread
        rw [readChoice_cons] at hread
        rcases Option.or_eq_some_iff.mp hread with hread | ⟨-, hread⟩
        · exact hfirst hread
        · exact hmore.idles_of_ne_goes hne hread
    · exact trivial

end

/-- A phrase does in front of a word what its rule does. -/
theorem Phrase.startsAs (hl : l.kind = .word) (n depth : Nat) (p : Phrase) :
    (readPhrase Phrase.rule depth p).StartsAs l (Phrase.start l.text n p) := by
  induction n generalizing depth p with
  | zero => exact trivial
  | succ n ih =>
    have hnone : ∀ s, Reader.StartsAs (fun _ => none) l s := by
      intro s
      cases s with
      | fails => exact fun _ => rfl
      | idles => exact nofun
      | goes => exact trivial
    cases depth with
    | zero => exact hnone _
    | succ depth =>
      have hrule := Rule.startsAs hl (ih depth) p.rule
      rw [Phrase.start]
      cases hs : p.rule.start l.text (Phrase.start l.text n) with
      | goes => exact trivial
      | fails =>
        rw [hs] at hrule
        intro ls
        rw [readPhrase, hrule ls]
      | idles =>
        rw [hs] at hrule
        intro ls cs rest hread
        unfold readPhrase at hread
        split at hread
        · next hcs =>
          cases hread
          exact hrule hcs
        · cases hread

/-! ## Choices -/

/-- If in front of the word all alternatives but the one at position `n` fail, a choice reads by
that one. -/
theorem read_of_choice (n : Nat) {word : String} {depth : Nat} {rs : List Rule} {r : Rule}
    {ls : List Lexeme} {result : List Syntax × List Lexeme} (hl : l.kind = .word)
    (htext : l.text = word) (hr : rs[n]? = some r)
    (hfront : (rs.take n).all fun r => r.start word (Phrase.start word 5) = .fails)
    (hback : (rs.drop (n + 1)).all fun r => r.start word (Phrase.start word 5) = .fails)
    (h : (Rule.choice rs).read (readPhrase Phrase.rule depth) (l :: ls) = some result) :
    r.read (readPhrase Phrase.rule depth) (l :: ls) = some result := by
  subst htext
  have hfails : ∀ {r : Rule}, r.start l.text (Phrase.start l.text 5) = .fails →
      r.read (readPhrase Phrase.rule depth) (l :: ls) = none := by
    intro r hr
    have hstarts := Rule.startsAs hl (Phrase.startsAs hl 5 depth) r
    rw [hr] at hstarts
    exact hstarts ls
  have hnone : ∀ {rs : List Rule},
      (rs.all fun r => r.start l.text (Phrase.start l.text 5) = .fails) →
        readChoice (readPhrase Phrase.rule depth) rs (l :: ls) = none := by
    intro rs hrs
    induction rs with
    | nil => rfl
    | cons r rs ih =>
      rw [List.all_cons, Bool.and_eq_true, decide_eq_true_eq] at hrs
      rw [readChoice_cons, hfails hrs.1, ih hrs.2, Option.none_or]
  induction n generalizing rs with
  | zero =>
    cases rs with
    | nil => cases hr
    | cons first rs =>
      cases hr
      have hrest : readChoice (readPhrase Phrase.rule depth) rs (l :: ls) = none := hnone hback
      rwa [Rule.read, readChoice_cons, hrest, Option.or_none] at h
  | succ n ih =>
    cases rs with
    | nil => cases hr
    | cons first rs =>
      rw [List.take_succ_cons, List.all_cons, Bool.and_eq_true, decide_eq_true_eq] at hfront
      rw [Rule.read, readChoice_cons, hfails hfront.1, Option.none_or] at h
      exact ih hr h hfront.2 hback

/-- What begins with `import` at top level is an import. -/
theorem importDecl_of_topLevel {depth : Nat} {ls : List Lexeme}
    {result : List Syntax × List Lexeme} (hl : l.kind = .word) (htext : l.text = "import")
    (h : topLevel.read (readPhrase Phrase.rule depth) (l :: ls) = some result) :
    readPhrase Phrase.rule depth .importDecl (l :: ls) = some result := by
  have hstatement := read_of_choice 0 hl htext rfl (by decide +kernel) (by decide +kernel) h
  exact read_of_choice 7 hl htext rfl (by decide +kernel) (by decide +kernel) hstatement

/-- What begins with `class` at top level is a type declaration. -/
theorem typeDecl_of_topLevel {depth : Nat} {ls : List Lexeme}
    {result : List Syntax × List Lexeme} (hl : l.kind = .word) (htext : l.text = "class")
    (h : topLevel.read (readPhrase Phrase.rule depth) (l :: ls) = some result) :
    readPhrase Phrase.rule depth .typeDecl (l :: ls) = some result := by
  have hstatement := read_of_choice 0 hl htext rfl (by decide +kernel) (by decide +kernel) h
  exact read_of_choice 3 hl htext rfl (by decide +kernel) (by decide +kernel) hstatement

end JavaMigration.Java
