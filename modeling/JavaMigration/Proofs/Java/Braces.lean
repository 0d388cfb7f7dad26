import JavaMigration.Proofs.Java.Boundaries
import JavaMigration.Proofs.Java.Conforms

/-!
# Braces in source

Every phrase of Java closes the braces it opens, and no others (`Conforms.braceDepth`). That is
checked on the rules, where each phrase counts as closed, and holds of all syntax trees by
induction. So the list inside a pair of braces goes up to the first closing brace that it does not
open itself (`upToUnmatched_eq`).
-/

namespace JavaMigration.Java

open Text Source

/-! ## Depth -/

/-- How deep in braces one is behind a text at depth `d`. At depth zero no brace can be closed. -/
def depthBehind (text : String) (d : Nat) : Option Nat :=
  if text = "\x7b" then some (d + 1)
  else if text = "\x7d" then if d = 0 then none else some (d - 1)
  else some d

/-- How deep in braces one is behind some lexemes; `none` if they close more than there is. -/
def braceDepth (d : Nat) : List Lexeme → Option Nat
  | [] => some d
  | l :: ls => (depthBehind l.text d).bind (braceDepth · ls)

/-- The lexemes in front of the first closing brace that neither they nor `d` braces before them
open. -/
def upToUnmatched (d : Nat) : List Lexeme → List Lexeme
  | [] => []
  | l :: ls =>
    match depthBehind l.text d with
    | some e => l :: upToUnmatched e ls
    | none => []

theorem depthBehind_of_ne {text : String} (hopen : text ≠ "\x7b") (hclose : text ≠ "\x7d")
    (d : Nat) : depthBehind text d = some d := by
  rw [depthBehind, if_neg hopen, if_neg hclose]

theorem depthBehind_add {text : String} {d e : Nat} (h : depthBehind text d = some e) (k : Nat) :
    depthBehind text (d + k) = some (e + k) := by
  unfold depthBehind at h ⊢
  split
  · rw [if_pos ‹_›, Option.some_inj] at h
    rw [← h, Nat.add_right_comm]
  · rw [if_neg ‹_›] at h
    split
    · rw [if_pos ‹_›] at h
      split at h
      · cases h
      · rw [Option.some_inj] at h
        rw [if_neg (by omega), Option.some_inj]
        omega
    · rw [if_neg ‹_›, Option.some_inj] at h
      rw [h]

theorem braceDepth_append (d : Nat) (ls ms : List Lexeme) :
    braceDepth d (ls ++ ms) = (braceDepth d ls).bind (braceDepth · ms) := by
  induction ls generalizing d with
  | nil => rfl
  | cons l ls ih =>
    rw [List.cons_append, braceDepth, braceDepth, Option.bind_assoc]
    exact Option.bind_congr fun e _ => ih e

theorem braceDepth_add {ls : List Lexeme} {d e : Nat} (h : braceDepth d ls = some e) (k : Nat) :
    braceDepth (d + k) ls = some (e + k) := by
  induction ls generalizing d with
  | nil => rw [Option.some.inj h]; rfl
  | cons l ls ih =>
    obtain ⟨mid, hmid, hrest⟩ := Option.bind_eq_some_iff.mp h
    rw [braceDepth, depthBehind_add hmid, Option.bind_some, ih hrest]

/-- Lexemes that close what they open do not change the depth. -/
theorem braceDepth_of_closed {ls : List Lexeme} (h : braceDepth 0 ls = some 0) (d : Nat) :
    braceDepth d ls = some d := by
  simpa using braceDepth_add h d

/-! ## The first unmatched brace -/

theorem upToUnmatched_of_some {ls : List Lexeme} {d e : Nat} (h : braceDepth d ls = some e)
    (ms : List Lexeme) : upToUnmatched d (ls ++ ms) = ls ++ upToUnmatched e ms := by
  induction ls generalizing d with
  | nil => rw [Option.some.inj h]; rfl
  | cons l ls ih =>
    obtain ⟨mid, hmid, hrest⟩ := Option.bind_eq_some_iff.mp h
    rw [List.cons_append, upToUnmatched, hmid, List.cons_append, ← ih hrest]

theorem upToUnmatched_of_none {ls : List Lexeme} {d : Nat} (h : braceDepth d ls = none)
    (ms : List Lexeme) : upToUnmatched d (ls ++ ms) = upToUnmatched d ls := by
  induction ls generalizing d with
  | nil => cases h
  | cons l ls ih =>
    rw [List.cons_append, upToUnmatched, upToUnmatched]
    rw [braceDepth] at h
    cases hmid : depthBehind l.text d with
    | none => rfl
    | some mid =>
      rw [hmid, Option.bind_some] at h
      exact congrArg (l :: ·) (ih h)

/-- Where no closing brace is unmatched, everything is in front of the first one. -/
theorem upToUnmatched_of_matched {ls : List Lexeme} {d e : Nat} (h : braceDepth d ls = some e) :
    upToUnmatched d ls = ls := by
  have hall := upToUnmatched_of_some h []
  rwa [List.append_nil, show upToUnmatched e [] = [] from rfl, List.append_nil] at hall

theorem upToUnmatched_isPrefix (d : Nat) (ls : List Lexeme) : upToUnmatched d ls <+: ls := by
  induction ls generalizing d with
  | nil => exact List.prefix_rfl
  | cons l ls ih =>
    rw [upToUnmatched]
    cases depthBehind l.text d with
    | none => exact List.nil_prefix
    | some e => exact (List.prefix_cons_inj l).mpr (ih e)

/-- What stands in a pair of braces goes up to the first closing brace that it does not open. -/
theorem upToUnmatched_eq {inner ls back : List Lexeme} {close last : Lexeme}
    (hinner : braceDepth 0 inner = some 0) (hclose : close.text = "\x7d")
    (hlast : last.text = "\x7d") (h : inner ++ close :: back = ls ++ [last]) :
    upToUnmatched 0 ls = inner := by
  have hstop : ∀ {l : Lexeme}, l.text = "\x7d" → ∀ ms, upToUnmatched 0 (l :: ms) = [] := by
    intro l hl ms
    rw [upToUnmatched, hl]
    rfl
  have hup : upToUnmatched 0 (ls ++ [last]) = inner := by
    rw [← h, upToUnmatched_of_some hinner, hstop hclose, List.append_nil]
  cases hdepth : braceDepth 0 ls with
  | none => rwa [upToUnmatched_of_none hdepth] at hup
  | some e =>
    rw [upToUnmatched_of_some hdepth] at hup
    cases e with
    | zero => rwa [hstop hlast, List.append_nil, ← upToUnmatched_of_matched hdepth] at hup
    | succ e =>
      -- A brace that the last one closes would be opened in front of the close of the pair.
      have hmore : upToUnmatched (e + 1) [last] = [last] := by
        rw [upToUnmatched, hlast]
        rfl
      rw [hmore, ← h] at hup
      have hlength := congrArg List.length hup
      simp at hlength

/-! ## Rules -/

mutual

/-- How deep in braces a rule leads from depth `d`, with every phrase in it closed; `none` if that
depends on the choices made. -/
def Rule.depth (d : Nat) : Rule → Option Nat
  | .token text => depthBehind text d
  | .glued text => depthBehind text d
  | .name => some d
  | .except _ => some d
  | .literal => some d
  | .string => some d
  | .phrase _ => some d
  | .seq parts => seqDepth d parts
  | .choice parts => choiceDepth d parts
  | .many r => (r.depth d).filter (· == d)

def seqDepth (d : Nat) : List Rule → Option Nat
  | [] => some d
  | r :: rs => (r.depth d).bind (seqDepth · rs)

def choiceDepth (d : Nat) : List Rule → Option Nat
  | [] => none
  | [r] => r.depth d
  | r :: rs => (r.depth d).filter fun e => choiceDepth d rs == some e

end

/-- Every phrase closes the braces it opens. -/
theorem depth_rule (p : Phrase) : p.rule.depth 0 = some 0 := by
  cases p <;> decide +kernel

theorem depth_of_mem_choice {rs : List Rule} {r : Rule} {d e : Nat} (h : choiceDepth d rs = some e)
    (hr : r ∈ rs) : r.depth d = some e := by
  induction rs with
  | nil => cases hr
  | cons first rs ih =>
    cases rs with
    | nil => rwa [List.mem_singleton.mp hr]
    | cons second rs =>
      rw [choiceDepth] at h
      · obtain ⟨hfirst, hrest⟩ := Option.filter_eq_some_iff.mp h
        rcases List.mem_cons.mp hr with rfl | hr
        · exact hfirst
        · exact ih (beq_iff_eq.mp hrest) hr
      · exact List.cons_ne_nil _ _

/-! ## Syntax trees -/

/-- Only marks are braces. -/
def Lexeme.Plain (l : Lexeme) : Prop := l.text = "\x7b" ∨ l.text = "\x7d" → l.kind = .mark

theorem depthBehind_of_plain {l : Lexeme} (hl : l.Plain) (hkind : l.kind ≠ .mark) (d : Nat) :
    depthBehind l.text d = some d :=
  depthBehind_of_ne (fun h => hkind (hl (.inl h))) (fun h => hkind (hl (.inr h))) d

/-- Lexemes lead to the depth that the rule they stand for leads to. -/
theorem Conforms.braceDepth {r : Rule} {cs : List Syntax} (h : Conforms r cs)
    (hplain : ∀ l ∈ lexemesOf cs, l.Plain) {d e : Nat} (hr : r.depth d = some e) :
    braceDepth d (lexemesOf cs) = some e := by
  have hone : ∀ {l : Lexeme} {d e : Nat}, depthBehind l.text d = some e →
      Java.braceDepth d (lexemesOf [.leaf l]) = some e := by
    intro l d e hl
    rw [lexemesOf_leaf, lexemesOf_nil, Java.braceDepth, hl]
    rfl
  have hkind : ∀ {l : Lexeme} {d e : Nat}, (∀ m ∈ lexemesOf [.leaf l], m.Plain) → l.kind ≠ .mark →
      some d = some e → Java.braceDepth d (lexemesOf [.leaf l]) = some e := by
    intro l d e hl hne heq
    rw [← heq]
    exact hone (depthBehind_of_plain (hl l (by simp)) hne d)
  induction h generalizing d e with
  | token htext =>
    subst htext
    exact hone hr
  | glued htext =>
    subst htext
    exact hone hr
  | name hword => exact hkind hplain (by simp [hword]) hr
  | literal h => exact hkind hplain (by rcases h with h | h <;> simp [h]) hr
  | string h => exact hkind hplain (by simp [h]) hr
  | except => exact hr
  | @phrase p cs _ ih =>
    obtain rfl := Option.some.inj hr
    rw [lexemesOf_singleton, Syntax.lexemes] at hplain ⊢
    exact braceDepth_of_closed (ih hplain (depth_rule p)) d
  | seqNil => exact hr
  | seqCons _ _ ihead itail =>
    obtain ⟨mid, hmid, hrest⟩ := Option.bind_eq_some_iff.mp hr
    rw [lexemesOf_append] at hplain ⊢
    obtain ⟨hfront, hback⟩ := List.forall_mem_append.mp hplain
    rw [braceDepth_append, ihead hfront hmid, Option.bind_some]
    exact itail hback hrest
  | choice hmem _ ih => exact ih hplain (depth_of_mem_choice hr hmem)
  | manyNil r =>
    obtain ⟨-, heq⟩ := Option.filter_eq_some_iff.mp hr
    rw [beq_iff_eq.mp heq]
    rfl
  | manyCons _ _ ihead itail =>
    obtain ⟨hstep, heq⟩ := Option.filter_eq_some_iff.mp hr
    rw [lexemesOf_append] at hplain ⊢
    obtain ⟨hfront, hback⟩ := List.forall_mem_append.mp hplain
    obtain rfl := beq_iff_eq.mp heq
    rw [braceDepth_append, ihead hfront hstep, Option.bind_some]
    exact itail hback hr

/-- The children of a phrase close what they open. -/
theorem braceDepth_of_conforms {p : Phrase} {cs : List Syntax} (h : Conforms p.rule cs)
    (hplain : ∀ l ∈ lexemesOf cs, l.Plain) : braceDepth 0 (lexemesOf cs) = some 0 :=
  h.braceDepth hplain (depth_rule p)

/-! ## Lexemes of a source -/

/-- A brace in front of a text is a mark. -/
theorem kind_of_brace {c : Char} {s rest : List Char} {kind : LexemeKind}
    (hc : c = '\x7b' ∨ c = '\x7d') (h : lexeme (c :: s) = some (kind, rest)) : kind = .mark := by
  have hnumber : number (c :: s) = none := by
    cases hread : number (c :: s) with
    | none => rfl
    | some r =>
      have hnumeric := numeric_number hread
      rcases hc with rfl | rfl <;> cases hnumeric
  have hstart : isIdentifierStart c = false := by rcases hc with rfl | rfl <;> decide
  unfold lexeme at h
  split at h
  · next heq => cases heq
  · next heq => cases heq; rcases hc with hc | hc <;> cases hc
  · next heq => cases heq; rcases hc with hc | hc <;> cases hc
  · next heq => cases heq; rcases hc with hc | hc <;> cases hc
  · next heq =>
    cases heq
    rw [hstart, if_neg Bool.false_ne_true, hnumber] at h
    obtain ⟨r, -, hpair⟩ := Option.map_eq_some_iff.mp h
    cases hpair
    rfl

theorem plain_of_lexFrom {n : Nat} {before s : List Char} {ls : List Lexeme} {close : Space}
    (h : lexFrom n before s = some (ls, close)) : ∀ l ∈ ls, l.Plain := by
  induction ls generalizing n before s with
  | nil => exact nofun
  | cons l ls ih =>
    obtain ⟨n, kind, space, taken, rest, -, -, hlexeme, rfl, hmore⟩ := exists_of_lexFrom_cons h
    refine List.forall_mem_cons.mpr ⟨?_, ih hmore⟩
    have hchar : ∀ c : Char, String.ofList taken = String.ofList [c] →
        lexeme (c :: rest) = some (kind, rest) := by
      intro c htext
      rwa [String.ofList_inj.mp htext] at hlexeme
    exact fun htext => htext.elim (fun h => kind_of_brace (.inl rfl) (hchar _ h))
      fun h => kind_of_brace (.inr rfl) (hchar _ h)

theorem plain_of_lex {source : String} {ls : List Lexeme} {close : Space}
    (h : lex source = some (ls, close)) : ∀ l ∈ ls, l.Plain := by
  unfold lex at h
  split at h <;> exact plain_of_lexFrom h

end JavaMigration.Java
