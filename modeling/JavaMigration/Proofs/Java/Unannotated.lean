import Mathlib.Data.List.Basic
import JavaMigration.Proofs.Java.Takes
import JavaMigration.Proofs.Java.Variables
import JavaMigration.Proofs.Java.Words

/-!
# Sources without annotated variables

A variable has an annotation in front only if its source has an at-sign there. So no variable of a
source without at-signs has one (`unannotated_of_no_at`), and none of a source whose only at-sign
stands in front of a method without modifiers (`unannotated_of_one_method`).
-/

namespace JavaMigration.Java

open Text Source Rule

/-! ## Where annotations of variables are read -/

/-- A syntax tree of a variable declaration with an annotation in front. -/
def Syntax.IsMarked : Syntax → Prop
  | .node .vars (.node _ (.node .annot _ :: _) :: _) => True
  | _ => False

theorem leadingOf_eq_nil {resolver : Resolver} {modifiers : List Syntax}
    (hleading : ∀ s ∈ modifiers, s.Leading)
    (h : ∀ cs rest, modifiers ≠ .node .annot cs :: rest) :
    (leadingOf resolver (clearLead modifiers)).1 = [] := by
  cases modifiers with
  | nil => rfl
  | cons s rest =>
    have hnone : annotation? resolver s.clearLead = none := by
      cases s with
      | leaf l => rfl
      | node p cs =>
        have hp : p ≠ .annot := by
          rintro rfl
          exact h cs rest rfl
        cases p <;> first | rfl | exact absurd rfl hp
    rw [clearLead_cons (hleading s List.mem_cons_self), leadingOf, hnone]

theorem unannotated_of_lexemes {classpath : Classpath} {path source : String} {u : CompilationUnit}
    (h : parse? classpath path source = some u)
    (hnone : ∀ ls close, lex source = some (ls, close) → ∀ s : Syntax, s.In ls → ¬s.IsMarked) :
    Unannotated u.types := by
  obtain ⟨ls, close, hlex, hread⟩ := readFrom_of_parse? h
  intro d hd
  cases hread d hd with
  | vars resolver id lead hin hmodifiers _ =>
    refine leadingOf_eq_nil hmodifiers ?_
    rintro cs rest rfl
    exact hnone ls close hlex _ hin trivial

/-! ## The at-sign of an annotation -/

theorem modifiers_behind {s : Syntax} {rest : List Syntax}
    (h : Conforms (Phrase.rule .modifiers) (s :: rest)) : Conforms (Phrase.rule .modifiers) rest := by
  obtain ⟨parts, hparts, heq⟩ := Conforms.many_iff.mp h
  cases parts with
  | nil => cases heq
  | cons part parts =>
    have hone : ∃ t, part = [t] := by
      cases hparts part List.mem_cons_self with
      | choice hmem hpart =>
        simp only [List.mem_cons, List.not_mem_nil, or_false] at hmem
        rcases hmem with rfl | rfl | rfl | rfl | rfl | rfl | rfl | rfl | rfl | rfl | rfl | rfl | rfl |
          rfl | rfl <;> cases hpart <;> exact ⟨_, rfl⟩
    obtain ⟨t, rfl⟩ := hone
    cases heq
    exact Conforms.many_iff.mpr ⟨parts, fun part hpart => hparts part (.tail _ hpart), rfl⟩

/-- A declaration with an annotation in front, part by part. -/
theorem marked_eq {s : Syntax} (hvalid : s.Valid) (h : s.IsMarked) :
    ∃ annot modifiers type declarators close, Conforms (Phrase.rule .annot) annot ∧
      Conforms (Phrase.rule .modifiers) modifiers ∧ Conforms (Phrase.rule .typeRef) type ∧
      Conforms (Phrase.rule .declarators) declarators ∧ close.text = ";" ∧
      s.lexemes = lexemesOf annot ++ (lexemesOf modifiers ++ (lexemesOf type ++
        (lexemesOf declarators ++ [close]))) := by
  unfold Syntax.IsMarked at h
  split at h
  · next m annot modifiers rest =>
    have hvars : Conforms (seq [Phrase.modifiers, Phrase.typeRef, Phrase.declarators, ";"])
        (.node m (.node .annot annot :: modifiers) :: rest) := hvalid
    simp only [Conforms.seq_phrase_iff, Conforms.seq_token_iff, Conforms.seq_nil_iff] at hvars
    obtain ⟨ms, hms, _, ⟨type, htype, _, ⟨declarators, hdeclarators, _, ⟨close, hclose, _, rfl,
      rfl⟩, rfl⟩, rfl⟩, heq⟩ := hvars
    cases heq
    have hannot : Conforms (Phrase.rule .annot) annot := hms.valid _ List.mem_cons_self
    have hmodifiers := modifiers_behind hms
    refine ⟨annot, modifiers, type, declarators, close, hannot, hmodifiers, htype, hdeclarators,
      hclose, ?_⟩
    simp [Syntax.lexemes]
  · cases h

theorem exists_at_of_annot {annot : List Syntax} (h : Conforms (Phrase.rule .annot) annot) :
    ∃ mark rest, lexemesOf annot = mark :: rest ∧ mark.text = "@" := by
  rw [show Phrase.rule .annot = seq ["@", Phrase.qualified, optional Phrase.annotationArguments]
    from rfl, Conforms.seq_token_iff] at h
  obtain ⟨mark, hmark, rest, -, rfl⟩ := h
  exact ⟨mark, _, rfl, hmark⟩

theorem exists_lexFrom {source : String} {ls : List Lexeme} {close : Space}
    (h : lex source = some (ls, close)) :
    ∃ n before s, lexFrom n before s = some (ls, close) ∧ before ++ s = source.toList := by
  unfold lex at h
  split at h
  · next s heq => exact ⟨_, _, s, h, heq.symm⟩
  · exact ⟨_, _, _, h, rfl⟩

/-- Behind an at-sign that is an annotation's, the source is lexed as if it began there. -/
theorem lexFrom_behind_at {source : String} {front back : List Lexeme} {mark : Lexeme}
    {close : Space} (hmark : mark.text = "@")
    (h : lex source = some (front ++ mark :: back, close)) :
    ∃ n before rest, lexFrom n [] rest = some (back, close) ∧
      before ++ '@' :: rest = source.toList := by
  obtain ⟨n, before, s, hlex, hsource⟩ := exists_lexFrom h
  obtain ⟨n, rest, hrest, hprint⟩ := lexFrom_behind hlex
  refine ⟨n, (printLexemes front).toList ++ mark.lead.text.toList, rest, hrest, ?_⟩
  rw [← hsource, ← hprint, Lexeme.print, hmark]
  simp

/-- A variable that stands somewhere in a source with an annotation in front cuts the source at the
at-sign of that annotation. -/
theorem exists_at_of_marked {source : String} {ls : List Lexeme} {close : Space} {s : Syntax}
    (hlex : lex source = some (ls, close)) (hs : s.In ls) (hmarked : s.IsMarked) :
    ∃ n before rest mark back l₁ l₂ l₃ l₄ l₅, lexFrom n [] rest = some (back, close) ∧
      before ++ '@' :: rest = source.toList ∧
      Takes (Phrase.rule .annot) (mark :: back) l₁ ∧ Takes (Phrase.rule .modifiers) l₁ l₂ ∧
      Takes (Phrase.rule .typeRef) l₂ l₃ ∧ Takes (Phrase.rule .declarators) l₃ l₄ ∧
      Takes (.token ";") l₄ l₅ := by
  obtain ⟨annot, modifiers, type, declarators, last, hannot, hmodifiers, htype, hdeclarators, hlast,
    hlexemes⟩ := marked_eq hs.1 hmarked
  obtain ⟨mark, name, hname, hmark⟩ := exists_at_of_annot hannot
  obtain ⟨front, behind, hls⟩ := hs.2
  let l₄ := last :: behind
  let l₃ := lexemesOf declarators ++ l₄
  let l₂ := lexemesOf type ++ l₃
  let l₁ := lexemesOf modifiers ++ l₂
  have hsplit : ls = front ++ mark :: (name ++ l₁) := by
    rw [← hls, hlexemes, hname]
    simp [l₁, l₂, l₃, l₄]
  rw [hsplit] at hlex
  obtain ⟨n, before, rest, hrest, hsource⟩ := lexFrom_behind_at hmark hlex
  have htakes : Takes (Phrase.rule .annot) (mark :: (name ++ l₁)) l₁ := by
    rw [← List.cons_append, ← hname]
    exact .of_conforms hannot l₁
  exact ⟨n, before, rest, mark, name ++ l₁, l₁, l₂, l₃, l₄, behind, hrest, hsource, htakes,
    .of_conforms hmodifiers l₂, .of_conforms htype l₃, .of_conforms hdeclarators l₄,
    Takes.token_cons_iff.mpr ⟨hlast, rfl⟩⟩

/-- Without at-signs no variable has an annotation in front. -/
theorem unannotated_of_no_at {classpath : Classpath} {path source : String} {u : CompilationUnit}
    (h : parse? classpath path source = some u) (hfree : '@' ∉ source.toList) :
    Unannotated u.types := by
  refine unannotated_of_lexemes h fun ls close hlex s hs hmarked => ?_
  obtain ⟨n, before, rest, mark, back, l₁, l₂, l₃, l₄, l₅, -, hsource, -⟩ :=
    exists_at_of_marked hlex hs hmarked
  exact hfree (hsource ▸ by simp)

/-- If the only at-sign stands in front of a method without modifiers, no variable has an annotation
in front. -/
theorem unannotated_of_one_method {classpath : Classpath} {path source : String}
    {u : CompilationUnit} {front name method back : List Char}
    (h : parse? classpath path source = some u) (hname : isIdentifier name)
    (hmethod : isIdentifier method) (hfront : '@' ∉ front) (hback : '@' ∉ back)
    (hsource : source.toList =
      front ++ '@' :: (name ++ '\n' :: ("void".toList ++ ' ' :: (method ++ '(' :: back)))) :
    Unannotated u.types := by
  refine unannotated_of_lexemes h fun ls close hlex s hs hmarked => ?_
  obtain ⟨n, before, rest, mark, back', l₁, l₂, l₃, l₄, l₅, hrest, hcut, hannot, hmodifiers, htype,
    hdeclarators, hclose⟩ := exists_at_of_marked hlex hs hmarked
  have hfree : '@' ∉ name ++ '\n' :: ("void".toList ++ ' ' :: (method ++ '(' :: back)) := by
    have hword : ∀ {w : List Char}, isIdentifier w → '@' ∉ w := fun hw =>
      not_mem_of_isIdentifier hw (by decide) (by decide)
    simp [hword hname, hword hmethod, hback]
  rw [hsource] at hcut
  obtain ⟨-, -, rfl⟩ := (List.append_cons_inj_of_notMem hfront hfree).mp hcut.symm
  obtain ⟨a, n, ls₁, rfl, -, -, hvoid⟩ := lexFrom_word [] hrest nofun hname (by simp; decide)
  obtain ⟨v, n, ls₂, rfl, -, hv, hnamed⟩ := lexFrom_word ['\n'] (w := "void".toList) hvoid (by simp)
    (by decide) (by simp; decide)
  obtain ⟨t, n, ls₃, rfl, -, ht, hopen⟩ :=
    lexFrom_word [' '] hnamed (by simp) hmethod (by simp; decide)
  obtain ⟨p, n, ls₄, rfl, -, hp, -⟩ := lexFrom_mark [] hopen nofun (by simp)
  have hmark : t.text ∉ ["@", "<", ".", "["] := by
    have hne : ∀ c : Char, isIdentifierStart c = false → t.text ≠ String.ofList [c] := fun c hc => by
      rw [ht]
      exact ofList_ne_mark hmethod hc
    simp only [List.mem_cons, List.not_mem_nil, or_false, not_or]
    exact ⟨hne '@' (by decide), hne '<' (by decide), hne '.' (by decide), hne '[' (by decide)⟩
  exact not_field_of_method hv hp hmark hannot hmodifiers htype hdeclarators hclose

end JavaMigration.Java
