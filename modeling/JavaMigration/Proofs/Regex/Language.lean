import Mathlib.Data.List.Basic
import JavaMigration.Regex.Basic

/-!
# The texts of a search pattern

What a pattern accepts is spelled out along its structure. Assertions and the bounds of a repetition
are left out, so more may be spelled than is accepted.
-/

namespace JavaMigration.Regex

/-- A text that a pattern can stand for, if nothing is asserted and nothing is counted. -/
inductive Spells : Regex → List Nat → Prop
  | empty : Spells empty []
  | symbol {set : CharSet} {n : Nat} (h : set.contains n) : Spells (symbol set) [n]
  | assertion (a : Assertion) : Spells (assertion a) []
  | cat {a b : Regex} {s t : List Nat} (ha : Spells a s) (hb : Spells b t) : Spells (cat a b) (s ++ t)
  | left {a b : Regex} {s : List Nat} (h : Spells a s) : Spells (alt a b) s
  | right {a b : Regex} {s : List Nat} (h : Spells b s) : Spells (alt a b) s
  | none (a : Regex) (least : Nat) (most : Option Nat) : Spells (times a least most) []
  | more {a : Regex} {least least' : Nat} {most most' : Option Nat} {s t : List Nat} (h : Spells a s)
      (hmore : Spells (times a least' most') t) : Spells (times a least most) (s ++ t)

theorem spells_cat {a b : Regex} {t : List Nat} :
    Spells (cat a b) t ↔ ∃ u v, t = u ++ v ∧ Spells a u ∧ Spells b v := by
  constructor
  · rintro (_ | _ | _ | ⟨ha, hb⟩)
    exact ⟨_, _, rfl, ha, hb⟩
  · rintro ⟨u, v, rfl, ha, hb⟩
    exact .cat ha hb

theorem spells_nil_of_acceptsEmpty {before after : Option Nat} {r : Regex}
    (h : r.acceptsEmpty before after) : Spells r [] := by
  induction r with
  | empty => exact .empty
  | symbol set => cases h
  | assertion a => exact .assertion a
  | cat a b iha ihb =>
    obtain ⟨ha, hb⟩ := Bool.and_eq_true_iff.mp h
    exact .cat (iha ha) (ihb hb)
  | alt a b iha ihb =>
    rcases Bool.or_eq_true_iff.mp h with ha | hb
    · exact .left (iha ha)
    · exact .right (ihb hb)
  | times a least most => exact .none a least most

/-- What follows the first symbol of a pattern is spelled by one of its derivatives. -/
theorem spells_of_mem_derive {before : Option Nat} {n : Nat} {r : Regex} {rest rs : List Regex}
    {s : List Nat} (h : rs ∈ r.derive before n rest) (hs : Spells (catAll rs) s) :
    Spells (cat r (catAll rest)) (n :: s) := by
  induction r generalizing rest with
  | empty => cases h
  | symbol set =>
    unfold derive at h
    split at h
    · next hset =>
      obtain rfl := List.mem_singleton.mp h
      exact .cat (.symbol hset) hs
    · cases h
  | assertion a => cases h
  | cat a b iha ihb =>
    rcases List.mem_append.mp h with h | h
    · obtain ⟨u, v, huv, ha, hbrest⟩ := spells_cat.mp (iha h)
      obtain ⟨v, w, rfl, hb, hrest⟩ := spells_cat.mp hbrest
      rw [huv, ← List.append_assoc]
      exact .cat (.cat ha hb) hrest
    · split at h
      · next hempty =>
        obtain ⟨u, v, huv, hb, hrest⟩ := spells_cat.mp (ihb h)
        rw [huv]
        exact .cat (.cat (spells_nil_of_acceptsEmpty hempty) hb) hrest
      · cases h
  | alt a b iha ihb =>
    rcases List.mem_append.mp h with h | h
    · obtain ⟨u, v, huv, ha, hrest⟩ := spells_cat.mp (iha h)
      rw [huv]
      exact .cat (.left ha) hrest
    · obtain ⟨u, v, huv, hb, hrest⟩ := spells_cat.mp (ihb h)
      rw [huv]
      exact .cat (.right hb) hrest
  | times a least most ih =>
    unfold derive at h
    split at h
    · cases h
    · obtain ⟨u, v, huv, ha, hmore⟩ := spells_cat.mp (ih h)
      obtain ⟨v, w, rfl, htimes, hrest⟩ := spells_cat.mp hmore
      rw [huv, ← List.append_assoc]
      exact .cat (.more ha htimes) hrest

theorem spells_of_mem_deriveAll {before : Option Nat} {n : Nat} {rs rs' : List Regex} {s : List Nat}
    (h : rs' ∈ deriveAll before n rs) (hs : Spells (catAll rs') s) : Spells (catAll rs) (n :: s) := by
  induction rs with
  | nil => cases h
  | cons r rs ih =>
    rcases List.mem_append.mp h with h | h
    · exact spells_of_mem_derive h hs
    · split at h
      · next hempty => exact .cat (spells_nil_of_acceptsEmpty hempty) (ih h)
      · cases h

theorem spells_of_acceptsFrom {before : Option Nat} {states : List (List Regex)} {text : List Nat}
    (h : acceptsFrom before states text) : ∃ rs ∈ states, Spells (catAll rs) text := by
  induction text generalizing before states with
  | nil =>
    obtain ⟨rs, hrs, hempty⟩ := List.any_eq_true.mp h
    refine ⟨rs, hrs, ?_⟩
    clear h hrs
    induction rs with
    | nil => exact .empty
    | cons r rs ih =>
      obtain ⟨hr, hrest⟩ := List.forall_mem_cons.mp (List.all_eq_true.mp hempty)
      exact .cat (spells_nil_of_acceptsEmpty hr) (ih (List.all_eq_true.mpr hrest))
  | cons n text ih =>
    obtain ⟨rs', hrs', htext⟩ := ih h
    obtain ⟨rs, hrs, hderived⟩ := List.mem_flatMap.mp (List.mem_eraseDups.mp hrs')
    exact ⟨rs, hrs, spells_of_mem_deriveAll hderived htext⟩

/-- A pattern only accepts what it spells. -/
theorem spells_of_accepts {r : Regex} {text : List Nat} (h : r.accepts text) : Spells r text := by
  obtain ⟨rs, hrs, htext⟩ := spells_of_acceptsFrom h
  obtain rfl := List.mem_singleton.mp hrs
  obtain ⟨u, v, rfl, hr, hempty⟩ := spells_cat.mp htext
  cases hempty
  rwa [List.append_nil]

/-! ## Fixed texts -/

theorem spells_empty {t : List Nat} : Spells empty t ↔ t = [] := by
  constructor
  · rintro ⟨⟩
    rfl
  · rintro rfl
    exact .empty

theorem spells_symbol_single {n : Nat} {t : List Nat} :
    Spells (symbol (.single n)) t ↔ t = [n] := by
  constructor
  · rintro (_ | ⟨hmember⟩)
    simp only [CharSet.single, CharSet.contains, Bool.and_eq_true, decide_eq_true_eq] at hmember
    rw [Nat.le_antisymm hmember.2 hmember.1]
  · rintro rfl
    exact .symbol (by simp [CharSet.single, CharSet.contains])

/-- The pattern of a text spells that text only. -/
theorem spells_literal {ns t : List Nat} : Spells (literal ns) t ↔ t = ns := by
  induction ns generalizing t with
  | nil => exact spells_empty
  | cons n ns ih =>
    show Spells (cat (symbol (.single n)) (literal ns)) t ↔ _
    rw [spells_cat]
    constructor
    · rintro ⟨u, v, rfl, hu, hv⟩
      rw [spells_symbol_single.mp hu, ih.mp hv]
      rfl
    · rintro rfl
      exact ⟨[n], ns, rfl, spells_symbol_single.mpr rfl, ih.mpr rfl⟩

/-- Texts one after the other spell their concatenation only. -/
theorem spells_catAll_literals {texts : List (List Nat)} {t : List Nat} :
    Spells (catAll (texts.map literal)) t ↔ t = texts.flatten := by
  induction texts generalizing t with
  | nil => exact spells_empty
  | cons ns texts ih =>
    show Spells (cat (literal ns) (catAll (texts.map literal))) t ↔ _
    rw [spells_cat]
    constructor
    · rintro ⟨u, v, rfl, hu, hv⟩
      rw [spells_literal.mp hu, ih.mp hv, List.flatten_cons]
    · rintro rfl
      exact ⟨ns, texts.flatten, rfl, spells_literal.mpr rfl, ih.mpr rfl⟩

end JavaMigration.Regex
