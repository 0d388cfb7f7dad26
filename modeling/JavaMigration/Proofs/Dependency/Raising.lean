import Mathlib.Data.List.Nodup
import JavaMigration.Dependency.Upgrade
import JavaMigration.Proofs.Dependency.Pom
import JavaMigration.Proofs.Dependency.VersionOrder

/-!
# Raising versions

The spots found are put in order, and the older ones are written over from the last to the
first. In a well-formed file this is writing the target at the places found that are older.
-/

namespace JavaMigration.Dependency

open Text Markup

/-! ## Spots in order -/

section Order

variable {v w : VersionSpot} {spots : List VersionSpot}

theorem mem_of_mem_insertSpot (h : w ∈ insertSpot v spots) : w = v ∨ w ∈ spots := by
  induction spots with
  | nil => exact .inl (List.mem_singleton.mp h)
  | cons x spots ih =>
    rw [insertSpot] at h
    split at h
    · exact List.mem_cons.mp h
    · split at h
      · exact .inr h
      · rcases List.mem_cons.mp h with rfl | h
        · exact .inr List.mem_cons_self
        · exact (ih h).imp_right (List.mem_cons_of_mem x)

theorem pairwise_insertSpot (h : spots.Pairwise (·.start < ·.start)) :
    (insertSpot v spots).Pairwise (·.start < ·.start) := by
  induction spots with
  | nil => exact List.pairwise_singleton _ v
  | cons x spots ih =>
    obtain ⟨hx, hspots⟩ := List.pairwise_cons.mp h
    rw [insertSpot]
    split
    · next hlt =>
      refine List.pairwise_cons.mpr ⟨fun y hy => ?_, h⟩
      rcases List.mem_cons.mp hy with rfl | hy
      · exact hlt
      · exact Nat.lt_trans hlt (hx y hy)
    · split
      · exact h
      · next hlt hne =>
        refine List.pairwise_cons.mpr ⟨fun y hy => ?_, ih hspots⟩
        rcases mem_of_mem_insertSpot hy with rfl | hy
        · omega
        · exact hx y hy

theorem mem_starts_insertSpot {s : Nat} :
    s ∈ (insertSpot v spots).map (·.start) ↔ s = v.start ∨ s ∈ spots.map (·.start) := by
  induction spots with
  | nil => simp [insertSpot]
  | cons x spots ih =>
    rw [insertSpot]
    split
    · simp
    · split
      · next heq => simp [heq]
      · rw [List.map_cons, List.mem_cons, ih, List.map_cons, List.mem_cons, or_left_comm]

/-- Spots put into order one after the other are in order, are all from among them, and begin
wherever one of them does. -/
theorem foldl_insertSpot (vs : List VersionSpot) (h : spots.Pairwise (·.start < ·.start)) :
    (vs.foldl (fun found v => insertSpot v found) spots).Pairwise (·.start < ·.start) ∧
      (∀ w ∈ vs.foldl (fun found v => insertSpot v found) spots, w ∈ spots ∨ w ∈ vs) ∧
      ∀ s, s ∈ spots.map (·.start) ∨ s ∈ vs.map (·.start) →
        s ∈ (vs.foldl (fun found v => insertSpot v found) spots).map (·.start) := by
  induction vs generalizing spots with
  | nil => exact ⟨h, fun w hw => .inl hw, fun s hs => hs.resolve_right List.not_mem_nil⟩
  | cons v vs ih =>
    obtain ⟨hsorted, hfrom, hstarts⟩ := ih (pairwise_insertSpot (v := v) h)
    refine ⟨hsorted, fun w hw => ?_, fun s hs => hstarts s ?_⟩
    · rcases hfrom w hw with hw | hw
      · rcases mem_of_mem_insertSpot hw with rfl | hw
        · exact .inr List.mem_cons_self
        · exact .inl hw
      · exact .inr (List.mem_cons_of_mem v hw)
    · rw [List.map_cons, List.mem_cons] at hs
      rw [mem_starts_insertSpot]
      tauto

end Order

/-! ## Writing over -/

/-- Whether a version is older than a target. -/
def VersionSpot.isOlder (target : String) (v : VersionSpot) : Bool :=
  compareVersions (String.ofList v.version) target == .lt

def Place.isOlder (target : String) (p : Place) : Bool := p.spot.isOlder target

theorem Place.isOlder_eq (p : Place) (target : String) :
    p.isOlder target = (compareVersions (String.ofList p.word) target == .lt) := rfl

/-- The positions at which some spots have an older version than the target. -/
def olderAt (target : String) (spots : List VersionSpot) (i : Nat) : Bool :=
  spots.any fun v => v.start == i && v.isOlder target

/-- A text that is given by the positions at which `new` is written, where writing it at one more
position, in front of all the others, puts it in the place of the version there. -/
def Writes (new : List Char) (text : (Nat → Bool) → List Char) (v : VersionSpot) : Prop :=
  ∀ ⦃chosen chosen' : Nat → Bool⦄, (∀ i ≤ v.start, chosen i = false) → chosen' v.start = true →
    (∀ i, i ≠ v.start → chosen' i = chosen i) →
      ∃ front back, front.length = v.start ∧ text chosen = front ++ (v.version ++ back) ∧
        text chosen' = front ++ (new ++ back)

/-- Raising spots in order is writing the target at the positions of the older ones. -/
theorem raiseSpots_eq {target : String} {text : (Nat → Bool) → List Char} {spots : List VersionSpot}
    (hwrites : ∀ v ∈ spots, Writes target.toList text v)
    (hsorted : spots.Pairwise (·.start < ·.start)) :
    raiseSpots target spots (text fun _ => false) = text (olderAt target spots) := by
  induction spots with
  | nil => rfl
  | cons v spots ih =>
    obtain ⟨hv, hrest⟩ := List.pairwise_cons.mp hsorted
    have hraised := ih (fun u hu => hwrites u (List.mem_cons_of_mem _ hu)) hrest
    rw [raiseSpots, List.foldr_cons, ← raiseSpots, hraised, raiseSpot]
    cases holder : v.isOlder target with
    | false =>
      have hsame : olderAt target (v :: spots) = olderAt target spots := by
        funext i
        rw [olderAt, List.any_cons, holder, Bool.and_false, Bool.false_or]
        rfl
      rw [VersionSpot.isOlder] at holder
      rw [holder, if_neg Bool.false_ne_true, hsame]
    | true =>
      -- the others lie behind, so nothing in front of the place is changed yet
      have hbefore : ∀ i ≤ v.start, olderAt target spots i = false := by
        intro i hi
        rw [olderAt, List.any_eq_false]
        intro u hu hchosen
        rw [Bool.and_eq_true, beq_iff_eq] at hchosen
        have hlt : v.start < u.start := hv u hu
        omega
      have hat : olderAt target (v :: spots) v.start = true := by
        rw [olderAt, List.any_cons, holder, beq_self_eq_true]
        rfl
      have hother : ∀ i, i ≠ v.start → olderAt target (v :: spots) i = olderAt target spots i := by
        intro i hi
        rw [olderAt, List.any_cons, beq_eq_false_iff_ne.mpr (Ne.symm hi), Bool.false_and,
          Bool.false_or]
        rfl
      obtain ⟨front, back, hfront, hold, hnew⟩ :=
        hwrites v List.mem_cons_self hbefore hat hother
      have hend : v.start + v.version.length = (front ++ v.version).length := by
        rw [List.length_append, hfront]
      rw [VersionSpot.isOlder] at holder
      rw [holder, if_pos rfl, hend, ← hfront, hold, hnew, List.take_left, ← List.append_assoc front,
        List.drop_left, List.append_assoc]

namespace Pom

variable {pom : Pom}

/-- A place is told by its beginning. -/
theorem start_inj {p q : Place} (hp : p ∈ pom.places) (hq : q ∈ pom.places)
    (h : p.start = q.start) : p = q := by
  have hnodup : (pom.places.map (·.start)).Nodup :=
    List.pairwise_map.mpr ((pairwise_places _ _ _).imp Nat.ne_of_lt)
  exact List.inj_on_of_nodup_map hnodup hp hq h

theorem writes_print {p : Place} (new : List Char) (hp : p ∈ pom.places) :
    Writes new (fun chosen => (pom.write new chosen).print) p.spot := by
  intro chosen chosen' hbefore hat hother
  obtain ⟨front, back, hfront, hold, hnew⟩ := exists_write_place new hp hbefore hat hother
  refine ⟨pom.front ++ front, back, ?_, ?_, ?_⟩
  · rw [List.length_append]
    exact hfront
  · simp only [print, write, hold, List.append_assoc, Place.spot]
  · simp only [print, write, hnew, List.append_assoc]

theorem raiseSpots_print {target : String} {spots : List VersionSpot}
    (hplaces : ∀ v ∈ spots, ∃ p ∈ pom.places, p.spot = v)
    (hsorted : spots.Pairwise (·.start < ·.start)) :
    raiseSpots target spots pom.print =
      (pom.write target.toList (olderAt target spots)).print := by
  have hwrites : ∀ v ∈ spots,
      Writes target.toList (fun chosen => (pom.write target.toList chosen).print) v := by
    intro v hv
    obtain ⟨p, hp, rfl⟩ := hplaces v hv
    exact writes_print _ hp
  have hnone : pom.write target.toList (fun _ => false) = pom := by rw [write, write_none]
  have hraised := raiseSpots_eq hwrites hsorted
  rwa [hnone] at hraised

/-! ## Upgrading -/

variable {group artifact : List Char}

theorem places_of_mem_dependencies {n : Nat} {e : Element} (hpom : pom.isWellFormed)
    (he : (n, e) ∈ pom.dependencies) {p : Place} (hp : p ∈ e.places n) : p ∈ pom.places := by
  rw [isWellFormed, Bool.and_eq_true] at hpom
  exact (of_mem_dependencies none hpom.2 he).2.2.2.2 p hp

theorem mem_candidates_iff {p : Place} :
    p ∈ pom.candidates group artifact ↔ ∃ n e, (n, e) ∈ pom.dependencies ∧
      e.mentions group artifact ∧ (e.places n).find? (·.name == versionName) = some p := by
  simp only [candidates, List.mem_filterMap, Prod.exists, Option.ite_none_right_eq_some]

theorem found_subset (hpom : pom.isWellFormed) : pom.found group artifact ⊆ pom.places := by
  intro p hp
  obtain ⟨v, hv, hdeciding⟩ := List.mem_filterMap.mp hp
  obtain ⟨n, e, he, -, hfirst⟩ := mem_candidates_iff.mp hv
  rw [deciding?] at hdeciding
  split at hdeciding
  · exact List.mem_of_find?_eq_some hdeciding
  · obtain rfl := Option.some.inj hdeciding
    exact places_of_mem_dependencies hpom he (List.mem_of_find?_eq_some hfirst)

/-- Whether there is an older version among what is found that begins at a position. -/
def isRaised (group artifact : List Char) (target : String) (pom : Pom) (s : Nat) : Bool :=
  (pom.found group artifact).any fun p => p.start == s && p.isOlder target

theorem isRaised_iff {target : String} (hpom : pom.isWellFormed) {p : Place}
    (hp : p ∈ pom.places) :
    pom.isRaised group artifact target p.start ↔
      p ∈ pom.found group artifact ∧ p.isOlder target := by
  simp only [isRaised, List.any_eq_true, Bool.and_eq_true, beq_iff_eq]
  constructor
  · rintro ⟨q, hq, hstart, holder⟩
    obtain rfl := start_inj (found_subset hpom hq) hp hstart
    exact ⟨hq, holder⟩
  · rintro ⟨hfound, holder⟩
    exact ⟨p, hfound, rfl, holder⟩

theorem raiseSpots_mavenSpots {target : String} (hpom : pom.isWellFormed) (hgroup : '<' ∉ group)
    (hartifact : '<' ∉ artifact) :
    raiseSpots target (mavenSpots group artifact pom.print) pom.print =
      (pom.write target.toList (pom.isRaised group artifact target)).print := by
  obtain ⟨hsorted, hfrom, hstarts⟩ := foldl_insertSpot ((pom.found group artifact).map Place.spot)
    List.Pairwise.nil
  rw [← mavenSpots_print hpom hgroup hartifact] at hsorted hfrom hstarts
  have hspots : ∀ v ∈ mavenSpots group artifact pom.print,
      ∃ p ∈ pom.found group artifact, p.spot = v := fun v hv =>
    List.mem_map.mp ((hfrom v hv).resolve_left List.not_mem_nil)
  have hsame : ∀ p ∈ pom.places, ((mavenSpots group artifact pom.print).any fun v =>
      v.start == p.start && v.isOlder target) = pom.isRaised group artifact target p.start := by
    intro p hp
    rw [Bool.eq_iff_iff, isRaised_iff hpom hp, List.any_eq_true]
    constructor
    · rintro ⟨v, hv, hchosen⟩
      rw [Bool.and_eq_true, beq_iff_eq] at hchosen
      obtain ⟨q, hq, rfl⟩ := hspots v hv
      obtain rfl := start_inj (found_subset hpom hq) hp hchosen.1
      exact ⟨hq, hchosen.2⟩
    · rintro ⟨hfound, holder⟩
      have hstart : p.start ∈ ((pom.found group artifact).map Place.spot).map (·.start) :=
        List.mem_map.mpr ⟨p.spot, List.mem_map_of_mem hfound, rfl⟩
      obtain ⟨v, hv, hbegin⟩ := List.mem_map.mp (hstarts p.start (.inr hstart))
      obtain ⟨q, hq, rfl⟩ := hspots v hv
      obtain rfl := start_inj (found_subset hpom hq) hp hbegin
      exact ⟨q.spot, hv, by rw [beq_iff_eq.mpr hbegin, Bool.true_and]; exact holder⟩
  rw [raiseSpots_print (fun v hv => (hspots v hv).imp fun p hp => ⟨found_subset hpom hp.1, hp.2⟩)
    hsorted, write_congr fun p hp _ => hsame p hp]

theorem upgradeManifest_print {u : Upgrade} {path target : String} (hpom : pom.isWellFormed)
    (hgroup : '<' ∉ u.group.toList) (hartifact : '<' ∉ u.artifact.toList)
    (hpath : File.fileName? path = some "pom.xml") (htarget : u.target? = some target) :
    u.upgradeManifest path (String.ofList pom.print) =
      some (String.ofList (pom.write target.toList
        (pom.isRaised u.group.toList u.artifact.toList target)).print) := by
  rw [Upgrade.upgradeManifest, htarget, Option.map_some, String.toList_ofList, Upgrade.spots, hpath,
    if_pos (by decide), raiseSpots_mavenSpots hpom hgroup hartifact]

end Pom

end JavaMigration.Dependency
