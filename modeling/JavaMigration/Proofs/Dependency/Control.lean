import JavaMigration.Proofs.Dependency.Raising

/-!
# Versions that control a dependency

An upgrade is meant for the versions that control a dependency: those of the elements with its
coordinates, and the properties that these versions name. The searches find them, and may find
others. What an upgrade writes to, and that it leaves a file with newer versions alone, holds as
far as what is found is what controls the dependency.
-/

namespace JavaMigration.Dependency

open Text Markup

namespace Pom

variable {pom : Pom} {group artifact : List Char}

/-- The place of the first property of a name. -/
def property? (name : List Char) (pom : Pom) : Option Place :=
  pom.places.find? fun p => p.name == name && p.parent.any (·.name == propertiesName)

/-- Whether a place holds a version of a dependency, or a property that such a version names. -/
def controls (group artifact : List Char) (pom : Pom) (p : Place) : Bool :=
  (pom.versions group artifact).contains p ||
    (p.parent.any (·.name == propertiesName) &&
      (pom.versions group artifact).any fun v => propertyName? v.word == some p.name)

/-- What a version stands for, if the properties it names are followed to the end. -/
inductive StandsFor (pom : Pom) : List Char → List Char → Prop
  | literal {word : List Char} : propertyName? word = none → StandsFor pom word word
  | property {word name value version : List Char} : propertyName? word = some name →
      (pom.property? name).map (·.word) = some value → StandsFor pom value version →
      StandsFor pom word version

/-! ## Small files -/

/-- An element with one word. -/
def leaf (name word : String) (rest : Markup) : Markup :=
  element name.toList [] word.toList nil [] rest

/-- An element with other elements in it. -/
def branch (name : String) (children rest : Markup) : Markup :=
  element name.toList [] [] children [] rest

/-- A dependency of which the version is a property. -/
def viaProperty (properties : Markup) : Pom where
  front := []
  markup := branch "project" (branch "properties" properties (branch "dependencies"
    (branch "dependency" (leaf "groupId" "g" (leaf "artifactId" "a"
      (leaf "version" "$\x7bp\x7d" nil))) nil) nil)) nil

/-- A dependency that excludes another one. -/
def excluding : Pom where
  front := []
  markup := branch "project" (branch "dependencies" (branch "dependency"
    (leaf "groupId" "x" (leaf "artifactId" "y" (leaf "version" "1" (branch "exclusions"
      (branch "exclusion" (leaf "groupId" "g" (leaf "artifactId" "a" nil)) nil) nil)))) nil) nil) nil

def toFour : Upgrade := ⟨"g", "a", .exact "4", ["4"]⟩

/-! ## What an upgrade writes -/

theorem word_ne_of_isOlder {p : Place} {target : String} (h : p.isOlder target) :
    p.word ≠ target.toList := by
  intro hsame
  rw [Place.isOlder_eq, hsame, String.ofList_toList, compareVersions_self] at h
  cases h

section Upgrade

variable {u : Upgrade} {path target : String} (hpom : pom.isWellFormed)
  (hgroup : '<' ∉ u.group.toList) (hartifact : '<' ∉ u.artifact.toList)
  (hword : '<' ∉ target.toList) (hpath : File.fileName? path = some "pom.xml")
  (htarget : u.target? = some target)

include hpom hgroup hartifact hword hpath htarget

/-- An upgrade gives the file with the target at some places exactly if those are the ones it
raises, where it makes a difference. -/
theorem upgradeManifest_eq_write_iff (chosen : Nat → Bool) :
    u.upgradeManifest path (String.ofList pom.print) =
        some (String.ofList (pom.write target.toList chosen).print) ↔
      ∀ p ∈ pom.places, p.word ≠ target.toList →
        pom.isRaised u.group.toList u.artifact.toList target p.start = chosen p.start := by
  rw [upgradeManifest_print hpom hgroup hartifact hpath htarget, Option.some_inj,
    String.ofList_inj]
  constructor
  · intro h p hp hne
    rw [isWellFormed, Bool.and_eq_true] at hpom
    rw [print, print, write, write] at h
    have hnil : AtTag [] := rfl
    exact (chosen_of_print_eq hword hpom.2 hnil hnil
      (congrArg (· ++ []) (List.append_cancel_left h))).2 p hp hne
  · intro h
    rw [write_congr h]

/-- An upgrade changes nothing exactly if nothing that is found is older. -/
theorem upgradeManifest_eq_self_iff :
    u.upgradeManifest path (String.ofList pom.print) = some (String.ofList pom.print) ↔
      ∀ p ∈ pom.found u.group.toList u.artifact.toList, p.isOlder target = false := by
  have hnone : pom.write target.toList (fun _ => false) = pom := by
    rw [write, write_none]
  have hsame := upgradeManifest_eq_write_iff hpom hgroup hartifact hword hpath htarget
    fun _ => false
  rw [hnone] at hsame
  rw [hsame]
  constructor
  · intro h p hp
    by_contra holder
    rw [Bool.not_eq_false] at holder
    have hplace := found_subset hpom hp
    have hraised := (isRaised_iff hpom hplace).mpr ⟨hp, holder⟩
    rw [h p hplace (word_ne_of_isOlder holder)] at hraised
    cases hraised
  · intro h p hp _
    rw [Bool.eq_false_iff, ne_eq, isRaised_iff hpom hp]
    rintro ⟨hfound, holder⟩
    rw [h p hfound] at holder
    cases holder

end Upgrade

/-- An upgrade changes nothing but versions of the dependency and properties that they name
exactly if all that is older of what is found is among these. -/
theorem writes_only_controlling_iff {u : Upgrade} {path target : String}
    (hpom : pom.isWellFormed) (hgroup : '<' ∉ u.group.toList) (hartifact : '<' ∉ u.artifact.toList)
    (hword : '<' ∉ target.toList) (hpath : File.fileName? path = some "pom.xml")
    (htarget : u.target? = some target) :
    (∃ chosen : Nat → Bool,
        (∀ p ∈ pom.places, chosen p.start → pom.controls u.group.toList u.artifact.toList p) ∧
        u.upgradeManifest path (String.ofList pom.print) =
          some (String.ofList (pom.write target.toList chosen).print)) ↔
      ∀ p ∈ pom.found u.group.toList u.artifact.toList, p.isOlder target →
        pom.controls u.group.toList u.artifact.toList p := by
  have hwrites := upgradeManifest_eq_write_iff hpom hgroup hartifact hword hpath htarget
  constructor
  · rintro ⟨chosen, hcontrols, h⟩ p hp holder
    have hplace := found_subset hpom hp
    have hraised := (isRaised_iff hpom hplace).mpr ⟨hp, holder⟩
    rw [(hwrites chosen).mp h p hplace (word_ne_of_isOlder holder)] at hraised
    exact hcontrols p hplace hraised
  · intro h
    refine ⟨_, fun p hp hraised => ?_, (hwrites _).mpr fun _ _ _ => rfl⟩
    obtain ⟨hfound, holder⟩ := (isRaised_iff hpom hp).mp hraised
    exact h p hfound holder

/-- The property of a version is raised and nothing else. -/
theorem property_is_raised :
    let pom := viaProperty (leaf "p" "1" nil)
    pom.isWellFormed ∧ '<' ∉ toFour.group.toList ∧ '<' ∉ toFour.artifact.toList ∧
      '<' ∉ "4".toList ∧ File.fileName? "pom.xml" = some "pom.xml" ∧ toFour.target? = some "4" ∧
      ∃ chosen : Nat → Bool,
        (∀ p ∈ pom.places, chosen p.start → pom.controls "g".toList "a".toList p) ∧
        toFour.upgradeManifest "pom.xml" (String.ofList pom.print) =
          some (String.ofList (pom.write "4".toList chosen).print) := by
  refine ⟨by decide, by decide, by decide, by decide, by decide, by decide, ?_⟩
  exact (@writes_only_controlling_iff (viaProperty (leaf "p" "1" nil)) toFour "pom.xml" "4"
    (by decide) (by decide) (by decide) (by decide) (by decide) (by decide)).mpr (by decide)

/-- The version of another dependency is raised that only excludes the dependency. -/
theorem excluding_version_is_raised :
    excluding.isWellFormed ∧ toFour.target? = some "4" ∧
      ¬ ∃ chosen : Nat → Bool,
        (∀ p ∈ excluding.places, chosen p.start → excluding.controls "g".toList "a".toList p) ∧
        toFour.upgradeManifest "pom.xml" (String.ofList excluding.print) =
          some (String.ofList (excluding.write "4".toList chosen).print) := by
  refine ⟨by decide, by decide, ?_⟩
  rintro ⟨chosen, hcontrols, h⟩
  have hnone : ∀ p ∈ excluding.places, excluding.controls "g".toList "a".toList p = false := by
    decide
  have hsame : excluding.write "4".toList chosen = excluding := by
    rw [write, write_of_none_chosen none fun p hp => ?_]
    have hno : ¬ chosen p.start := fun hchosen => by
      have hcontrolled := hcontrols p hp hchosen
      rw [hnone p hp] at hcontrolled
      cases hcontrolled
    simpa using hno
  rw [hsame, @upgradeManifest_eq_self_iff excluding toFour "pom.xml" "4" (by decide) (by decide)
    (by decide) (by decide) (by decide) (by decide)] at h
  revert h
  decide

/-! ## Versions that are not older -/

theorem component?_dollar (s : List Char) : component? ('$' :: s) = none := by
  simp [component?, dropStart?]

theorem numbers_dollar (s : List Char) : numbers (String.ofList ('$' :: s)) = [] := by
  obtain ⟨p, ps, hdots⟩ := exists_pieces_cons s (by decide : '$' ≠ '.')
  obtain ⟨q, qs, hhyphens⟩ := exists_pieces_cons p (by decide : '$' ≠ '-')
  rw [numbers, String.toList_ofList, hdots, List.flatMap_cons, hhyphens, List.cons_append,
    numericFront, component?_dollar]

theorem isRelease_dollar (s : List Char) : isRelease (String.ofList ('$' :: s)) = false := by
  obtain ⟨p, ps, hdots⟩ := exists_pieces_cons s (by decide : '$' ≠ '.')
  rw [isRelease, String.toList_ofList, hdots, List.all_cons, component?_dollar]
  rfl

/-- A version that names a property counts as one without numbers. -/
theorem isOlder_of_property {p : Place} {name : List Char} (target : String)
    (h : propertyName? p.word = some name) :
    p.isOlder target = (compareVersions "" target == .lt) := by
  have hnumbers : numbers "" = [] := by decide
  have hrelease : isRelease "" = false := by decide
  rw [Place.isOlder_eq, propertyName?_eq_some_iff.mp h, compareVersions, compareVersions,
    List.cons_append, numbers_dollar, isRelease_dollar, hnumbers, hrelease]

theorem mem_versions_iff {p : Place} :
    p ∈ pom.versions group artifact ↔ ∃ n e, (n, e) ∈ pom.dependencies ∧
      e.isOn group artifact ∧
        (e.places n).find? (fun p => p.name == versionName && p.parent == some e) = some p := by
  simp only [versions, List.mem_filterMap, Prod.exists, Option.ite_none_right_eq_some]

theorem mem_candidates_of_mem_versions (hpom : pom.isWellFormed)
    (hcandidates : ∀ v ∈ pom.candidates group artifact, v ∈ pom.versions group artifact) {v : Place}
    (hv : v ∈ pom.versions group artifact) : v ∈ pom.candidates group artifact := by
  obtain ⟨n, e, he, hon, hown⟩ := mem_versions_iff.mp hv
  have hmentions := e.mentions_of_isOn hon
  have hname : (v.name == versionName) = true := by
    have hform := List.find?_some hown
    exact (Bool.and_eq_true_iff.mp hform).1
  obtain ⟨w, hfirst⟩ : ∃ w, (e.places n).find? (·.name == versionName) = some w :=
    Option.isSome_iff_exists.mp (List.find?_isSome.mpr ⟨v, List.mem_of_find?_eq_some hown, hname⟩)
  have hw : w ∈ pom.candidates group artifact := mem_candidates_iff.mpr ⟨n, e, he, hmentions, hfirst⟩
  -- the first version at any depth is one of its own
  have hparent : w.parent = some e := by
    obtain ⟨k, e', he', -, hown'⟩ := mem_versions_iff.mp (hcandidates w hw)
    have hmarkup : pom.markup.isWellFormed false := by
      rw [isWellFormed, Bool.and_eq_true] at hpom
      exact hpom.2
    have hparent' : w.parent = some e' := by
      have hform := List.find?_some hown'
      exact beq_iff_eq.mp (Bool.and_eq_true_iff.mp hform).2
    have hinside := (of_mem_dependencies none hmarkup he).2.2.2.1
    rcases parent_of_mem_places hinside (List.mem_of_find?_eq_some hfirst) with h | ⟨x, hx, hne⟩
    · exact h
    · obtain rfl := Option.some.inj (hparent'.symm.trans hx)
      exact absurd (of_mem_dependencies none hmarkup he').1 hne
  have hsame : (e.places n).find? (fun p => p.name == versionName && p.parent == some e) = some w := by
    obtain ⟨hversion, before, after, hplaces, hbefore⟩ := List.find?_eq_some_iff_append.mp hfirst
    refine List.find?_eq_some_iff_append.mpr ⟨?_, before, after, hplaces, fun p hp => ?_⟩
    · rw [hversion, hparent, beq_self_eq_true, Bool.and_self]
    · have hother : (p.name == versionName) = false := by simpa using hbefore p hp
      rw [hother, Bool.false_and]
      rfl
  rw [hown] at hsame
  obtain rfl := Option.some.inj hsame
  exact hw

/-- What is found for a version that stands for a newer release is not older, unless the version
names a property that names another one. -/
theorem isOlder_of_standsFor {v p : Place} {release : List Char} {target : String}
    (hfound : pom.deciding? v = some p) (hstands : pom.StandsFor v.word release)
    (hnot : compareVersions (String.ofList release) target ≠ .lt)
    (hfirst : ∀ name, propertyName? v.word = some name → pom.first? name = pom.property? name)
    (hdirect : (∀ name, propertyName? v.word = some name → pom.property? name = some p →
      propertyName? p.word = none) ∨ compareVersions "" target ≠ .lt) :
    p.isOlder target = false := by
  have hnewer (q : Place) (hq : q.word = release) : q.isOlder target = false := by
    rw [Place.isOlder_eq, hq]
    exact beq_eq_false_iff_ne.mpr hnot
  rw [deciding?] at hfound
  cases hstands with
  | literal hliteral =>
    rw [hliteral] at hfound
    obtain rfl := Option.some.inj hfound
    exact hnewer v rfl
  | @property _ name value _ hname hvalue hbehind =>
    rw [hname] at hfound
    have hproperty : pom.property? name = some p := (hfirst name hname).symm.trans hfound
    rw [hproperty] at hvalue
    obtain rfl : p.word = value := Option.some.inj hvalue
    cases hbehind with
    | literal => exact hnewer p rfl
    | property hother =>
      rcases hdirect with hnone | hlow
      · rw [hnone name hname hproperty] at hother
        cases hother
      · rw [isOlder_of_property target hother]
        exact beq_eq_false_iff_ne.mpr hlow

/-- If the dependency is all that is mentioned, and a property is the first thing with its name,
then newer versions are left alone exactly if no property is given by another one. -/
theorem newer_is_kept_iff {u : Upgrade} {path target : String} (hpom : pom.isWellFormed)
    (hgroup : '<' ∉ u.group.toList) (hartifact : '<' ∉ u.artifact.toList)
    (hword : '<' ∉ target.toList) (hpath : File.fileName? path = some "pom.xml")
    (htarget : u.target? = some target)
    (hcandidates : ∀ v ∈ pom.candidates u.group.toList u.artifact.toList,
      v ∈ pom.versions u.group.toList u.artifact.toList)
    (hproperties : ∀ v ∈ pom.versions u.group.toList u.artifact.toList, ∀ name,
      propertyName? v.word = some name → pom.first? name = pom.property? name)
    (hnewer : ∀ v ∈ pom.versions u.group.toList u.artifact.toList, ∃ release,
      pom.StandsFor v.word release ∧ isRelease (String.ofList release) ∧
        compareVersions (String.ofList release) target ≠ .lt) :
    u.upgradeManifest path (String.ofList pom.print) = some (String.ofList pom.print) ↔
      (∀ v ∈ pom.versions u.group.toList u.artifact.toList, ∀ name p,
        propertyName? v.word = some name → pom.property? name = some p →
          propertyName? p.word = none) ∨ compareVersions "" target ≠ .lt := by
  rw [upgradeManifest_eq_self_iff hpom hgroup hartifact hword hpath htarget]
  constructor
  · intro h
    refine or_iff_not_imp_right.mpr fun hlow v hv name p hname hp => ?_
    rw [not_not] at hlow
    rw [Option.eq_none_iff_forall_ne_some]
    intro other hother
    have hfound : p ∈ pom.found u.group.toList u.artifact.toList := by
      refine List.mem_filterMap.mpr ⟨v, mem_candidates_of_mem_versions hpom hcandidates hv, ?_⟩
      rw [deciding?, hname]
      exact (hproperties v hv name hname).trans hp
    have holder := h p hfound
    rw [isOlder_of_property target hother, hlow] at holder
    cases holder
  · intro h p hp
    obtain ⟨v, hcandidate, hfound⟩ := List.mem_filterMap.mp hp
    have hv := hcandidates v hcandidate
    obtain ⟨release, hstands, -, hnot⟩ := hnewer v hv
    exact isOlder_of_standsFor hfound hstands hnot (hproperties v hv)
      (h.imp_left fun hnone name hname hproperty => hnone v hv name p hname hproperty)

/-- A newer version in a property is left alone. -/
theorem newer_property_is_kept :
    let pom := viaProperty (leaf "p" "5" nil)
    pom.isWellFormed ∧ '<' ∉ toFour.group.toList ∧ '<' ∉ toFour.artifact.toList ∧
      '<' ∉ "4".toList ∧ File.fileName? "pom.xml" = some "pom.xml" ∧ toFour.target? = some "4" ∧
      (∀ v ∈ pom.candidates "g".toList "a".toList, v ∈ pom.versions "g".toList "a".toList) ∧
      (∀ v ∈ pom.versions "g".toList "a".toList, ∀ name,
        propertyName? v.word = some name → pom.first? name = pom.property? name) ∧
      (∀ v ∈ pom.versions "g".toList "a".toList, ∃ release,
        pom.StandsFor v.word release ∧ isRelease (String.ofList release) ∧
          compareVersions (String.ofList release) "4" ≠ .lt) ∧
      toFour.upgradeManifest "pom.xml" (String.ofList pom.print) =
        some (String.ofList pom.print) := by
  intro pom
  have hwords : ∀ v ∈ pom.versions "g".toList "a".toList, v.word = "$\x7bp\x7d".toList := by
    decide
  have hname : propertyName? "$\x7bp\x7d".toList = some "p".toList := by decide
  have hfirst : pom.first? "p".toList = pom.property? "p".toList := by decide
  have hvalue : (pom.property? "p".toList).map (·.word) = some "5".toList := by decide
  have hcandidates : ∀ v ∈ pom.candidates "g".toList "a".toList,
      v ∈ pom.versions "g".toList "a".toList := by decide
  have hproperties : ∀ v ∈ pom.versions "g".toList "a".toList, ∀ name,
      propertyName? v.word = some name → pom.first? name = pom.property? name := by
    intro v hv name h
    rw [hwords v hv, hname] at h
    obtain rfl := Option.some.inj h
    exact hfirst
  have hnewer : ∀ v ∈ pom.versions "g".toList "a".toList, ∃ release,
      pom.StandsFor v.word release ∧ isRelease (String.ofList release) ∧
        compareVersions (String.ofList release) "4" ≠ .lt := by
    intro v hv
    refine ⟨"5".toList, ?_, by decide, by decide⟩
    rw [hwords v hv]
    exact .property hname hvalue (.literal (by decide))
  refine ⟨by decide, by decide, by decide, by decide, by decide, by decide, hcandidates,
    hproperties, hnewer, ?_⟩
  refine (@newer_is_kept_iff pom toFour "pom.xml" "4" (by decide) (by decide) (by decide) (by decide)
    (by decide) (by decide) hcandidates hproperties hnewer).mpr (.inl ?_)
  intro v hv name p h hp
  rw [hwords v hv, hname] at h
  obtain rfl := Option.some.inj h
  rw [hp] at hvalue
  have hword : p.word = "5".toList := Option.some.inj hvalue
  rw [hword]
  decide

/-- A newer version behind two properties is lowered. -/
theorem newer_version_is_lowered :
    let pom := viaProperty (leaf "p" "$\x7bq\x7d" (leaf "q" "5" nil))
    pom.isWellFormed ∧ toFour.target? = some "4" ∧
      (pom.versions "g".toList "a".toList).map (·.word) = ["$\x7bp\x7d".toList] ∧
      pom.StandsFor "$\x7bp\x7d".toList "5".toList ∧ isRelease "5" ∧ compareVersions "5" "4" = .gt ∧
      toFour.upgradeManifest "pom.xml" (String.ofList pom.print) ≠
        some (String.ofList pom.print) := by
  have hp : propertyName? "$\x7bp\x7d".toList = some "p".toList := by decide
  have hq : propertyName? "$\x7bq\x7d".toList = some "q".toList := by decide
  refine ⟨by decide, by decide, by decide, ?_, by decide, by decide, ?_⟩
  · exact .property hp (by decide) (.property hq (by decide) (.literal (by decide)))
  · rw [ne_eq, upgradeManifest_eq_self_iff (by decide) (by decide) (by decide)
      (by decide : '<' ∉ "4".toList) (by decide) (by decide)]
    decide

end Pom

end JavaMigration.Dependency
