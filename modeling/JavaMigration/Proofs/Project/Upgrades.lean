import Mathlib.Data.List.Basic
import JavaMigration.Project.Run
import JavaMigration.Proofs.Recipe.Generated

/-!
# What is left of several upgrades

All upgrades of a run look at the build files as they were before the first of them, and what they
make of a file is written one after the other. So a file ends up as the last upgrade that changes it
leaves it, and this decides whether all of them are done.
-/

namespace JavaMigration.Project

open File Dependency

/-! ## Written changes -/

/-- What a file holds after some changes of a project. -/
def contentAfter (changes : List Change) (path : String) (content : Content) : Content :=
  changes.foldl (fun content c => if path = c.path then .text c.after else content) content

theorem contentAfter_append (cs ds : List Change) (path : String) (content : Content) :
    contentAfter (cs ++ ds) path content = contentAfter ds path (contentAfter cs path content) :=
  List.foldl_append

theorem contentAfter_of_path_ne {cs : List Change} {path : String} (h : ∀ c ∈ cs, path ≠ c.path)
    (content : Content) : contentAfter cs path content = content := by
  induction cs with
  | nil => rfl
  | cons c cs ih =>
    obtain ⟨hc, hcs⟩ := List.forall_mem_cons.mp h
    unfold contentAfter at ih ⊢
    rw [List.foldl_cons, if_neg hc, ih hcs]

theorem files_applyAll (changes : List Change) (d : Directory) :
    (applyAll changes d).files = d.files.map fun f => (f.1, contentAfter changes f.1 f.2) := by
  induction changes generalizing d with
  | nil => exact (List.map_id _).symm
  | cons c cs ih =>
    show (applyAll cs (d.write c.path (.text c.after))).files = _
    rw [ih, Directory.write, List.map_map]
    refine List.map_congr_left fun f _ => ?_
    unfold contentAfter
    rw [List.foldl_cons, Function.comp_apply]
    split <;> rfl

theorem paths_applyAll (changes : List Change) (d : Directory) :
    (applyAll changes d).paths = d.paths := by
  unfold Directory.paths
  rw [files_applyAll, List.map_map]
  rfl

/-! ## Build files -/

/-- The build files of a project in the order of their paths. -/
def buildFiles (d : Directory) : List (String × Content) :=
  (Selection.buildFiles.collect d).toOption.getD []

/-- Build files are selected by their paths alone. -/
theorem accepts_of_buildFiles {f : Selection.Filter} (h : Selection.buildFiles.filter? = .ok f)
    (path : String) (content : Content) :
    f.accepts path content = (f.acceptsExtension path && f.acceptsPath path) := by
  have hany : f.containing = [] := by
    unfold Selection.filter? at h
    split at h
    · next hcontaining =>
      cases h
      exact (Option.some.inj hcontaining).symm
    all_goals cases h
  unfold Selection.Filter.accepts Selection.Filter.acceptsContent
  cases content <;> simp [hany]

theorem buildFiles_applyAll (changes : List Change) (d : Directory) :
    buildFiles (applyAll changes d) =
      (buildFiles d).map fun f => (f.1, contentAfter changes f.1 f.2) := by
  unfold buildFiles Selection.collect
  cases hfilter : Selection.buildFiles.filter? with
  | error fault => rfl
  | ok f =>
    have haccepts : ∀ a : String × Content,
        f.accepts a.1 (contentAfter changes a.1 a.2) = f.accepts a.1 a.2 := by
      intro a
      rw [accepts_of_buildFiles hfilter, accepts_of_buildFiles hfilter]
    simp only [Except.map, Except.toOption, Option.getD_some, files_applyAll, List.filter_map]
    rw [List.map_mergeSort (f := fun a : String × Content => (a.1, contentAfter changes a.1 a.2))
      (s := fun a b => !comesBefore b.1 a.1) fun _ _ _ _ => rfl]
    congr 2
    exact List.filter_congr fun a _ => haccepts a

theorem nodup_of_collect {s : Selection} {d : Directory} {files : List (String × Content)}
    (h : s.collect d = .ok files) (hpaths : d.paths.Nodup) : (files.map (·.1)).Nodup := by
  unfold Selection.collect at h
  cases hfilter : s.filter? with
  | error fault =>
    rw [hfilter] at h
    cases h
  | ok f =>
    rw [hfilter] at h
    obtain rfl := Except.ok.inj h
    rw [((List.mergeSort_perm _ _).map _).nodup_iff]
    exact hpaths.sublist (List.filter_sublist.map _)

theorem nodup_buildFiles {d : Directory} (h : d.paths.Nodup) :
    ((buildFiles d).map (·.1)).Nodup := by
  unfold buildFiles
  cases hfiles : Selection.buildFiles.collect d with
  | error fault => exact List.nodup_nil
  | ok files => exact nodup_of_collect hfiles h

/-! ## One upgrade -/

theorem mapM_eq_ok_iff {α β ε : Type} {f : α → Except ε β} {as : List α} {bs : List β} :
    as.mapM f = .ok bs ↔ as.map f = bs.map .ok := by
  induction as generalizing bs with
  | nil => cases bs <;> simp [pure, Except.pure]
  | cons a as ih =>
    rw [List.mapM_cons, List.map_cons]
    cases ha : f a with
    | error e => cases bs <;> simp [bind, Except.bind]
    | ok b =>
      cases hmap : as.mapM f with
      | error e =>
        have hno : ∀ cs : List β, as.map f ≠ cs.map .ok := by
          intro cs hcs
          rw [← ih, hmap] at hcs
          cases hcs
        cases bs <;> simp [bind, Except.bind, hno]
      | ok cs =>
        rw [ih.mp hmap]
        have hinjective : Function.Injective (Except.ok : β → Except ε β) := fun _ _ => Except.ok.inj
        cases bs <;> simp [bind, Except.bind, pure, Except.pure, (List.map_injective_iff.mpr hinjective).eq_iff]

theorem upgradeFile_eq_none_iff {u : Upgrade} {path : String} {content : Content} :
    upgradeFile u path content = .ok none ↔
      ∃ text, content = .text text ∧ u.upgradeManifest path text = some text := by
  cases content with
  | bytes => simp [upgradeFile]
  | text before =>
    simp only [upgradeFile, Content.text.injEq, exists_eq_left']
    split
    · next after hafter => simp [hafter, Change.between?, eq_comm]
    · next hnone => simp [hnone]

/-- The change that an upgrade makes to a build file. -/
def changeBy? (u : Upgrade) (f : String × Content) : Option Change :=
  (upgradeFile u f.1 f.2).toOption.join

/-- What an upgrade makes of a text, if it changes it. -/
def resultOf? (u : Upgrade) (path before : String) : Option String :=
  (u.upgradeManifest path before).filter (· ≠ before)

theorem resultOf?_eq_none_iff {u : Upgrade} {path before after : String}
    (h : u.upgradeManifest path before = some after) :
    resultOf? u path before = none ↔ after = before := by
  rw [resultOf?, h, Option.filter_eq_none_iff]
  simp

theorem changeBy?_text (u : Upgrade) (path before : String) :
    changeBy? u (path, .text before) = (resultOf? u path before).map (⟨path, before, ·⟩) := by
  unfold changeBy? resultOf?
  cases h : u.upgradeManifest path before with
  | none => simp [upgradeFile, h, Except.toOption]
  | some after =>
    by_cases hsame : after = before
    · simp [upgradeFile, h, Except.toOption, Change.between?, Option.filter, hsame]
    · simp [upgradeFile, h, Except.toOption, Change.between?, Option.filter, hsame, Ne.symm hsame]

theorem path_of_changeBy? {u : Upgrade} {f : String × Content} {c : Change}
    (h : changeBy? u f = some c) : c.path = f.1 := by
  obtain ⟨path, _ | before⟩ := f
  · next before =>
    rw [changeBy?_text] at h
    obtain ⟨after, -, rfl⟩ := Option.map_eq_some_iff.mp h
    rfl
  · cases h

theorem upgradeFiles_eq (u : Upgrade) (d : Directory) :
    upgradeFiles u d =
      ((buildFiles d).mapM fun f => upgradeFile u f.1 f.2).map fun cs => cs.filterMap id := by
  show ((buildFiles d).mapM (fun f => upgradeFile u f.1 f.2) >>= fun cs => pure (cs.filterMap id)) = _
  cases (buildFiles d).mapM fun f => upgradeFile u f.1 f.2 <;> rfl

theorem upgradeFiles_eq_ok {u : Upgrade} {d : Directory} {cs : List Change}
    (h : upgradeFiles u d = .ok cs) :
    cs = (buildFiles d).filterMap (changeBy? u) ∧
      ∀ f ∈ buildFiles d, ∃ before after,
        f.2 = .text before ∧ u.upgradeManifest f.1 before = some after := by
  rw [upgradeFiles_eq] at h
  cases hmap : (buildFiles d).mapM fun f => upgradeFile u f.1 f.2 with
  | error e =>
    rw [hmap] at h
    cases h
  | ok rs =>
    rw [hmap] at h
    obtain rfl := Except.ok.inj h
    rw [mapM_eq_ok_iff] at hmap
    constructor
    · calc rs.filterMap id
          = (rs.map .ok).filterMap fun r : Except ActionFault (Option Change) => r.toOption.join := by
            rw [List.filterMap_map]
            exact List.filterMap_congr fun _ _ => rfl
        _ = _ := by
            rw [← hmap, List.filterMap_map]
            exact List.filterMap_congr fun _ _ => rfl
    · rintro ⟨path, content⟩ hf
      obtain ⟨r, -, hr⟩ := List.mem_map.mp (hmap ▸ List.mem_map_of_mem hf)
      cases content with
      | bytes => cases hr
      | text before =>
        refine ⟨before, ?_⟩
        cases h : u.upgradeManifest path before with
        | some after => exact ⟨after, rfl, rfl⟩
        | none => simp [upgradeFile, h] at hr

theorem upgradeFiles_eq_nil_iff {u : Upgrade} {d : Directory} :
    upgradeFiles u d = .ok [] ↔
      ∀ f ∈ buildFiles d, ∃ text, f.2 = .text text ∧ u.upgradeManifest f.1 text = some text := by
  constructor
  · intro h f hf
    obtain ⟨hnil, htext⟩ := upgradeFiles_eq_ok h
    obtain ⟨before, after, hbefore, hafter⟩ := htext f hf
    refine ⟨before, hbefore, ?_⟩
    have hkept : changeBy? u f = none := List.filterMap_eq_nil_iff.mp hnil.symm f hf
    obtain ⟨path, content⟩ := f
    obtain rfl : content = .text before := hbefore
    rw [changeBy?_text, Option.map_eq_none_iff, resultOf?_eq_none_iff hafter] at hkept
    rwa [hkept] at hafter
  · intro h
    have hkept : (buildFiles d).mapM (fun f => upgradeFile u f.1 f.2) =
        .ok ((buildFiles d).map fun _ => none) := by
      rw [mapM_eq_ok_iff, List.map_map]
      exact List.map_congr_left fun f hf => upgradeFile_eq_none_iff.mpr (h f hf)
    rw [upgradeFiles_eq, hkept]
    simp [Except.map]

/-! ## Several upgrades -/

/-- What the upgrades that change a text make of it, each for itself. -/
def results (us : List Upgrade) (path before : String) : List String :=
  us.filterMap fun u => resultOf? u path before

/-- A build file is written once by each upgrade that changes it. -/
theorem contentAfter_changeBy {u : Upgrade} {path before : String} {content : Content}
    {fs : List (String × Content)} (hnodup : (fs.map (·.1)).Nodup)
    (hf : (path, .text before) ∈ fs) :
    contentAfter (fs.filterMap (changeBy? u)) path content =
      ((resultOf? u path before).map .text).getD content := by
  obtain ⟨front, back, rfl⟩ := List.append_of_mem hf
  have hother : ∀ gs : List (String × Content), path ∉ gs.map (·.1) →
      ∀ c ∈ gs.filterMap (changeBy? u), path ≠ c.path := by
    intro gs hgs c hc hpath
    obtain ⟨g, hg, hchange⟩ := List.mem_filterMap.mp hc
    rw [path_of_changeBy? hchange] at hpath
    exact hgs (hpath ▸ List.mem_map_of_mem hg)
  rw [List.map_append, List.map_cons, List.nodup_middle, List.nodup_cons, List.mem_append,
    not_or] at hnodup
  obtain ⟨⟨hfront, hback⟩, -⟩ := hnodup
  rw [List.filterMap_append, contentAfter_append, contentAfter_of_path_ne (hother front hfront),
    List.filterMap_cons, changeBy?_text]
  cases resultOf? u path before with
  | none => exact contentAfter_of_path_ne (hother back hback) _
  | some after =>
    show contentAfter _ path (if path = path then .text after else content) = _
    rw [if_pos rfl]
    exact contentAfter_of_path_ne (hother back hback) _

/-- Of several upgrades the last one that changes a build file decides what is in it. -/
theorem contentAfter_upgrades {us : List Upgrade} {path before : String}
    {fs : List (String × Content)} (hnodup : (fs.map (·.1)).Nodup)
    (hf : (path, .text before) ∈ fs) (content : Content) :
    contentAfter (us.flatMap fun u => fs.filterMap (changeBy? u)) path content =
      ((results us path before).getLast?.map .text).getD content := by
  induction us generalizing content with
  | nil => rfl
  | cons u us ih =>
    rw [List.flatMap_cons, contentAfter_append, ih, contentAfter_changeBy hnodup hf]
    unfold results
    rw [List.filterMap_cons]
    cases resultOf? u path before with
    | none => rfl
    | some after =>
      rw [List.getLast?_cons]
      cases (us.filterMap fun u => resultOf? u path before).getLast? <;> rfl

/-- The upgrades leave alone what the last one that changes a build file makes of it. -/
def LastSettles (us : List Upgrade) (path before : String) : Prop :=
  ∀ after, (results us path before).getLast? = some after →
    ∀ u ∈ us, u.upgradeManifest path after = some after

/-- Upgrades that were made one after the other change nothing when they are made again, exactly if
they leave alone what the last one of them has made of each build file. -/
theorem upgradeFiles_again_iff {us : List Upgrade} {d d' : Directory}
    (hnodup : ((buildFiles d).map (·.1)).Nodup)
    (hsuccess : ∀ u ∈ us, ∃ cs, upgradeFiles u d = .ok cs)
    (hfiles : buildFiles d' = (buildFiles d).map fun f =>
      (f.1, contentAfter (us.flatMap fun u => (buildFiles d).filterMap (changeBy? u)) f.1 f.2)) :
    (∀ u ∈ us, upgradeFiles u d' = .ok []) ↔
      ∀ path before, (path, Content.text before) ∈ buildFiles d → LastSettles us path before := by
  constructor
  · intro h path before hf after hafter u hu
    have hlast : (path, Content.text after) ∈ buildFiles d' := by
      rw [hfiles]
      refine List.mem_map.mpr ⟨_, hf, ?_⟩
      rw [contentAfter_upgrades hnodup hf, hafter]
      rfl
    obtain ⟨text, htext, hkept⟩ := upgradeFiles_eq_nil_iff.mp (h u hu) _ hlast
    obtain rfl := Content.text.inj htext
    exact hkept
  · intro h u hu
    obtain ⟨cs, hcs⟩ := hsuccess u hu
    obtain ⟨-, htexts⟩ := upgradeFiles_eq_ok hcs
    refine upgradeFiles_eq_nil_iff.mpr fun f hf => ?_
    rw [hfiles] at hf
    obtain ⟨⟨path, content⟩, hmem, rfl⟩ := List.mem_map.mp hf
    obtain ⟨before, after, hbefore, hafter⟩ := htexts _ hmem
    obtain rfl : content = .text before := hbefore
    rw [contentAfter_upgrades hnodup hmem]
    cases hresults : (results us path before).getLast? with
    | some last => exact ⟨last, rfl, h path before hmem last hresults u hu⟩
    | none =>
      have hkept : resultOf? u path before = none :=
        List.filterMap_eq_nil_iff.mp (List.getLast?_eq_none_iff.mp hresults) u hu
      obtain rfl := (resultOf?_eq_none_iff hafter).mp hkept
      exact ⟨_, rfl, hafter⟩

/-! ## A run -/

/-- The upgrades that a run makes, in the order of its reports. -/
def Settings.upgrades (s : Settings) : List Upgrade :=
  if s.skipDependencies then [] else s.recipes.flatMap (·.upgrades)

/-- Those upgrades that are reported as successful. -/
def Outcome.succeeded (o : Outcome) (us : List Upgrade) : List Upgrade :=
  ((us.zip o.actions).filter fun p => p.2.fault?.isNone).map (·.1)

/-- What comes of a run in which the sources have been migrated with some results. -/
def outcomeOf (s : Settings) (d : Directory) (results : List (Option Change × List Recipe.Diagnostic)) :
    Outcome :=
  let sources := results.filterMap (·.1)
  let migrated := if s.dryRun then d else applyAll sources d
  let actions := s.upgrades.map (ActionReport.ofUpgrade migrated)
  let files := if s.dryRun then d else applyAll (actions.flatMap (·.changes)) migrated
  { sources, actions, diagnostics := results.flatMap (·.2), files }

theorem run_eq_ok_iff {s : Settings} {d : Directory} {o : Outcome} :
    run s d = .ok o ↔
      ∃ selected results, s.selection.collect d = .ok selected ∧
        (selected.mapM fun f => migrateSource s.recipes f.1 f.2) = .ok results ∧
        o = outcomeOf s d results := by
  unfold run
  cases s.selection.collect d with
  | error e => simp [Except.mapError, bind, Except.bind]
  | ok selected =>
    cases hresults : selected.mapM fun f => migrateSource s.recipes f.1 f.2 with
    | error e => simp [Except.mapError, hresults, bind, Except.bind]
    | ok results =>
      simp only [Except.mapError, hresults, bind, Except.bind, pure, Except.pure, Except.ok.injEq,
        exists_and_left, exists_eq_left']
      exact eq_comm

theorem run_eq_error_iff {s : Settings} {d : Directory} {fault : RunFault} :
    run s d = .error fault ↔
      (∃ f, s.selection.collect d = .error f ∧ fault = .selection f) ∨
        ∃ selected, s.selection.collect d = .ok selected ∧
          (selected.mapM fun f => migrateSource s.recipes f.1 f.2) = .error fault := by
  unfold run
  cases s.selection.collect d with
  | error e => simp [Except.mapError, bind, Except.bind, eq_comm]
  | ok selected =>
    cases hresults : selected.mapM fun f => migrateSource s.recipes f.1 f.2 <;>
      simp [Except.mapError, hresults, bind, Except.bind, pure, Except.pure]

/-- If a selected file has a fault, so has the run. -/
theorem exists_fault_of_mem {s : Settings} {d : Directory} {files : List (String × Content)}
    (hfiles : s.selection.collect d = .ok files) {f : String × Content} (hf : f ∈ files)
    {fault : RunFault} (hfault : migrateSource s.recipes f.1 f.2 = .error fault) :
    ∃ first, run s d = .error first := by
  cases hrun : run s d with
  | error first => exact ⟨first, rfl⟩
  | ok o =>
    obtain ⟨files', results, hfiles', hresults, -⟩ := run_eq_ok_iff.mp hrun
    obtain rfl := Except.ok.inj (hfiles.symm.trans hfiles')
    rw [mapM_eq_ok_iff] at hresults
    obtain ⟨r, -, hr⟩ := List.mem_map.mp (hresults ▸ List.mem_map_of_mem hf)
    rw [hfault] at hr
    cases hr

theorem run_eq_ok {s : Settings} {d : Directory} {o : Outcome} (h : run s d = .ok o) :
    o.actions = s.upgrades.map (ActionReport.ofUpgrade (if s.dryRun then d else applyAll o.sources d)) ∧
      o.files =
        if s.dryRun then d else applyAll (o.actions.flatMap (·.changes)) (applyAll o.sources d) := by
  obtain ⟨selected, results, -, -, rfl⟩ := run_eq_ok_iff.mp h
  constructor
  · rfl
  · unfold outcomeOf
    cases s.dryRun <;> rfl

theorem succeeded_map (us : List Upgrade) (d : Directory) :
    (((us.zip (us.map (ActionReport.ofUpgrade d))).filter fun p => p.2.fault?.isNone).map (·.1)) =
      us.filter fun u => (ActionReport.ofUpgrade d u).fault?.isNone := by
  induction us with
  | nil => rfl
  | cons u us ih =>
    rw [List.map_cons, List.zip_cons_cons, List.filter_cons, List.filter_cons]
    split <;> simp [ih]

theorem fault?_ofUpgrade_isNone {u : Upgrade} {d : Directory} :
    (ActionReport.ofUpgrade d u).fault?.isNone ↔ ∃ cs, upgradeFiles u d = .ok cs := by
  unfold ActionReport.ofUpgrade ActionReport.fault?
  cases upgradeFiles u d <;> simp

/-- Upgrades that fail change nothing. -/
theorem changes_reports (us : List Upgrade) (d : Directory) :
    (us.map (ActionReport.ofUpgrade d)).flatMap (·.changes) =
      (us.filter fun u => (ActionReport.ofUpgrade d u).fault?.isNone).flatMap fun u =>
        (buildFiles d).filterMap (changeBy? u) := by
  induction us with
  | nil => rfl
  | cons u us ih =>
    rw [List.map_cons, List.flatMap_cons, ih, List.filter_cons]
    cases h : upgradeFiles u d with
    | error e => simp [ActionReport.ofUpgrade, ActionReport.changes, ActionReport.fault?, h, Except.toOption]
    | ok cs =>
      obtain ⟨rfl, -⟩ := upgradeFiles_eq_ok h
      simp [ActionReport.ofUpgrade, ActionReport.changes, ActionReport.fault?, h, Except.toOption]

/-- A run makes the changes of its successful upgrades, which all look at the build files as they are
when the sources are migrated. -/
theorem succeeded_of_run {s : Settings} {d : Directory} {o : Outcome} (h : run s d = .ok o)
    (hreal : s.dryRun = false) :
    o.succeeded s.upgrades =
        s.upgrades.filter (fun u => (ActionReport.ofUpgrade (applyAll o.sources d) u).fault?.isNone) ∧
      o.files = applyAll ((o.succeeded s.upgrades).flatMap fun u =>
        (buildFiles (applyAll o.sources d)).filterMap (changeBy? u)) (applyAll o.sources d) := by
  obtain ⟨hactions, hfiles⟩ := run_eq_ok h
  rw [hreal, if_neg Bool.false_ne_true] at hactions hfiles
  have hdone : o.succeeded s.upgrades =
      s.upgrades.filter (fun u => (ActionReport.ofUpgrade (applyAll o.sources d) u).fault?.isNone) := by
    rw [Outcome.succeeded, hactions, succeeded_map]
  rw [hactions, changes_reports, ← hdone] at hfiles
  exact ⟨hdone, hfiles⟩

/-- After a run, making the successful upgrades once more changes nothing if and only if each of
them leaves alone what the last one of them that changes a build file has made of it. -/
theorem upgrades_are_settled_iff {s : Settings} {d : Directory} {o : Outcome}
    (hrun : run s d = .ok o) (hreal : s.dryRun = false) (hpaths : d.paths.Nodup) :
    (∀ u ∈ o.succeeded s.upgrades, upgradeFiles u o.files = .ok []) ↔
      ∀ path before, (path, Content.text before) ∈ buildFiles (applyAll o.sources d) →
        LastSettles (o.succeeded s.upgrades) path before := by
  obtain ⟨hdone, hfiles⟩ := succeeded_of_run hrun hreal
  have hnodup : ((buildFiles (applyAll o.sources d)).map (·.1)).Nodup :=
    nodup_buildFiles (by rwa [paths_applyAll])
  refine upgradeFiles_again_iff hnodup (fun u hu => ?_) ?_
  · rw [hdone, List.mem_filter] at hu
    exact fault?_ofUpgrade_isNone.mp hu.2
  · rw [hfiles, buildFiles_applyAll]

/-! ## Runs with two upgrades -/

/-- Settings with the upgrade of one artifact to version 2. -/
def upgradingTo2 (artifact : String) : Recipe.Config where
  dependency := some ⟨"g", artifact, "2", ["2"]⟩

/-- The upgrades of two artifacts. -/
def twoUpgrades : Settings where
  recipes := [.ordinary (upgradingTo2 "a"), .ordinary (upgradingTo2 "b")]

def buildFile (text : String) : Directory := ⟨[("build.gradle", .text text)]⟩

/-- Whether both upgrades of a build file succeed and leave a given text, and what each of them would
change if it was made again. -/
def upgradesTo (before after : String) (again : List (List Change)) : Bool :=
  match run twoUpgrades (buildFile before) with
  | .ok o =>
    o.actions.all (·.fault?.isNone) && o.files == buildFile after &&
      twoUpgrades.upgrades.map (fun u => (upgradeFiles u o.files).toOption.getD []) == again
  | .error _ => false

theorem exists_of_upgradesTo {before after : String} {again : List (List Change)}
    (h : upgradesTo before after again) :
    ∃ o, run twoUpgrades (buildFile before) = .ok o ∧ (∀ r ∈ o.actions, r.fault? = none) ∧
      o.files = buildFile after ∧
      twoUpgrades.upgrades.map (fun u => (upgradeFiles u o.files).toOption.getD []) = again := by
  unfold upgradesTo at h
  split at h
  · next o ho =>
    simp only [Bool.and_eq_true, List.all_eq_true, Option.isNone_iff_eq_none, beq_iff_eq] at h
    exact ⟨o, ho, h.1.1, h.1.2, h.2⟩
  · cases h

set_option maxRecDepth 100000 in
theorem upgradesTo_single : upgradesTo "'g:a:1'" "'g:a:2'" [[], []] := by decide +kernel

/-- The one upgrade that changes the file leaves alone what it has made of it. -/
theorem single_upgrade_is_settled :
    ∃ o, run twoUpgrades (buildFile "'g:a:1'") = .ok o ∧ twoUpgrades.dryRun = false ∧
      (buildFile "'g:a:1'").paths.Nodup ∧ o.files = buildFile "'g:a:2'" ∧
      ((∀ u ∈ o.succeeded twoUpgrades.upgrades, upgradeFiles u o.files = .ok []) ↔
        ∀ path before,
          (path, Content.text before) ∈ buildFiles (applyAll o.sources (buildFile "'g:a:1'")) →
            LastSettles (o.succeeded twoUpgrades.upgrades) path before) := by
  obtain ⟨o, ho, -, hfiles, -⟩ := exists_of_upgradesTo upgradesTo_single
  have hpaths : (buildFile "'g:a:1'").paths.Nodup := List.nodup_singleton _
  exact ⟨o, ho, rfl, hpaths, hfiles, upgrades_are_settled_iff ho rfl hpaths⟩

set_option maxRecDepth 100000 in
theorem upgradesTo_shared :
    upgradesTo "'g:a:1' 'g:b:1'" "'g:a:1' 'g:b:2'"
      [[⟨"build.gradle", "'g:a:1' 'g:b:2'", "'g:a:2' 'g:b:2'"⟩], []] := by
  decide +kernel

/-- Of two upgrades of one file, both reported as successful, the first one is lost. -/
theorem shared_file_loses_upgrade :
    ∃ (first second : Recipe.RuleMigration) (o : Outcome),
      Recipe.RuleMigration.ofConfig (upgradingTo2 "a") = .ok first ∧
      Recipe.RuleMigration.ofConfig (upgradingTo2 "b") = .ok second ∧
      run { recipes := [first, second] } (buildFile "'g:a:1' 'g:b:1'") = .ok o ∧
      (∀ r ∈ o.actions, r.fault? = none) ∧ o.files = buildFile "'g:a:1' 'g:b:2'" ∧
      ∃ u ∈ first.upgrades, upgradeFiles u o.files ≠ .ok [] := by
  obtain ⟨o, ho, hactions, hfiles, hagain⟩ := exists_of_upgradesTo upgradesTo_shared
  refine ⟨_, _, o, (Recipe.RuleMigration.ordinary_default.withDependency _).ofConfig_eq,
    (Recipe.RuleMigration.ordinary_default.withDependency _).ofConfig_eq, ho, hactions, hfiles,
    _, List.mem_singleton_self _, ?_⟩
  intro hnone
  have hfirst := (List.cons.inj hagain).1
  beta_reduce at hnone hfirst
  rw [hnone] at hfirst
  cases hfirst

end JavaMigration.Project
