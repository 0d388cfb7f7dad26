import Mathlib.Data.List.Basic
import JavaMigration.Proofs.Diff.Sides
import JavaMigration.Proofs.File.BuildFiles
import JavaMigration.Proofs.Project.Upgrades

/-!
# Previews

A run that writes its changes as it goes, one after the other, between reading the sources and
reading the build files. Nothing that it reads has been written before, since no source is a build
file, so a run that only says what would change says what a run that writes has changed.
-/

namespace JavaMigration.Project

open File Java Recipe Diff

/-! ## A run step by step -/

/-- The files of a project, and the changes written to them so far. -/
structure Disk where
  files : Directory
  written : List Change := []

namespace Disk

def write (disk : Disk) (c : Change) : Disk :=
  ⟨disk.files.write c.path (.text c.after), disk.written ++ [c]⟩

/-- The disk after some changes, unless they are only to be shown. -/
def after (dryRun : Bool) (changes : List Change) (disk : Disk) : Disk :=
  if dryRun then disk else ⟨applyAll changes disk.files, disk.written ++ changes⟩

end Disk

/-- Steps that read and write a disk and may stop at a fault. What was written before stays. -/
abbrev Steps : Type → Type := ExceptT RunFault (StateM Disk)

/-- What a run says about what it has done. -/
structure Report where
  sources : List Change
  actions : List ActionReport
  diagnostics : List Diagnostic
  summary : Summary

/-- Counts a change and writes it, unless it is only to be shown. -/
def makeChange (dryRun : Bool) (summary : Summary) (c : Change) : Steps Summary := do
  unless dryRun do modify (·.write c)
  return summary.add c.summary

/-- Migrates all sources, then writes what has changed; makes all upgrades, then writes what has
changed. -/
def perform (s : Settings) : Steps Report := do
  let selected ← liftExcept ((s.selection.collect (← get).files).mapError RunFault.selection)
  let results ← selected.mapM fun f => liftExcept (migrateSource s.recipes f.1 f.2)
  let sources := results.filterMap (·.1)
  let summary ← sources.foldlM (makeChange s.dryRun) {}
  let actions ← s.upgrades.mapM fun u => return ActionReport.ofUpgrade (← get).files u
  let summary ← (actions.flatMap (·.changes)).foldlM (makeChange s.dryRun) summary
  return { sources, actions, diagnostics := results.flatMap (·.2), summary }

/-! ## Step by step and at once -/

theorem applyAll_append (cs ds : List Change) (d : Directory) :
    applyAll (cs ++ ds) d = applyAll ds (applyAll cs d) := List.foldl_append

theorem Disk.after_append (dryRun : Bool) (cs ds : List Change) (disk : Disk) :
    disk.after dryRun (cs ++ ds) = (disk.after dryRun cs).after dryRun ds := by
  cases dryRun <;> simp [Disk.after, applyAll_append]

namespace Steps

variable {α β : Type}

theorem run_pure (a : α) (disk : Disk) : (pure a : Steps α).run disk = (.ok a, disk) := rfl

theorem run_bind (x : Steps α) (f : α → Steps β) (disk : Disk) :
    (x >>= f).run disk =
      match x.run disk with
      | (.ok a, disk) => (f a).run disk
      | (.error fault, disk) => (.error fault, disk) := by
  show ExceptT.bindCont f (x.run disk).1 (x.run disk).2 = _
  rcases x.run disk with ⟨_ | _, _⟩ <;> rfl

theorem run_lift (r : Except RunFault α) (disk : Disk) :
    (liftExcept r : Steps α).run disk = (r, disk) := by
  cases r <;> rfl

theorem run_get (disk : Disk) : (get : Steps Disk).run disk = (.ok disk, disk) := rfl

theorem run_mapM_lift (f : α → Except RunFault β) (as : List α) (disk : Disk) :
    (as.mapM fun a => (liftExcept (f a) : Steps β)).run disk = (as.mapM f, disk) := by
  induction as with
  | nil => rfl
  | cons a as ih =>
    rw [List.mapM_cons, List.mapM_cons, run_bind, run_lift]
    cases f a with
    | error fault => rfl
    | ok b =>
      show ((as.mapM fun a => (liftExcept (f a) : Steps β)) >>= fun bs => pure (b :: bs)).run disk = _
      rw [run_bind, ih]
      cases as.mapM f <;> rfl

end Steps

theorem run_makeChange (dryRun : Bool) (summary : Summary) (c : Change) (disk : Disk) :
    (makeChange dryRun summary c).run disk = (.ok (summary.add c.summary), disk.after dryRun [c]) := by
  cases dryRun <;> rfl

theorem run_makeChanges (dryRun : Bool) (changes : List Change) (summary : Summary) (disk : Disk) :
    (changes.foldlM (makeChange dryRun) summary).run disk =
      (.ok (changes.foldl (fun s c => s.add c.summary) summary), disk.after dryRun changes) := by
  induction changes generalizing summary disk with
  | nil =>
    cases dryRun
    · simp [Disk.after, applyAll, Steps.run_pure]
    · rfl
  | cons c cs ih =>
    rw [List.foldlM_cons, Steps.run_bind, run_makeChange]
    show (cs.foldlM (makeChange dryRun) (summary.add c.summary)).run (disk.after dryRun [c]) = _
    rw [ih]
    cases dryRun <;> simp [Disk.after, applyAll]

theorem run_reports (upgrades : List Dependency.Upgrade) (disk : Disk) :
    (upgrades.mapM fun u =>
        (return ActionReport.ofUpgrade (← get).files u : Steps ActionReport)).run disk =
      (.ok (upgrades.map (ActionReport.ofUpgrade disk.files)), disk) := by
  induction upgrades with
  | nil => rfl
  | cons u us ih =>
    rw [List.mapM_cons, Steps.run_bind]
    show (_ >>= fun reports =>
      pure (ActionReport.ofUpgrade disk.files u :: reports) : Steps _).run disk = _
    rw [Steps.run_bind, ih]
    rfl

/-- What a run says about its outcome. -/
def Outcome.report (o : Outcome) : Report := ⟨o.sources, o.actions, o.diagnostics, o.summary⟩

theorem summary_eq (o : Outcome) :
    o.summary =
      (o.actions.flatMap (·.changes)).foldl (fun s c => s.add c.summary) (summarize o.sources) :=
  List.foldl_append

/-- A run step by step has the outcome of the run at once. A fault stops it before it writes. -/
theorem run_perform (s : Settings) (disk : Disk) :
    (perform s).run disk =
      match run s disk.files with
      | .ok o => (.ok o.report, disk.after s.dryRun o.changes)
      | .error fault => (.error fault, disk) := by
  cases hrun : run s disk.files with
  | error fault =>
    rcases run_eq_error_iff.mp hrun with ⟨f, hselected, rfl⟩ | ⟨selected, hselected, hresults⟩
    · simp only [perform, Steps.run_bind, Steps.run_get, Steps.run_lift, hselected, Except.mapError]
    · simp only [perform, Steps.run_bind, Steps.run_get, Steps.run_lift, hselected, Except.mapError,
        Steps.run_mapM_lift, hresults]
  | ok o =>
    obtain ⟨selected, results, hselected, hresults, rfl⟩ := run_eq_ok_iff.mp hrun
    have hfiles : (disk.after s.dryRun (results.filterMap (·.1))).files =
        if s.dryRun then disk.files else applyAll (results.filterMap (·.1)) disk.files := by
      unfold Disk.after
      split <;> rfl
    simp only [perform, Steps.run_bind, Steps.run_get, Steps.run_lift, hselected, Except.mapError,
      Steps.run_mapM_lift, hresults, run_makeChanges, run_reports, Steps.run_pure, hfiles]
    rw [Outcome.changes, Disk.after_append, Outcome.report, summary_eq]
    rfl

/-! ## Sources and build files -/

theorem path_of_migrateSource {recipes : List RuleMigration} {path : String} {content : Content}
    {r : Option Change × List Diagnostic} (h : migrateSource recipes path content = .ok r) {c : Change}
    (hc : r.1 = some c) : c.path = path := by
  unfold migrateSource at h
  split at h
  · cases h
  · split at h
    · cases h
    · obtain rfl := Except.ok.inj h
      dsimp only at hc
      split at hc
      · cases hc
      · unfold Change.between? at hc
        split at hc
        · cases hc
        · rw [← Option.some.inj hc]

theorem accepts_of_mem_collect {s : Selection} {d : Directory} {files : List (String × Content)}
    (h : s.collect d = .ok files) {f : String × Content} (hf : f ∈ files) :
    ∃ filter, s.filter? = .ok filter ∧ filter.accepts f.1 f.2 := by
  unfold Selection.collect at h
  cases hfilter : s.filter? with
  | error fault =>
    rw [hfilter] at h
    cases h
  | ok filter =>
    rw [hfilter] at h
    obtain rfl := Except.ok.inj h
    exact ⟨filter, rfl, (List.mem_filter.mp (List.mem_mergeSort.mp hf)).2⟩

theorem exists_of_mem_sources {recipes : List RuleMigration} {selected : List (String × Content)}
    {results : List (Option Change × List Diagnostic)}
    (h : (selected.mapM fun f => migrateSource recipes f.1 f.2) = .ok results) {c : Change}
    (hc : c ∈ results.filterMap (·.1)) : ∃ f ∈ selected, c.path = f.1 := by
  obtain ⟨r, hr, hchange⟩ := List.mem_filterMap.mp hc
  rw [mapM_eq_ok_iff] at h
  obtain ⟨f, hf, hresult⟩ := List.mem_map.mp (h ▸ List.mem_map_of_mem hr)
  exact ⟨f, hf, path_of_migrateSource hresult hchange⟩

/-- Writing what has changed in the sources leaves the build files alone. -/
theorem buildFiles_of_sources {recipes : List RuleMigration} {d : Directory}
    {selected : List (String × Content)} {results : List (Option Change × List Diagnostic)}
    (hselected : Selection.javaSources.collect d = .ok selected)
    (hresults : (selected.mapM fun f => migrateSource recipes f.1 f.2) = .ok results) :
    buildFiles (applyAll (results.filterMap (·.1)) d) = buildFiles d := by
  have hother : ∀ f ∈ buildFiles d, ∀ c ∈ results.filterMap (·.1), f.1 ≠ c.path := by
    intro f hf c hc hpath
    obtain ⟨g, hg, hcg⟩ := exists_of_mem_sources hresults hc
    obtain ⟨sources, hsources, hsource⟩ := accepts_of_mem_collect hselected hg
    unfold buildFiles at hf
    cases hbuild : Selection.buildFiles.collect d with
    | error fault =>
      rw [hbuild] at hf
      cases hf
    | ok files =>
      rw [hbuild] at hf
      obtain ⟨builds, hbuilds, haccepts⟩ := accepts_of_mem_collect hbuild hf
      rw [hpath, hcg, Selection.not_accepts_of_java hsources hbuilds hsource] at haccepts
      cases haccepts
  rw [buildFiles_applyAll]
  calc (buildFiles d).map (fun f => (f.1, contentAfter (results.filterMap (·.1)) f.1 f.2))
      = (buildFiles d).map id := List.map_congr_left fun f hf => by
        rw [contentAfter_of_path_ne (hother f hf)]
        rfl
    _ = buildFiles d := List.map_id _

theorem ofUpgrade_congr {d d' : Directory} (h : buildFiles d = buildFiles d') :
    ActionReport.ofUpgrade d = ActionReport.ofUpgrade d' := by
  funext u
  rw [ActionReport.ofUpgrade, ActionReport.ofUpgrade, upgradeFiles_eq, upgradeFiles_eq, h]

/-! ## Previews -/

theorem foldl_files (changes : List Change) (s : Summary) :
    (changes.foldl (fun s c => s.add c.summary) s).files =
      s.files + (changes.filter (·.isModified)).length := by
  induction changes generalizing s with
  | nil => rfl
  | cons c cs ih =>
    have hfile : c.summary.files = if c.isModified then 1 else 0 := by
      rw [Change.summary, files_ofTexts, Change.isModified]
      by_cases h : c.before = c.after <;> simp [h]
    rw [List.foldl_cons, ih, Summary.add, hfile, List.filter_cons]
    split
    · simp only [List.length_cons]
      omega
    · rfl

/-- The summary of a run counts the files that are modified. -/
theorem files_summary (o : Outcome) : o.summary.files = o.filesModified := by
  rw [Outcome.summary, summarize, foldl_files]
  exact Nat.zero_add _

/-- A run of the sources that are selected if nothing else is said. -/
def Settings.ofSources (recipes : List RuleMigration) (skipDependencies dryRun : Bool) : Settings :=
  { recipes, skipDependencies, dryRun }

theorem exists_fault_of_malformed {recipes : List RuleMigration} {path source : String} {d : Directory}
    {selected : List (String × Content)} (hselected : Selection.javaSources.collect d = .ok selected)
    (hmem : (path, Content.text source) ∈ selected)
    (hparse : parse? (classpathOf recipes) path source = none) (skipDependencies dryRun : Bool) :
    ∃ fault, run (.ofSources recipes skipDependencies dryRun) d = .error fault := by
  have hfault : migrateSource recipes path (.text source) = .error (.malformed path) := by
    simp only [migrateSource, hparse]
  exact exists_fault_of_mem (s := .ofSources recipes skipDependencies dryRun) hselected hmem hfault

/-- A preview and a run that writes have the same outcome but for the files that they leave. -/
theorem run_real_eq (recipes : List RuleMigration) (skipDependencies : Bool) (d : Directory) :
    run (.ofSources recipes skipDependencies false) d =
      (run (.ofSources recipes skipDependencies true) d).map fun o =>
        { o with files := applyAll o.changes d } := by
  cases hrun : run (.ofSources recipes skipDependencies true) d with
  | error fault =>
    have hfault := run_eq_error_iff.mp hrun
    exact run_eq_error_iff.mpr hfault
  | ok o =>
    obtain ⟨selected, results, hselected, hresults, rfl⟩ := run_eq_ok_iff.mp hrun
    refine run_eq_ok_iff.mpr ⟨selected, results, hselected, hresults, ?_⟩
    have hactions := ofUpgrade_congr (buildFiles_of_sources hselected hresults)
    simp only [outcomeOf, Outcome.changes, Settings.ofSources, Settings.upgrades, Bool.false_eq_true,
      if_false, if_true, hactions, applyAll_append]
    rfl

theorem files_preview {recipes : List RuleMigration} {skipDependencies : Bool} {d : Directory}
    {o : Outcome}
    (h : run (.ofSources recipes skipDependencies true) d = .ok o) : o.files = d := by
  obtain ⟨selected, results, -, -, rfl⟩ := run_eq_ok_iff.mp h
  rfl

theorem files_real {recipes : List RuleMigration} {skipDependencies : Bool} {d : Directory}
    {o : Outcome} (h : run (.ofSources recipes skipDependencies false) d = .ok o) :
    o.files = applyAll o.changes d := by
  rw [run_real_eq] at h
  cases hrun : run (.ofSources recipes skipDependencies true) d with
  | error fault =>
    rw [hrun] at h
    cases h
  | ok o' =>
    rw [hrun] at h
    obtain rfl := Except.ok.inj h
    rfl

/-- A preview says what a run that writes says, and writes nothing. The run leaves the files with its
changes written one after the other, unless a fault stops it before it writes. Both stop if a
selected source is no Java. The files in the summary are those that are modified. -/
theorem preview_agrees (recipes : List RuleMigration) (skipDependencies : Bool) (d : Directory) :
    let preview : Settings := .ofSources recipes skipDependencies true
    let real : Settings := .ofSources recipes skipDependencies false
    (run preview d).map Outcome.report = (run real d).map Outcome.report ∧
    (∀ o, run preview d = .ok o → o.files = d) ∧
    (∀ o, run real d = .ok o → o.files = applyAll o.changes d) ∧
    (perform preview).run ⟨d, []⟩ = ((run preview d).map Outcome.report, ⟨d, []⟩) ∧
    (perform real).run ⟨d, []⟩ = ((run real d).map Outcome.report,
      match run real d with
      | .ok o => ⟨o.files, o.changes⟩
      | .error _ => ⟨d, []⟩) ∧
    (∃ selected, Selection.javaSources.collect d = .ok selected ∧
      ∀ path source, (path, Content.text source) ∈ selected →
        parse? (classpathOf recipes) path source = none →
        ∃ fault, run preview d = .error fault ∧ run real d = .error fault) ∧
    ∀ o, run preview d = .ok o ∨ run real d = .ok o → o.summary.files = o.filesModified := by
  intro preview real
  refine ⟨?_, fun o => files_preview, fun o => files_real, ?_, ?_, ?_, fun o _ => files_summary o⟩
  · rw [run_real_eq]
    cases run preview d <;> rfl
  · rw [run_perform]
    cases run preview d <;> rfl
  · rw [run_perform]
    cases hrun : run real d with
    | error fault => rfl
    | ok o =>
      dsimp only
      rw [files_real hrun]
      rfl
  · obtain ⟨selected, hselected⟩ := Selection.exists_collect_javaSources d
    refine ⟨selected, hselected, fun path source hmem hparse => ?_⟩
    obtain ⟨fault, hpreview⟩ := exists_fault_of_malformed hselected hmem hparse skipDependencies true
    refine ⟨fault, hpreview, ?_⟩
    rw [run_real_eq, hpreview]
    rfl

/-! ## A preview of two changes -/

/-- A recipe with an upgrade. -/
def migrating : List RuleMigration :=
  [.ordinary { RuleMigration.shortConfig with dependency := some ⟨"g", "a", "2", ["2"]⟩ }]

/-- A source with a field to migrate, and a build file. -/
def twoFiles (source : String) : Directory :=
  ⟨[("A.java", .text source), ("build.gradle", .text "'g:a:1'")]⟩

def fieldProject : Directory := twoFiles "class A \x7b @a.R b.S s; \x7d"

def brokenProject : Directory := twoFiles "class"

/-- Whether a real run changes both files of the one project, and the source of the other one, though
selected, is no Java. -/
def changesBoth : Bool :=
  (match run (.ofSources migrating false false) fieldProject with
    | .ok o => o.changes.map (·.path) == ["A.java", "build.gradle"]
    | .error _ => false) &&
  (match Selection.javaSources.collect brokenProject with
    | .ok selected => selected.contains ("A.java", .text "class") &&
        (parse? (classpathOf migrating) "A.java" "class").isNone
    | .error _ => false)

set_option maxRecDepth 100000 in
theorem changesBoth_holds : changesBoth := by decide +kernel

theorem preview_of_two_changes :
    (∃ o, run (.ofSources migrating false false) fieldProject = .ok o ∧
      o.changes.map (·.path) = ["A.java", "build.gradle"] ∧ o.summary.files = o.filesModified ∧
      (run (.ofSources migrating false true) fieldProject).map Outcome.report = .ok o.report ∧
      (perform (.ofSources migrating false false)).run ⟨fieldProject, []⟩ =
        (.ok o.report, ⟨applyAll o.changes fieldProject, o.changes⟩)) ∧
    ∃ fault, run (.ofSources migrating false false) brokenProject = .error fault ∧
      (perform (.ofSources migrating false false)).run ⟨brokenProject, []⟩ =
        (.error fault, ⟨brokenProject, []⟩) := by
  obtain ⟨hfield, hbroken⟩ := Bool.and_eq_true_iff.mp changesBoth_holds
  constructor
  · split at hfield
    · next o ho =>
      obtain ⟨hsame, -, hfiles, -, hperform, -, hsummary⟩ := preview_agrees migrating false fieldProject
      rw [ho] at hsame hperform
      dsimp only at hperform
      rw [hfiles o ho] at hperform
      exact ⟨o, ho, beq_iff_eq.mp hfield, hsummary o (.inr ho), hsame, hperform⟩
    · cases hfield
  · split at hbroken
    · next selected hselected =>
      obtain ⟨hmem, hparse⟩ := Bool.and_eq_true_iff.mp hbroken
      obtain ⟨-, -, -, -, hperform, ⟨selected', hselected', hmalformed⟩, -⟩ :=
        preview_agrees migrating false brokenProject
      obtain rfl := Except.ok.inj (hselected.symm.trans hselected')
      obtain ⟨fault, -, hfault⟩ := hmalformed "A.java" "class" (List.contains_iff_mem.mp hmem)
        (Option.isNone_iff_eq_none.mp hparse)
      rw [hfault] at hperform
      exact ⟨fault, hfault, hperform⟩
    · cases hbroken

end JavaMigration.Project
