import Mathlib.Algebra.GroupWithZero.Nat
import Mathlib.Data.List.Basic
import Mathlib.Logic.Relation
import JavaMigration.Proofs.Project.Upgrades
import JavaMigration.Proofs.Recipe.Again

/-!
# Sources at the same time

The sources of a project are migrated by tasks of their own, which share nothing but the list that
diagnostics are reported to. A run is made of steps of these tasks in any order. The order shows in
the list of diagnostics and nowhere else, and there each source keeps its own order.
-/

namespace JavaMigration.Project

open File Java Source Recipe Diff

/-! ## Weaving -/

section Weaves

variable {α : Type}

/-- A list that is made of some lists by taking the first element of one of them again and again. -/
inductive Weaves : List (List α) → List α → Prop
  | done {lists : List (List α)} (h : ∀ l ∈ lists, l = []) : Weaves lists []
  | next {lists : List (List α)} {i : Nat} {x : α} {l xs : List α} (hi : lists[i]? = some (x :: l))
      (h : Weaves (lists.set i l) xs) : Weaves lists (x :: xs)

theorem exists_split {as : List α} {i : Nat} {a : α} (h : as[i]? = some a) :
    ∃ front back, as = front ++ a :: back ∧ ∀ b, as.set i b = front ++ b :: back := by
  obtain ⟨hlt, hget⟩ := List.getElem?_eq_some_iff.mp h
  refine ⟨as.take i, as.drop (i + 1), ?_, fun b => ?_⟩
  · rw [← hget, List.cons_getElem_drop_succ, List.take_append_drop]
  · rw [List.set_eq_take_append_cons_drop, if_pos hlt]

/-- Nothing is lost or repeated. -/
theorem Weaves.perm {lists : List (List α)} {xs : List α} (h : Weaves lists xs) :
    xs.Perm lists.flatten := by
  induction h with
  | done h => rw [List.flatten_eq_nil_iff.mpr h]
  | @next lists i x l xs hi _ ih =>
    obtain ⟨front, back, rfl, hset⟩ := exists_split hi
    rw [hset] at ih
    simp only [List.flatten_append, List.flatten_cons, List.cons_append] at ih ⊢
    exact (ih.cons x).trans List.perm_middle.symm

/-- Each list can be read off, if there is a mark on its elements that no others have. -/
theorem Weaves.filter_eq {lists : List (List α)} {xs : List α} (h : Weaves lists xs) {p : α → Bool}
    {i : Nat} {l : List α} (hi : lists[i]? = some l) (hmarked : ∀ x ∈ l, p x)
    (hothers : ∀ j k, lists[j]? = some k → j ≠ i → ∀ x ∈ k, p x = false) : xs.filter p = l := by
  induction h generalizing l with
  | done h => exact (h l (List.mem_of_getElem? hi)).symm
  | @next lists j x k xs hj _ ih =>
    have hlt := (List.getElem?_eq_some_iff.mp hj).1
    by_cases hij : i = j
    · subst hij
      obtain rfl := Option.some.inj (hi.symm.trans hj)
      rw [List.filter_cons_of_pos (hmarked x List.mem_cons_self),
        ih (List.getElem?_set_self hlt) (fun y hy => hmarked y (List.mem_cons_of_mem _ hy))]
      intro j' k' hj' hne
      rw [List.getElem?_set_ne (Ne.symm hne)] at hj'
      exact hothers j' k' hj' hne
    · have hx : p x = false := hothers j _ hj (Ne.symm hij) x List.mem_cons_self
      rw [List.filter_cons_of_neg (by rw [hx]; exact Bool.false_ne_true),
        ih (by rwa [List.getElem?_set_ne (Ne.symm hij)]) hmarked]
      intro j' k' hj' hne y hy
      by_cases hj'j : j' = j
      · subst hj'j
        rw [List.getElem?_set_self hlt, Option.some.injEq] at hj'
        subst hj'
        exact hothers j' _ hj hne y (List.mem_cons_of_mem _ hy)
      · rw [List.getElem?_set_ne (Ne.symm hj'j)] at hj'
        exact hothers j' k' hj' hne y hy

end Weaves

/-! ## Tasks -/

/-- How far the migration of a source has got. -/
inductive Stage where
  | waiting (content : Content)
  /-- Some diagnostics of the recipe before are still to be reported, then come more recipes. -/
  | migrating (source : String) (u : CompilationUnit) (revision : Revision CompilationUnit)
      (pending : List Diagnostic) (recipes : List RuleMigration)
  | done (result : Except RunFault (Option Change))

/-- A task migrates the source at a path. -/
structure Task where
  path : String
  stage : Stage

/-- The revision of a unit after one more recipe, and what the recipe reports. -/
def reviseBy (m : RuleMigration) (u : CompilationUnit) (revision : Revision CompilationUnit) :
    Revision CompilationUnit × List Diagnostic :=
  match m.run (revision.get u) with
  | (.kept, reports) => (revision, reports)
  | (.replaced new, reports) => (.replaced new, reports)

/-- What a revision of a source changes. -/
def changeOf (path source : String) : Revision CompilationUnit → Option Change
  | .kept => none
  | .replaced new => Change.between? path source new.print

namespace Task

/-- The diagnostic that the next step of a task reports, if it does, and the task after it. -/
def next? (recipes : List RuleMigration) : Task → Option (Option Diagnostic × Task)
  | ⟨path, .waiting .bytes⟩ => some (none, ⟨path, .done (.error (.unreadable path))⟩)
  | ⟨path, .waiting (.text source)⟩ =>
    match parse? (classpathOf recipes) path source with
    | none => some (none, ⟨path, .done (.error (.malformed path))⟩)
    | some u => some (none, ⟨path, .migrating source u .kept [] recipes⟩)
  | ⟨path, .migrating source u revision (d :: pending) rest⟩ =>
    some (some d, ⟨path, .migrating source u revision pending rest⟩)
  | ⟨path, .migrating source u revision [] (m :: rest)⟩ =>
    let (revision, reports) := reviseBy m u revision
    some (none, ⟨path, .migrating source u revision reports rest⟩)
  | ⟨path, .migrating source _ revision [] []⟩ =>
    some (none, ⟨path, .done (.ok (changeOf path source revision))⟩)
  | ⟨_, .done _⟩ => none

end Task

/-- All tasks of a run, and what they share. -/
structure Pool where
  tasks : List Task
  context : Context := {}

namespace Pool

/-- The tasks for some files, before the first step. -/
def start (files : List (String × Content)) : Pool :=
  { tasks := files.map fun f => ⟨f.1, .waiting f.2⟩ }

/-- One of the tasks takes its next step. -/
inductive Step (recipes : List RuleMigration) : Pool → Pool → Prop
  | task {tasks : List Task} {context : Context} {i : Nat} {t t' : Task} {report? : Option Diagnostic}
      (hi : tasks[i]? = some t) (hnext : t.next? recipes = some (report?, t')) :
      Step recipes ⟨tasks, context⟩ ⟨tasks.set i t', report?.elim context context.report⟩

/-- Some steps of tasks in any order. -/
abbrev Steps (recipes : List RuleMigration) : Pool → Pool → Prop := Relation.ReflTransGen (Step recipes)

end Pool

/-- What comes of a run whose tasks take their steps in some order: the fault of any task that has
one, or what the run at once makes of the changes, with the diagnostics as they were reported. -/
inductive Interleaved (s : Settings) (d : Directory) : Except RunFault Outcome → Prop
  | unselected {fault : SelectionFault} (h : s.selection.collect d = .error fault) :
      Interleaved s d (.error (.selection fault))
  | failed {files : List (String × Content)} {p : Pool} {t : Task} {fault : RunFault}
      (hfiles : s.selection.collect d = .ok files) (hsteps : Pool.Steps s.recipes (.start files) p)
      (ht : t ∈ p.tasks) (hdone : t.stage = .done (.error fault)) : Interleaved s d (.error fault)
  | finished {files : List (String × Content)} {p : Pool} {changes : List (Option Change)}
      (hfiles : s.selection.collect d = .ok files) (hsteps : Pool.Steps s.recipes (.start files) p)
      (hdone : p.tasks.map (·.stage) = changes.map fun c => .done (.ok c)) :
      Interleaved s d (.ok { outcomeOf s d (changes.map fun c => (c, [])) with
        diagnostics := p.context.takeDiagnostics.1 })

/-! ## What is ahead of a task -/

/-- The revision of a unit after some more recipes, and what they report. -/
def reviseAll (u : CompilationUnit) :
    Revision CompilationUnit → List RuleMigration → Revision CompilationUnit × List Diagnostic
  | revision, [] => (revision, [])
  | revision, m :: rest =>
    let (revision, reports) := reviseBy m u revision
    let (revision, more) := reviseAll u revision rest
    (revision, reports ++ more)

theorem reviseAll_eq (recipes : List RuleMigration) (u : CompilationUnit)
    (revision : Revision CompilationUnit) (reports : List Diagnostic) :
    recipes.foldl (fun (r, diagnostics) m =>
      match m.run (r.get u) with
      | (.kept, more) => (r, diagnostics ++ more)
      | (.replaced new, more) => (.replaced new, diagnostics ++ more)) (revision, reports) =
      ((reviseAll u revision recipes).1, reports ++ (reviseAll u revision recipes).2) := by
  induction recipes generalizing revision reports with
  | nil => simp [reviseAll]
  | cons m rest ih =>
    rw [List.foldl_cons, reviseAll, reviseBy]
    dsimp only
    split <;> rw [ih] <;> simp

theorem migrateAll_eq (recipes : List RuleMigration) (u : CompilationUnit) :
    migrateAll recipes u = reviseAll u .kept recipes :=
  reviseAll_eq recipes u .kept []

/-- What a run reports about a file. -/
def reportsOf (recipes : List RuleMigration) (f : String × Content) : List Diagnostic :=
  ((migrateSource recipes f.1 f.2).map (·.2)).toOption.getD []

namespace Task

/-- What a task will end with. -/
def result (recipes : List RuleMigration) : Task → Except RunFault (Option Change)
  | ⟨path, .waiting content⟩ => (migrateSource recipes path content).map (·.1)
  | ⟨path, .migrating source u revision _ rest⟩ =>
    .ok (changeOf path source (reviseAll u revision rest).1)
  | ⟨_, .done r⟩ => r

/-- What a task has still to report. -/
def reports (recipes : List RuleMigration) : Task → List Diagnostic
  | ⟨path, .waiting content⟩ => reportsOf recipes (path, content)
  | ⟨_, .migrating _ u revision pending rest⟩ => pending ++ (reviseAll u revision rest).2
  | ⟨_, .done _⟩ => []

/-- How many steps a task has still to take. -/
def work (recipes : List RuleMigration) : Task → Nat
  | ⟨path, .waiting content⟩ =>
    match migrateSource recipes path content with
    | .ok (_, reports) => recipes.length + reports.length + 2
    | .error _ => 1
  | ⟨_, .migrating _ u revision pending rest⟩ =>
    rest.length + pending.length + (reviseAll u revision rest).2.length + 1
  | ⟨_, .done _⟩ => 0

theorem migrateSource_of_malformed {recipes : List RuleMigration} {path source : String}
    (h : parse? (classpathOf recipes) path source = none) :
    migrateSource recipes path (.text source) = .error (.malformed path) := by
  simp only [migrateSource, h]

theorem migrateSource_of_parse? {recipes : List RuleMigration} {path source : String}
    {u : CompilationUnit} (h : parse? (classpathOf recipes) path source = some u) :
    migrateSource recipes path (.text source) =
      .ok (changeOf path source (reviseAll u .kept recipes).1, (reviseAll u .kept recipes).2) := by
  simp only [migrateSource, h, migrateAll_eq]
  rfl

/-- A step gets a task closer to the same result, and reports the first of what it has to report if
it reports anything. -/
theorem next?_eq_some {recipes : List RuleMigration} {t t' : Task} {report? : Option Diagnostic}
    (h : t.next? recipes = some (report?, t')) :
    t.result recipes = t'.result recipes ∧
      t.reports recipes = report?.toList ++ t'.reports recipes ∧
      t.work recipes = t'.work recipes + 1 := by
  obtain ⟨path, stage⟩ := t
  cases stage with
  | waiting content =>
    cases content with
    | bytes =>
      cases h
      exact ⟨rfl, rfl, rfl⟩
    | text source =>
      cases hparse : parse? (classpathOf recipes) path source with
      | none =>
        simp only [next?, hparse] at h
        obtain ⟨rfl, rfl⟩ := Prod.mk.inj (Option.some.inj h)
        simp only [result, reports, reportsOf, work, migrateSource_of_malformed hparse]
        exact ⟨rfl, rfl, trivial⟩
      | some u =>
        simp only [next?, hparse] at h
        obtain ⟨rfl, rfl⟩ := Prod.mk.inj (Option.some.inj h)
        simp only [result, reports, reportsOf, work, migrateSource_of_parse? hparse, List.length_nil]
        exact ⟨rfl, rfl, by omega⟩
  | migrating source u revision pending rest =>
    cases pending with
    | cons d pending =>
      cases h
      refine ⟨rfl, rfl, ?_⟩
      simp only [work, List.length_cons]
      omega
    | nil =>
      cases rest with
      | nil =>
        cases h
        exact ⟨rfl, rfl, rfl⟩
      | cons m rest =>
        change some (none, (⟨path, .migrating source u (reviseBy m u revision).1
          (reviseBy m u revision).2 rest⟩ : Task)) = _ at h
        obtain ⟨rfl, rfl⟩ := Prod.mk.inj (Option.some.inj h)
        refine ⟨rfl, rfl, ?_⟩
        simp only [work, reviseAll, List.length_cons, List.length_append, List.length_nil]
        omega
  | done r => cases h

theorem next?_eq_none {recipes : List RuleMigration} {t : Task} :
    t.next? recipes = none ↔ ∃ r, t.stage = .done r := by
  obtain ⟨path, stage⟩ := t
  cases stage with
  | waiting content =>
    cases content with
    | bytes => simp [next?]
    | text source =>
      simp only [next?]
      split <;> simp
  | migrating source u revision pending rest => cases pending <;> cases rest <;> simp [next?]
  | done r => simp [next?]

end Task

/-! ## What the steps of all tasks keep -/

namespace Pool

variable {recipes : List RuleMigration}

def work (recipes : List RuleMigration) (p : Pool) : Nat := (p.tasks.map (·.work recipes)).sum

/-- What all tasks will end with does not change, and what they report is woven from what each of
them has to report. -/
structure Advances (recipes : List RuleMigration) (p q : Pool) : Prop where
  results : p.tasks.map (·.result recipes) = q.tasks.map (·.result recipes)
  reports : ∃ new, q.context.diagnostics = p.context.diagnostics ++ new ∧
    ∀ later, Weaves (q.tasks.map (·.reports recipes)) later →
      Weaves (p.tasks.map (·.reports recipes)) (new ++ later)

theorem Advances.refl (p : Pool) : Advances recipes p p :=
  ⟨rfl, [], (List.append_nil _).symm, fun _ h => h⟩

theorem Advances.trans {p q r : Pool} (hpq : Advances recipes p q) (hqr : Advances recipes q r) :
    Advances recipes p r := by
  obtain ⟨new, hq, hnew⟩ := hpq.reports
  obtain ⟨more, hr, hmore⟩ := hqr.reports
  refine ⟨hpq.results.trans hqr.results, new ++ more, by rw [hr, hq, List.append_assoc], ?_⟩
  intro later hlater
  rw [List.append_assoc]
  exact hnew _ (hmore _ hlater)

theorem Step.advances {p q : Pool} (h : Step recipes p q) : Advances recipes p q := by
  obtain @⟨tasks, context, i, t, t', report?, hi, hnext⟩ := h
  obtain ⟨hresult, hreports, -⟩ := Task.next?_eq_some hnext
  constructor
  · obtain ⟨front, back, rfl, hset⟩ := exists_split hi
    simp only [hset, List.map_append, List.map_cons, hresult]
  · have hlists : (tasks.map (·.reports recipes))[i]? = some (report?.toList ++ t'.reports recipes) := by
      rw [List.getElem?_map, hi, Option.map_some, hreports]
    cases report? with
    | none =>
      refine ⟨[], (List.append_nil _).symm, fun later hlater => ?_⟩
      obtain ⟨front, back, hsplit, hset⟩ := exists_split hlists
      rw [List.map_set, hset] at hlater
      rwa [hsplit]
    | some d =>
      refine ⟨[d], rfl, fun later hlater => .next hlists ?_⟩
      rw [List.map_set] at hlater
      exact hlater

theorem Step.work_eq {p q : Pool} (h : Step recipes p q) : p.work recipes = q.work recipes + 1 := by
  obtain @⟨tasks, context, i, t, t', report?, hi, hnext⟩ := h
  obtain ⟨-, -, hwork⟩ := Task.next?_eq_some hnext
  obtain ⟨front, back, rfl, hset⟩ := exists_split hi
  simp only [work, hset, List.map_append, List.map_cons, List.sum_append, List.sum_cons, hwork]
  omega

theorem Steps.advances {p q : Pool} (h : Steps recipes p q) : Advances recipes p q := by
  induction h with
  | refl => exact .refl p
  | tail _ hstep ih => exact ih.trans hstep.advances

/-- Every task is done. -/
def IsDone (p : Pool) : Prop := ∀ t ∈ p.tasks, ∃ r, t.stage = .done r

/-- Some task can take a step, unless all are done. -/
theorem exists_step {p : Pool} (h : ¬p.IsDone) : ∃ q, Step recipes p q := by
  unfold IsDone at h
  push Not at h
  obtain ⟨t, ht, hstage⟩ := h
  obtain ⟨i, hi⟩ := List.mem_iff_getElem?.mp ht
  cases hnext : t.next? recipes with
  | none =>
    obtain ⟨r, hr⟩ := Task.next?_eq_none.mp hnext
    exact absurd hr (hstage r)
  | some step => exact ⟨_, .task hi hnext⟩

/-- However the first steps were taken, the tasks get done. -/
theorem exists_done (p : Pool) : ∃ q, Steps recipes p q ∧ q.IsDone := by
  induction hwork : p.work recipes using Nat.strong_induction_on generalizing p with
  | h n ih =>
    by_cases hdone : p.IsDone
    · exact ⟨p, .refl, hdone⟩
    · obtain ⟨q, hstep⟩ := exists_step hdone
      have hless : q.work recipes < n := by
        rw [← hwork, hstep.work_eq]
        exact Nat.lt_succ_self _
      obtain ⟨r, hsteps, hr⟩ := ih _ hless q rfl
      exact ⟨r, .head hstep hsteps, hr⟩

end Pool

/-! ## The paths of diagnostics -/

theorem path_of_mem_run {m : RuleMigration} {u : CompilationUnit} :
    ((m.run u).1.get u).path = u.path ∧ ∀ d ∈ (m.run u).2, d.path = u.path := by
  unfold RuleMigration.run
  split
  · refine ⟨(m.shifted_migrate u).2.path_eq, ?_⟩
    rw [RuleMigration.migrate_eq, RuleMigration.diagnostics_eq_reports]
    intro d hd
    obtain ⟨t, -, hreport⟩ := List.mem_filterMap.mp hd
    obtain ⟨fault, -, rfl⟩ := Option.map_eq_some_iff.mp hreport
    rfl
  · exact ⟨rfl, fun d hd => absurd hd List.not_mem_nil⟩

theorem path_of_mem_reviseBy {m : RuleMigration} {u : CompilationUnit}
    {revision : Revision CompilationUnit} (h : (revision.get u).path = u.path) :
    ((reviseBy m u revision).1.get u).path = u.path ∧
      ∀ d ∈ (reviseBy m u revision).2, d.path = u.path := by
  obtain ⟨hpath, hreports⟩ := path_of_mem_run (m := m) (u := revision.get u)
  rw [h] at hpath hreports
  unfold reviseBy
  split
  · next reports hrun =>
    rw [hrun] at hreports
    exact ⟨h, hreports⟩
  · next new reports hrun =>
    rw [hrun] at hpath hreports
    exact ⟨hpath, hreports⟩

theorem path_of_mem_reviseAll {u : CompilationUnit} {revision : Revision CompilationUnit}
    {recipes : List RuleMigration} (h : (revision.get u).path = u.path) :
    ∀ d ∈ (reviseAll u revision recipes).2, d.path = u.path := by
  induction recipes generalizing revision with
  | nil => exact fun d hd => absurd hd List.not_mem_nil
  | cons m rest ih =>
    obtain ⟨hpath, hreports⟩ := path_of_mem_reviseBy (m := m) h
    intro d hd
    rcases List.mem_append.mp hd with hd | hd
    · exact hreports d hd
    · exact ih hpath d hd

/-- What is reported about a file names its path. -/
theorem path_of_mem_reportsOf {recipes : List RuleMigration} {f : String × Content} {d : Diagnostic}
    (h : d ∈ reportsOf recipes f) : d.path = f.1 := by
  obtain ⟨path, content⟩ := f
  simp only [reportsOf] at h
  cases content with
  | bytes => cases h
  | text source =>
    cases hparse : parse? (classpathOf recipes) path source with
    | none =>
      rw [Task.migrateSource_of_malformed hparse] at h
      cases h
    | some u =>
      rw [Task.migrateSource_of_parse? hparse] at h
      obtain ⟨parts, -, hu⟩ := Option.map_eq_some_iff.mp hparse
      have hpath : u.path = path := by
        rw [← hu]
        rfl
      exact (path_of_mem_reviseAll rfl d h).trans hpath

/-! ## Any order -/

/-- The reports of the tasks are woven from those about each file. -/
theorem weaves_reports {recipes : List RuleMigration} {files : List (String × Content)} {p : Pool}
    (h : Pool.Steps recipes (.start files) p) (hdone : p.IsDone) :
    Weaves (files.map (reportsOf recipes)) p.context.diagnostics := by
  obtain ⟨new, hnew, hweaves⟩ := h.advances.reports
  have hnothing : Weaves (p.tasks.map (·.reports recipes)) [] := by
    refine .done fun l hl => ?_
    obtain ⟨⟨path, stage⟩, ht, rfl⟩ := List.mem_map.mp hl
    obtain ⟨r, hr⟩ := hdone _ ht
    obtain rfl : stage = .done r := hr
    rfl
  have hall := hweaves [] hnothing
  rw [List.append_nil] at hall
  rw [Pool.start, List.map_map] at hall
  rw [hnew]
  exact hall

/-- The tasks end with what becomes of each file. -/
theorem results_of_steps {recipes : List RuleMigration} {files : List (String × Content)} {p : Pool}
    (h : Pool.Steps recipes (.start files) p) :
    p.tasks.map (·.result recipes) = files.map fun f => (migrateSource recipes f.1 f.2).map (·.1) := by
  rw [← h.advances.results, Pool.start, List.map_map]
  rfl

theorem exists_results {α β ε : Type} {g : α → Except ε (β × List Diagnostic)} {as : List α} {bs : List β}
    (h : as.map (fun a => (g a).map (·.1)) = bs.map .ok) :
    ∃ rs : List (β × List Diagnostic), as.map g = rs.map .ok ∧ rs.map (·.1) = bs := by
  induction as generalizing bs with
  | nil =>
    obtain rfl := List.map_eq_nil_iff.mp h.symm
    exact ⟨[], rfl, rfl⟩
  | cons a as ih =>
    cases bs with
    | nil => cases h
    | cons b bs =>
      obtain ⟨ha, has⟩ := List.cons.inj h
      obtain ⟨rs, hrs, hbs⟩ := ih has
      dsimp only at ha
      cases hg : g a with
      | error e =>
        rw [hg] at ha
        cases ha
      | ok r =>
        rw [hg] at ha
        refine ⟨r :: rs, by rw [List.map_cons, hg, hrs]; rfl, ?_⟩
        exact List.cons_eq_cons.mpr ⟨Except.ok.inj ha, hbs⟩

theorem results_of_stages {recipes : List RuleMigration} {tasks : List Task}
    {rs : List (Except RunFault (Option Change))} (h : tasks.map (·.stage) = rs.map .done) :
    tasks.map (·.result recipes) = rs := by
  induction tasks generalizing rs with
  | nil => exact (List.map_eq_nil_iff.mp h.symm).symm
  | cons t ts ih =>
    cases rs with
    | nil => cases h
    | cons r rs =>
      obtain ⟨ht, hts⟩ := List.cons.inj h
      obtain ⟨path, stage⟩ := t
      obtain rfl : stage = .done r := ht
      rw [List.map_cons, ih hts]
      rfl

theorem reports_of_results {recipes : List RuleMigration} {files : List (String × Content)}
    {results : List (Option Change × List Diagnostic)}
    (h : files.map (fun f => migrateSource recipes f.1 f.2) = results.map .ok) :
    files.flatMap (reportsOf recipes) = results.flatMap (·.2) := by
  have hlists := congrArg (List.map fun r => (r.map (·.2)).toOption.getD ([] : List Diagnostic)) h
  rw [List.map_map, List.map_map] at hlists
  exact congrArg List.flatten hlists

/-- In every order that gets all tasks done there is the same outcome, but for the order of the
diagnostics. -/
theorem outcome_of_interleaved {s : Settings} {d : Directory} {o : Outcome}
    (h : Interleaved s d (.ok o)) :
    ∃ files whole, s.selection.collect d = .ok files ∧ run s d = .ok whole ∧
      o = { whole with diagnostics := o.diagnostics } ∧
      whole.diagnostics = files.flatMap (reportsOf s.recipes) ∧
      Weaves (files.map (reportsOf s.recipes)) o.diagnostics := by
  obtain _ | _ | @⟨files, p, changes, hfiles, hsteps, hstages⟩ := h
  have hdone : p.IsDone := by
    intro t ht
    obtain ⟨c, -, hc⟩ := List.mem_map.mp (hstages ▸ List.mem_map_of_mem (f := Task.stage) ht)
    exact ⟨.ok c, hc.symm⟩
  have hended : p.tasks.map (·.result s.recipes) = changes.map .ok :=
    results_of_stages (hstages.trans List.map_map.symm)
  rw [results_of_steps hsteps] at hended
  obtain ⟨results, hresults, rfl⟩ := exists_results hended
  refine ⟨files, outcomeOf s d results, hfiles,
    run_eq_ok_iff.mpr ⟨files, results, hfiles, mapM_eq_ok_iff.mpr hresults, rfl⟩, ?_,
    (reports_of_results hresults).symm, weaves_reports hsteps hdone⟩
  have hsources : (results.map fun r => (r.1, ([] : List Diagnostic))).filterMap (·.1) =
      results.filterMap (·.1) := by
    rw [List.filterMap_map]
    rfl
  simp only [outcomeOf, List.map_map, Function.comp_def, hsources]

/-- What is reported about each file can be read off a list woven from the reports. -/
theorem filter_path_of_weaves {recipes : List RuleMigration} {files : List (String × Content)}
    (hpaths : (files.map (·.1)).Nodup) {reports : List Diagnostic}
    (h : Weaves (files.map (reportsOf recipes)) reports) {f : String × Content} (hf : f ∈ files) :
    reports.filter (·.path = f.1) = reportsOf recipes f := by
  obtain ⟨i, hi⟩ := List.mem_iff_getElem?.mp hf
  refine h.filter_eq (i := i) (by rw [List.getElem?_map, hi]; rfl) ?_ ?_
  · intro x hx
    exact decide_eq_true (path_of_mem_reportsOf hx)
  · intro j l hj hne x hx
    obtain ⟨g, hg, rfl⟩ := Option.map_eq_some_iff.mp (List.getElem?_map.symm.trans hj)
    refine decide_eq_false fun hsame => hne ?_
    have hpath : (files.map (·.1))[j]? = (files.map (·.1))[i]? := by
      rw [List.getElem?_map, List.getElem?_map, hg, hi, Option.map_some, Option.map_some, ← hsame,
        path_of_mem_reportsOf hx]
    have hlt : j < (files.map (·.1)).length := by
      rw [List.length_map]
      exact (List.getElem?_eq_some_iff.mp hg).1
    exact (List.getElem?_inj hlt hpaths).mp hpath

/-- A fault that stops a run in some order is that of the selection or of a selected file. -/
theorem fault_of_interleaved {s : Settings} {d : Directory} {fault : RunFault}
    (h : Interleaved s d (.error fault)) :
    (∃ f, s.selection.collect d = .error f ∧ fault = .selection f) ∨
      ∃ files, s.selection.collect d = .ok files ∧
        ∃ f ∈ files, migrateSource s.recipes f.1 f.2 = .error fault := by
  obtain @⟨f, hselected⟩ | @⟨files, p, t, _, hfiles, hsteps, ht, hdone⟩ := h
  · exact .inl ⟨f, hselected, rfl⟩
  · refine .inr ⟨files, hfiles, ?_⟩
    have hresult : t.result s.recipes = .error fault := by
      obtain ⟨path, stage⟩ := t
      obtain rfl : stage = .done (.error fault) := hdone
      rfl
    have hmem : .error fault ∈ p.tasks.map (·.result s.recipes) :=
      hresult ▸ List.mem_map_of_mem (f := (·.result s.recipes)) ht
    rw [results_of_steps hsteps] at hmem
    obtain ⟨f, hf, hfault⟩ := List.mem_map.mp hmem
    refine ⟨f, hf, ?_⟩
    cases hsource : migrateSource s.recipes f.1 f.2 with
    | error e =>
      rw [hsource] at hfault
      exact congrArg Except.error (Except.error.inj hfault)
    | ok r =>
      rw [hsource] at hfault
      cases hfault

theorem exists_changes {tasks : List Task} (h : ∀ t ∈ tasks, ∃ c, t.stage = .done (.ok c)) :
    ∃ changes : List (Option Change), tasks.map (·.stage) = changes.map fun c => .done (.ok c) := by
  induction tasks with
  | nil => exact ⟨[], rfl⟩
  | cons t ts ih =>
    obtain ⟨⟨c, hc⟩, hts⟩ := List.forall_mem_cons.mp h
    obtain ⟨cs, hcs⟩ := ih hts
    exact ⟨c :: cs, by rw [List.map_cons, hc, hcs]; rfl⟩

/-- A run comes to an end in some order. -/
theorem exists_interleaved (s : Settings) (d : Directory) : ∃ r, Interleaved s d r := by
  cases hfiles : s.selection.collect d with
  | error fault => exact ⟨_, .unselected hfiles⟩
  | ok files =>
    obtain ⟨p, hsteps, hdone⟩ : ∃ p, Pool.Steps s.recipes (.start files) p ∧ p.IsDone :=
      Pool.exists_done (.start files)
    by_cases hfault : ∃ t ∈ p.tasks, ∃ fault, t.stage = .done (.error fault)
    · obtain ⟨t, ht, fault, hstage⟩ := hfault
      exact ⟨_, .failed hfiles hsteps ht hstage⟩
    · have hchanges : ∀ t ∈ p.tasks, ∃ c, t.stage = .done (.ok c) := by
        intro t ht
        obtain ⟨fault | c, hr⟩ := hdone t ht
        · exact absurd ⟨t, ht, fault, hr⟩ hfault
        · exact ⟨c, hr⟩
      obtain ⟨changes, hall⟩ := exists_changes hchanges
      exact ⟨_, .finished hfiles hsteps hall⟩

/-- The order in which the sources of a project are migrated makes no difference but to the order of
the diagnostics. Whatever the order, a run comes to an end; it ends with a fault if and only if the
run at once does. Otherwise it has the same changes, reports and summary as the run at once, and its
diagnostics are those about each file, none lost or repeated, with those about a file in their order. -/
theorem order_of_steps_is_irrelevant (s : Settings) (d : Directory) (hpaths : d.paths.Nodup) :
    (∃ r, Interleaved s d r) ∧
    (∀ fault, Interleaved s d (.error fault) → ∃ first, run s d = .error first) ∧
    ∀ o, Interleaved s d (.ok o) → ∃ files whole,
      s.selection.collect d = .ok files ∧ run s d = .ok whole ∧
      o.sources = whole.sources ∧ o.actions = whole.actions ∧ o.files = whole.files ∧
      o.summary = whole.summary ∧
      o.diagnostics.Perm (files.flatMap (reportsOf s.recipes)) ∧
      whole.diagnostics = files.flatMap (reportsOf s.recipes) ∧
      ∀ f ∈ files, o.diagnostics.filter (·.path = f.1) = reportsOf s.recipes f := by
  refine ⟨exists_interleaved s d, fun fault h => ?_, fun o h => ?_⟩
  · rcases fault_of_interleaved h with ⟨f, hselected, rfl⟩ | ⟨files, hfiles, f, hf, hfault⟩
    · exact ⟨_, run_eq_error_iff.mpr (.inl ⟨f, hselected, rfl⟩)⟩
    · exact exists_fault_of_mem hfiles hf hfault
  · obtain ⟨files, whole, hfiles, hrun, ho, hdiagnostics, hweaves⟩ := outcome_of_interleaved h
    refine ⟨files, whole, hfiles, hrun, ?_, ?_, ?_, ?_, hweaves.perm, hdiagnostics,
      fun f hf => filter_path_of_weaves (nodup_of_collect hfiles hpaths) hweaves hf⟩
    all_goals
      rw [ho]
    rfl

/-! ## Two classes that cannot be migrated -/

/-- A recipe whose new method has no place for the field. -/
def failingRecipe : RuleMigration :=
  let m := RuleMigration.ordinary RuleMigration.shortConfig
  { m with newMethod := { m.newMethod with placeholders := [] } }

def failing : Settings := { recipes := [failingRecipe] }

def twoSources : Directory :=
  ⟨[("A.java", .text "class A \x7b @a.R b.S s; \x7d"), ("B.java", .text "class B \x7b @a.R b.S s; \x7d")]⟩

/-- Whether both sources are selected, and the recipe reports both classes. -/
def reportsBoth : Bool :=
  (match Selection.javaSources.filter? with
    | .ok filter => twoSources.files.filter (fun f => filter.accepts f.1 f.2) == twoSources.files
    | .error _ => false) &&
  (match twoSources.files.mapM fun f => migrateSource [failingRecipe] f.1 f.2 with
    | .ok results => results.flatMap (fun r => r.2.map fun d => (d.path, d.declaration)) ==
        [("A.java", "A"), ("B.java", "B")]
    | .error _ => false)

set_option maxRecDepth 100000 in
theorem reportsBoth_holds : reportsBoth := by decide +kernel

theorem collect_twoSources : Selection.javaSources.collect twoSources = .ok twoSources.files := by
  obtain ⟨hselected, -⟩ := Bool.and_eq_true_iff.mp reportsBoth_holds
  unfold Selection.collect
  split at hselected
  · next filter hfilter =>
    rw [hfilter]
    refine congrArg Except.ok ?_
    show (twoSources.files.filter fun f => filter.accepts f.1 f.2).mergeSort _ = _
    rw [beq_iff_eq.mp hselected]
    exact List.mergeSort_of_pairwise (by decide)
  · cases hselected

theorem run_twoSources : ∃ o, run failing twoSources = .ok o ∧
    (o.diagnostics.map fun d => (d.path, d.declaration)) = [("A.java", "A"), ("B.java", "B")] := by
  obtain ⟨-, hreports⟩ := Bool.and_eq_true_iff.mp reportsBoth_holds
  split at hreports
  · next results hresults =>
    refine ⟨outcomeOf failing twoSources results,
      run_eq_ok_iff.mpr ⟨twoSources.files, results, collect_twoSources, hresults, rfl⟩, ?_⟩
    rw [← beq_iff_eq.mp hreports, ← List.map_flatMap]
    rfl
  · cases hreports

theorem two_reports_in_any_order :
    twoSources.paths.Nodup ∧ (∃ o, Interleaved failing twoSources (.ok o)) ∧
    ∀ o, Interleaved failing twoSources (.ok o) →
      (o.diagnostics.map fun d => (d.path, d.declaration)).Perm [("A.java", "A"), ("B.java", "B")] := by
  have hpaths : twoSources.paths.Nodup := by decide
  obtain ⟨⟨r, hr⟩, hfault, hsame⟩ := order_of_steps_is_irrelevant failing twoSources hpaths
  obtain ⟨o', hrun, hreports⟩ := run_twoSources
  refine ⟨hpaths, ?_, fun o ho => ?_⟩
  · cases r with
    | error fault =>
      obtain ⟨first, hfirst⟩ := hfault fault hr
      rw [hrun] at hfirst
      cases hfirst
    | ok o => exact ⟨o, hr⟩
  · obtain ⟨files, whole, -, hwhole, -, -, -, -, hperm, hdiagnostics, -⟩ := hsame o ho
    obtain rfl := Except.ok.inj (hrun.symm.trans hwhole)
    rw [← hdiagnostics] at hperm
    rw [← hreports]
    exact hperm.map _

end JavaMigration.Project
