import JavaMigration.Proofs.Java.Built
import JavaMigration.Proofs.Recipe.Failure
import JavaMigration.Proofs.Recipe.NewNames

/-!
# Methods of one name

A generated method is named by the settings, whatever the methods of the type are named. A run adds
no second method of one name without parameters to a type exactly as long as the generated code
keeps apart from the members that are there (`run_keeps_nullary_distinct`); nothing sees to that
(`new_method_repeats_name`).
-/

namespace JavaMigration.Source

/-! ## Methods without parameters -/

/-- Whether there is nothing but space between the parentheses behind the name of a method. -/
def MethodDecl.isNullary (d : MethodDecl) : Bool :=
  (Java.lex d.parameters).any fun read => read.1.map (·.text) == ["(", ")"]

def Statement.nullaryName? : Statement → Option String
  | .method d => if d.isNullary then some d.name.name else none
  | _ => none

/-- The names of the methods without parameters among some members. -/
def nullaryNames (ss : List Statement) : List String := ss.filterMap Statement.nullaryName?

/-- No type in the statements, at whatever depth, declares two methods of one name without
parameters. -/
def NullaryDistinct (ss : List Statement) : Prop :=
  ∀ d ∈ allTypesOf ss, (nullaryNames d.body.statements).Nodup

instance (ss : List Statement) : Decidable (NullaryDistinct ss) :=
  inferInstanceAs (Decidable (∀ d ∈ allTypesOf ss, _))

theorem nullaryNames_append (ss ts : List Statement) :
    nullaryNames (ss ++ ts) = nullaryNames ss ++ nullaryNames ts := List.filterMap_append

theorem nullaryDistinct_append {ss ts : List Statement} :
    NullaryDistinct (ss ++ ts) ↔ NullaryDistinct ss ∧ NullaryDistinct ts := by
  rw [NullaryDistinct, allTypesOf_append, List.forall_mem_append]
  rfl

theorem nullaryDistinct_cons {s : Statement} {rest : List Statement} :
    NullaryDistinct (s :: rest) ↔
      (∀ d ∈ s.allTypes, (nullaryNames d.body.statements).Nodup) ∧ NullaryDistinct rest := by
  rw [NullaryDistinct, allTypesOf_cons, List.forall_mem_append]
  rfl

theorem nullaryDistinct_type {d : TypeDecl} {rest : List Statement} :
    NullaryDistinct (.type d :: rest) ↔
      NullaryDistinct d.body.statements ∧ (nullaryNames d.body.statements).Nodup ∧
        NullaryDistinct rest := by
  rw [nullaryDistinct_cons, Statement.allTypes_type, List.forall_mem_append,
    List.forall_mem_singleton, and_assoc]
  rfl

theorem nullaryDistinct_method {d : MethodDecl} {b : Block} {rest : List Statement}
    (hb : d.body = some b) :
    NullaryDistinct (.method d :: rest) ↔ NullaryDistinct b.statements ∧ NullaryDistinct rest := by
  rw [nullaryDistinct_cons, Statement.allTypes_method hb]
  rfl

/-! ## Layout does not matter -/

theorem Statement.nullaryName?_bare (s : Statement) : s.bare.nullaryName? = s.nullaryName? := by
  cases s with
  | method d =>
    show (Statement.method d.bare).nullaryName? = _
    rw [MethodDecl.bare_eq]
    rfl
  | _ => rfl

theorem nullaryNames_of_bare_eq {ss ts : List Statement}
    (h : ts.map Statement.bare = ss.map Statement.bare) : nullaryNames ts = nullaryNames ss := by
  have hbare : ∀ us : List Statement, nullaryNames us = nullaryNames (us.map Statement.bare) := by
    intro us
    unfold nullaryNames
    rw [List.filterMap_map]
    exact List.filterMap_congr fun s _ => s.nullaryName?_bare.symm
  rw [hbare ts, h, ← hbare ss]

theorem allTypesOf_bareAll (ss : List Statement) :
    allTypesOf (bareAll ss) = (allTypesOf ss).map TypeDecl.bare := by
  induction ss using statements_induction with
  | nil => rfl
  | type d rest hbody hrest =>
    have hbare : d.bare.body.statements = bareAll d.body.statements := by
      rw [TypeDecl.bare_eq, Block.bare_eq, bareAll_eq_map]
    rw [bareAll, Statement.bare, allTypesOf_cons, allTypesOf_cons, Statement.allTypes_type,
      Statement.allTypes_type, hbare, hbody, hrest, List.map_append, List.map_append]
    rfl
  | method d b rest hb hbody hrest =>
    have hbare : d.bare.body = some b.bare := by rw [MethodDecl.bare_eq, hb, Option.map_some]
    rw [bareAll, Statement.bare, allTypesOf_cons, allTypesOf_cons, Statement.allTypes_method hbare,
      Statement.allTypes_method hb, Block.bare_eq, ← bareAll_eq_map, hbody, hrest, List.map_append]
  | signature d rest hb hrest =>
    have hbare : d.bare.body = none := by rw [MethodDecl.bare_eq, hb, Option.map_none]
    rw [bareAll, Statement.bare, allTypesOf_cons, allTypesOf_cons,
      Statement.allTypes_signature hbare, Statement.allTypes_signature hb, hrest, List.map_append,
      List.map_nil]
  | vars d rest hrest => exact hrest
  | call c rest hrest => exact hrest
  | raw r rest hrest => exact hrest

theorem NullaryDistinct.of_bare_eq {ss ts : List Statement} (h : NullaryDistinct ss)
    (hbare : ts.map Statement.bare = ss.map Statement.bare) : NullaryDistinct ts := by
  have htypes : (allTypesOf ts).map TypeDecl.bare = (allTypesOf ss).map TypeDecl.bare := by
    rw [← allTypesOf_bareAll, ← allTypesOf_bareAll, bareAll_eq_map, bareAll_eq_map, hbare]
  intro d hd
  have hmem : d.bare ∈ (allTypesOf ss).map TypeDecl.bare := htypes ▸ List.mem_map_of_mem hd
  obtain ⟨e, he, heq⟩ := List.mem_map.mp hmem
  have hmembers : d.body.statements.map Statement.bare = e.body.statements.map Statement.bare := by
    have hblocks := congrArg (·.body.statements) heq
    simpa only [TypeDecl.bare_eq, Block.bare_eq] using hblocks.symm
  rw [nullaryNames_of_bare_eq hmembers]
  exact h e he

theorem Block.ExtendedBy.nullaryNames_eq {before after : Block} {new : List Statement}
    (h : before.ExtendedBy new after) :
    nullaryNames after.statements = nullaryNames before.statements ++ nullaryNames new := by
  obtain ⟨added, close, rfl, hbare, -, -⟩ := h
  rw [nullaryNames_append, nullaryNames_of_bare_eq hbare]

theorem Block.ExtendedBy.nullaryDistinct {before after : Block} {new : List Statement}
    (h : before.ExtendedBy new after) (hbefore : NullaryDistinct before.statements)
    (hnew : NullaryDistinct new) : NullaryDistinct after.statements := by
  obtain ⟨added, close, rfl, hbare, -, -⟩ := h
  exact nullaryDistinct_append.mpr ⟨hbefore, hnew.of_bare_eq hbare⟩

theorem Shifted.nullaryDistinct {ss ts : List Statement} (hshifted : Shifted ss ts)
    (h : NullaryDistinct ss) : NullaryDistinct ts := by
  refine h.of_bare_eq ?_
  cases ss with
  | nil =>
    cases hshifted
    rfl
  | cons s rest =>
    obtain ⟨lead, -, rfl⟩ := hshifted
    rw [List.map_cons, List.map_cons, Statement.bare_withLead]

end JavaMigration.Source

namespace JavaMigration.Recipe

open Java Source Match Edit

namespace RuleMigration

/-! ## Generated code that keeps apart -/

/-- The variable that a type closes, the first one of the last rule declaration of its own. -/
def closedVariable? (m : RuleMigration) (d : TypeDecl) : Option Identifier :=
  (d.ownVars.filter m.isRuleField).getLast?.bind closedName

/-- The code that closes the variable of a type brings no second method of one name without
parameters: new members are named otherwise than those the type has, and the types within the code
repeat no name themselves. -/
def KeepsApart (m : RuleMigration) (d : TypeDecl) : Prop :=
  ∀ v ∈ m.closedVariable? d,
    if d.body.statements.any m.isAfter then
      ∀ new ∈ m.closeStatement.asStatements? [.identifier v], NullaryDistinct new
    else
      ∀ new ∈ m.newMethod.asMembers? [.identifier v],
        (nullaryNames d.body.statements ++ nullaryNames new).Nodup ∧ NullaryDistinct new

variable {m : RuleMigration}

/-! ## What a migration does to names -/

theorem nullaryName?_rewrite (above : List Node) (s : Statement) :
    ((m.rewrite above s).get s).nullaryName? = s.nullaryName? := by
  cases s with
  | type d =>
    have hget : (m.rewrite above (.type d)).get (.type d) = .type ((m.rewriteType above d).get d) :=
      Revision.get_map
    rw [hget]
    rfl
  | method d =>
    cases hb : d.body with
    | none => rw [get_rewrite_signature hb]
    | some b =>
      rw [get_rewrite_method hb]
      rfl
  | vars d =>
    have hget : (m.rewrite above (.vars d)).get (.vars d) = .vars ((m.rewriteVars d).get d) :=
      Revision.get_map
    rw [hget]
    rfl
  | call c => rfl
  | raw r => rfl

theorem nullaryNames_rewriteAll (above : List Node) (ss : List Statement) :
    nullaryNames ((m.rewriteAll above ss).get ss) = nullaryNames ss := by
  unfold nullaryNames
  rw [get_rewriteAll, List.filterMap_map]
  exact List.filterMap_congr fun s _ => nullaryName?_rewrite above s

theorem nullaryNames_visitedType (above : List Node) (d : TypeDecl) :
    nullaryNames (m.visitedType above d).body.statements = nullaryNames d.body.statements := by
  rw [visitedType, statements_rewriteBlock, nullaryNames_rewriteAll]

/-- What a regular type finds, in terms of its declarations. -/
theorem found_of_regular {d : TypeDecl} (h : d.Regular) :
    fieldFound (m.findingsInBlock d.body) = m.closedVariable? d ∧
      (methodFound (m.findingsInBlock d.body)).isSome = d.body.statements.any m.isAfter := by
  constructor
  · rw [closedVariable?]
    obtain ⟨hnil, hnone⟩ | ⟨rule, v, more, hlast, hdeclarators, hfound⟩ := m.fieldFound_cases h
    · rw [hnone, hnil]
      rfl
    · rw [hfound, hlast, Option.bind_some, closedName, hdeclarators]
      rfl
  · rw [m.methodFound_findingsInBlock h, List.getLast?_map, Option.isSome_map, Bool.eq_iff_iff,
      List.getLast?_isSome, List.any_eq_true]
    simp [List.filter_eq_nil_iff]

/-- A type that closes its variable repeats no name, if the members it has when they have been
visited repeat none and the code keeps apart from them. -/
theorem nullaryDistinct_closeField {above : List Node} {d e : TypeDecl} {v : Identifier}
    {imports : List String} (hregular : d.Regular) (hapart : m.KeepsApart d)
    (hfield : fieldFound (m.findingsInBlock d.body) = some v)
    (hclose : m.closeField (m.visitedType above d) v (methodFound (m.findingsInBlock d.body))
      (Cursor.ofPath (.type (m.visitedType above d) :: above) : Cursor Finding) = .ok (e, imports))
    (hnames : (nullaryNames d.body.statements).Nodup)
    (hmembers : NullaryDistinct (m.visitedType above d).body.statements) :
    NullaryDistinct e.body.statements ∧ (nullaryNames e.body.statements).Nodup := by
  obtain ⟨hvariable, hmethod⟩ := m.found_of_regular hregular
  have hcode := hapart v (hvariable ▸ hfield)
  rw [← nullaryNames_visitedType above d] at hnames hcode
  rw [← hmethod] at hcode
  cases hfound : methodFound (m.findingsInBlock d.body) with
  | none =>
    rw [hfound] at hclose
    rw [hfound, if_neg (by simp)] at hcode
    obtain ⟨new, hnew, -, rfl⟩ := closeField_none (by rw [Cursor.path_ofPath]; rfl) hclose
    obtain ⟨hdistinct, hinside⟩ := hcode new hnew
    constructor
    · exact (Layout.extendedBy_extend _ _ _ _ _ _).nullaryDistinct hmembers hinside
    · exact (Layout.extendedBy_extend _ _ _ _ _ _).nullaryNames_eq ▸ hdistinct
  | some id =>
    rw [hfound] at hclose
    rw [hfound, if_pos (by simp)] at hcode
    obtain ⟨rfl, -⟩ | ⟨front, a, back, old, new, throws, hsplit, hold, hnew, -, rfl⟩ :=
      closeField_some hclose
    · exact ⟨hmembers, hnames⟩
    · rw [hsplit] at hmembers hnames
      obtain ⟨hfront, hrest⟩ := nullaryDistinct_append.mp hmembers
      obtain ⟨ha, hback⟩ := (nullaryDistinct_method hold).mp hrest
      refine ⟨nullaryDistinct_append.mpr ⟨hfront, (nullaryDistinct_method rfl).mpr ⟨?_, hback⟩⟩, ?_⟩
      · exact (Layout.extendedBy_extend _ _ _ _ _ _).nullaryDistinct ha (hcode new hnew)
      · -- The method is named as before.
        rw [nullaryNames_append] at hnames ⊢
        exact hnames

/-- The code at each site keeps apart from the members there, unless a type there or around fails. -/
def AllKeepApart (m : RuleMigration) (sites : List (List Node × TypeDecl)) : Prop :=
  ∀ site ∈ sites, m.underFailure site.1 = false →
    (∃ closed, m.outcome site.1 site.2 = some (.ok closed)) → m.KeepsApart site.2

theorem nullaryDistinct_rewriteType {above : List Node} {d : TypeDecl} (hregular : d.Regular)
    (hunder : m.underFailure above = false)
    (hapart : (∃ closed, m.outcome above d = some (.ok closed)) → m.KeepsApart d)
    (hmembers : NullaryDistinct d.body.statements)
    (hnames : (nullaryNames d.body.statements).Nodup)
    (hvisited : m.underFailure (.type d :: above) = false →
      NullaryDistinct (m.visitedType above d).body.statements) :
    let e := (m.rewriteType above d).get d
    NullaryDistinct e.body.statements ∧ (nullaryNames e.body.statements).Nodup := by
  intro e
  have hnotUnder (hfault : fault? (m.outcome above d) = none) :
      m.underFailure (.type d :: above) = false := by
    rw [underFailure, hfault, hunder]
    rfl
  obtain ⟨hout, hget⟩ | ⟨fault, -, hget⟩ | ⟨v, imports, closed, hout, hfield, hclose, hget⟩ :=
    m.rewriteType_cases above d
  · rw [show e = m.visitedType above d from hget]
    refine ⟨hvisited (hnotUnder (by rw [hout]; rfl)), ?_⟩
    rw [nullaryNames_visitedType]
    exact hnames
  · have hkept : e = d := by
      unfold e
      rw [hget]
      rfl
    rw [hkept]
    exact ⟨hmembers, hnames⟩
  · rw [show e = closed from hget]
    exact nullaryDistinct_closeField hregular (hapart ⟨_, hout⟩) hfield hclose hnames
      (hvisited (hnotUnder (by rw [hout]; rfl)))

/-- What becomes of statements repeats no name, if they repeat none and all code keeps apart. -/
theorem nullaryDistinct_rewriteAll (ss : List Statement) (above : List Node)
    (hregular : ∀ s ∈ ss, s.Regular) (hunder : m.underFailure above = false)
    (hapart : m.AllKeepApart (sitesOf above ss)) (h : NullaryDistinct ss) :
    NullaryDistinct ((m.rewriteAll above ss).get ss) := by
  induction ss using statements_induction generalizing above with
  | nil => exact h
  | type d rest hbody hrest =>
    obtain ⟨hd, hrestRegular⟩ := List.forall_mem_cons.mp hregular
    obtain ⟨hmembers, hnames, hrestDistinct⟩ := nullaryDistinct_type.mp h
    rw [sitesOf_type] at hapart
    obtain ⟨hapartBody, hapart⟩ := List.forall_mem_append.mp hapart
    obtain ⟨hapartType, hapartRest⟩ := List.forall_mem_cons.mp hapart
    have htype := nullaryDistinct_rewriteType hd hunder (hapartType hunder) hmembers hnames
      fun hnotUnder => by
        rw [visitedType, statements_rewriteBlock]
        exact hbody _ (Block.regular_iff.mp (TypeDecl.regular_iff.mp hd)).2 hnotUnder hapartBody
          hmembers
    have hget : (m.rewrite above (.type d)).get (.type d) = .type ((m.rewriteType above d).get d) :=
      Revision.get_map
    rw [get_rewriteAll_cons, hget, nullaryDistinct_type, ← and_assoc]
    exact ⟨htype, hrest above hrestRegular hunder hapartRest hrestDistinct⟩
  | method d b rest hb hbody hrest =>
    obtain ⟨hd, hrestRegular⟩ := List.forall_mem_cons.mp hregular
    obtain ⟨hmembers, hrestDistinct⟩ := (nullaryDistinct_method hb).mp h
    rw [sitesOf_method above hb] at hapart
    obtain ⟨hapartBody, hapartRest⟩ := List.forall_mem_append.mp hapart
    have hinside := hbody (.block b :: .method d :: above)
      (Block.regular_iff.mp ((MethodDecl.regular_of_some hb).mp hd).1).2 hunder hapartBody hmembers
    rw [get_rewriteAll_cons, get_rewrite_method hb, nullaryDistinct_method rfl,
      statements_rewriteBlock]
    exact ⟨hinside, hrest above hrestRegular hunder hapartRest hrestDistinct⟩
  | signature d rest hb hrest =>
    obtain ⟨-, hrestRegular⟩ := List.forall_mem_cons.mp hregular
    obtain ⟨hd, hrestDistinct⟩ := nullaryDistinct_cons.mp h
    rw [sitesOf_signature above hb] at hapart
    rw [get_rewriteAll_cons, get_rewrite_signature hb, nullaryDistinct_cons]
    exact ⟨hd, hrest above hrestRegular hunder hapart hrestDistinct⟩
  | vars d rest hrest =>
    have hget : (m.rewrite above (.vars d)).get (.vars d) = .vars ((m.rewriteVars d).get d) :=
      Revision.get_map
    rw [get_rewriteAll_cons, hget]
    exact hrest above (List.forall_mem_cons.mp hregular).2 hunder hapart h
  | call c rest hrest =>
    rw [get_rewriteAll_cons]
    exact hrest above (List.forall_mem_cons.mp hregular).2 hunder hapart h
  | raw r rest hrest =>
    rw [get_rewriteAll_cons]
    exact hrest above (List.forall_mem_cons.mp hregular).2 hunder hapart h

/-- If no type of a unit that was read from source declares two methods of one name without
parameters, then none does after a run, provided that where a variable is closed the generated code
keeps apart from the members of the type. -/
theorem run_keeps_nullary_distinct (m : RuleMigration) {classpath : Classpath}
    {path source : String} {u : CompilationUnit} (hparse : parse? classpath path source = some u)
    (hdistinct : NullaryDistinct u.types) (hapart : m.AllKeepApart u.sites) :
    NullaryDistinct ((m.run u).1.get u).types := by
  unfold run
  split
  · have hregular := allRegular_iff.mp (regular_of_parse? hparse).types
    exact (m.shifted_migrate u).1.nullaryDistinct
      (nullaryDistinct_rewriteAll u.types [.unit u] hregular rfl hapart hdistinct)
  · exact hdistinct

/-! ## Ordinary settings -/

/-- Where the code reads as it is meant, it is one method with the name of the settings, and has no
types in it. -/
theorem keepsApart_ordinary {c : Config} (hname : '_' ∉ c.methodName.toList) {d : TypeDecl}
    (hnames : (nullaryNames d.body.statements).Nodup)
    (hfree : c.methodName ∉ nullaryNames d.body.statements) : (ordinary c).KeepsApart d := by
  intro v _
  split
  · intro new hnew
    cases hnew
    exact fun e he => by cases he
  · intro new hnew
    cases hnew
    set b : Bindings := [("__p0__", .identifier v)]
    have hmethod : b.fillStatements [.method (closeMethodOf c)] =
        [.method (b.fillMethod (closeMethodOf c))] := rfl
    have hnullary : nullaryNames (b.fillStatements [.method (closeMethodOf c)]) =
        [c.methodName] := by
      have hparameters : b.fillText "()" = "()" := fillText_of_not_mem (by decide) _
      have hfilled : b.fillIdentifier (closeMethodOf c).name = (closeMethodOf c).name :=
        fillIdentifier_of_not_mem hname _
      have hhead : (b.fillMethod (closeMethodOf c)).isNullary = true := by
        show (Java.lex (b.fillText "()")).any _ = true
        rw [hparameters]
        decide
      rw [hmethod]
      unfold nullaryNames
      rw [List.filterMap_cons_some, List.filterMap_nil]
      rw [Statement.nullaryName?, if_pos hhead]
      exact congrArg (some ·.name) hfilled
    constructor
    · show (nullaryNames d.body.statements ++
        nullaryNames (b.fillStatements [.method (closeMethodOf c)])).Nodup
      rw [hnullary, List.nodup_append]
      exact ⟨hnames, List.nodup_singleton _, fun name hmem other hother => by
        rw [List.mem_singleton.mp hother]
        exact fun heq => hfree (heq ▸ hmem)⟩
    · exact fun e he => by cases he

/-- A class with a rule field and a method of another name than the settings have. -/
def otherNameSource : String :=
  "class A \x7b @a.R b.S s; void u() \x7b \x7d \x7d"

/-- Whether the unit is changed, and no type in it has the name of the settings or repeats one. -/
def changesOtherName (m : RuleMigration) (u : CompilationUnit) : Bool :=
  !(m.run u).1.isKept && decide (NullaryDistinct u.types) &&
    (allTypesOf u.types).all fun d => !(nullaryNames d.body.statements).contains m.config.methodName

set_option maxRecDepth 100000 in
theorem passes_otherName : passes shortConfig otherNameSource changesOtherName :=
  ordinary_short.passes (by decide +kernel)

theorem other_name_stays_distinct :
    ∃ (m : RuleMigration) (u : CompilationUnit),
      ofConfig shortConfig = .ok m ∧ parse? {} "A.java" otherNameSource = some u ∧
      (m.run u).1.isKept = false ∧ NullaryDistinct u.types ∧ m.AllKeepApart u.sites ∧
      NullaryDistinct ((m.run u).1.get u).types := by
  obtain ⟨m, u, hm, hu, hchanges⟩ := exists_of_passes passes_otherName
  cases ordinary_short.ofConfig_eq.symm.trans hm
  simp only [changesOtherName, Bool.and_eq_true, decide_eq_true_eq, List.all_eq_true,
    Bool.not_eq_true', List.contains_eq_mem, decide_eq_false_iff_not] at hchanges
  obtain ⟨⟨hchanged, hdistinct⟩, hfree⟩ := hchanges
  have hapart : (ordinary shortConfig).AllKeepApart u.sites := by
    intro site hsite _ _
    have hd : site.2 ∈ allTypesOf u.types :=
      map_sitesOf u.types [.unit u] ▸ List.mem_map_of_mem (f := Prod.snd) hsite
    exact keepsApart_ordinary (by decide) (hdistinct _ hd) (hfree _ hd)
  exact ⟨_, u, hm, hu, hchanged, hdistinct, hapart,
    run_keeps_nullary_distinct _ hu hdistinct hapart⟩

/-! ## A name that is taken -/

/-- A run without reports of accepted settings on a source none of whose types repeats the name of
a method without parameters leaves one that does. -/
def Repeats (c : Config) (source : String) : Prop :=
  ∃ (m : RuleMigration) (u : CompilationUnit),
    ofConfig c = .ok m ∧ parse? {} "A.java" source = some u ∧ NullaryDistinct u.types ∧
    (m.run u).2 = [] ∧ ¬ NullaryDistinct ((m.run u).1.get u).types

def repeatsName (m : RuleMigration) (u : CompilationUnit) : Bool :=
  decide (NullaryDistinct u.types) && (m.run u).2.isEmpty &&
    !decide (NullaryDistinct ((m.run u).1.get u).types)

theorem repeats_of_passes {c : Config} {source : String} (h : passes c source repeatsName) :
    Repeats c source := by
  obtain ⟨m, u, hm, hu, hrepeats⟩ := exists_of_passes h
  simp only [repeatsName, Bool.and_eq_true, decide_eq_true_eq, List.isEmpty_iff,
    Bool.not_eq_true', decide_eq_false_iff_not] at hrepeats
  obtain ⟨⟨hdistinct, hreports⟩, hrepeated⟩ := hrepeats
  exact ⟨m, u, hm, hu, hdistinct, hreports, hrepeated⟩

/-- A class with a rule field and a method of the name that the defaults give to a new one. -/
def takenNameSource : String :=
  "class A \x7b @org.junit.Rule okhttp3.mockwebserver.MockWebServer s; " ++
    "void afterEachTest() \x7b \x7d \x7d"

/-- The name of the new method is that of two. -/
def twoMethods : Config := { shortConfig with methodName := "t() \x7b\x7d void t" }

/-- The name of the method that closes a field has a class in it. -/
def classInClose : Config :=
  { shortConfig with closeMethod := "c(); class B \x7b void t() \x7b\x7d void t() \x7b\x7d \x7d s.c" }

set_option maxRecDepth 100000 in
theorem passes_taken :
    passes {} takenNameSource repeatsName ∧ passes twoMethods fieldSource repeatsName ∧
      passes classInClose fieldSource repeatsName :=
  ⟨ordinary_default.passes (by decide +kernel), by decide +kernel, by decide +kernel⟩

/-- With the defaults, a class that has a method of the name of the new one gets a second method of
that name. Other settings put two methods of one name, or a class that has such, into the code. -/
theorem new_method_repeats_name :
    Repeats {} takenNameSource ∧ Repeats twoMethods fieldSource ∧
      Repeats classInClose fieldSource := by
  obtain ⟨htaken, htwo, hclass⟩ := passes_taken
  exact ⟨repeats_of_passes htaken, repeats_of_passes htwo, repeats_of_passes hclass⟩

end RuleMigration

end JavaMigration.Recipe
