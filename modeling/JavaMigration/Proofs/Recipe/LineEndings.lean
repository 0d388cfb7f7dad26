import JavaMigration.Proofs.Edit.LineEndings
import JavaMigration.Proofs.Java.LineEndings
import JavaMigration.Proofs.Recipe.NewNames

/-!
# Line endings of migrated code

What a migration writes has the line ending of the unit (`run_keeps_line_endings`). Code that is
brought in is laid out with the line ending of the code around it, and where a type to import is
asked for there is a line break already, so that the imports have that line ending as well.
-/

namespace JavaMigration.Recipe

open Java Source Match Edit Text

/-- A name in one line, with nothing of a placeholder in it. -/
def IsPlain (name : String) : Prop := ∀ c ∈ name.toList, InLine c ∧ c ≠ '_'

instance (name : String) : Decidable (IsPlain name) :=
  List.decidableBAll (fun c => InLine c ∧ c ≠ '_') name.toList

/-- Settings that generate code in which only the layout has line endings. -/
structure Config.OneLine (c : Config) : Prop where
  after : IsPlain c.afterAnnotation
  exception : IsPlain c.exceptionType
  closeMethod : IsPlain c.closeMethod
  methodName : IsPlain c.methodName

theorem oneLine_default : ({} : Config).OneLine where
  after := by decide
  exception := by decide
  closeMethod := by decide
  methodName := by decide

namespace IsPlain

variable {name : String} (h : IsPlain name)

include h

theorem throughout (e : LineEnding) : e.Throughout name :=
  LineEnding.throughout_of_unbroken fun c hc => (h c hc).1

theorem not_mem : '_' ∉ name.toList := fun hmem => (h '_' hmem).2 rfl

theorem simpleName : IsPlain (Java.simpleName name) := by
  unfold Java.simpleName Text.splitLast
  cases hcut : cutLast '.' name.toList with
  | none => exact h
  | some parts =>
    intro c hc
    refine h c ?_
    rw [cutLast_eq hcut]
    have hlast : c ∈ parts.2 := by simpa [hcut] using hc
    exact List.mem_append_right _ (List.mem_cons_of_mem _ hlast)

end IsPlain

namespace RuleMigration

variable {c : Config} {e : LineEnding}

/-! ## The fields of a type -/

theorem throughout_fieldFound {m : RuleMigration} {b : Block} {field : Identifier}
    (hb : b.Even e) (h : fieldFound (m.findingsInBlock b) = some field) :
    e.Throughout field.name := by
  rw [(m.tagged_findingsInBlock b).fieldFound_eq, findingsInBlock_eq] at h
  obtain ⟨d, hd, -, v, hv, rfl⟩ := mem_fields_allFindings (List.mem_of_getLast? h)
  exact hb.statements.names d hd v hv

/-! ## Generated code -/

section Generated

variable (hc : c.OneLine) (field : Identifier)

/-- The call that closes a field. -/
def fieldCall (c : Config) (field : Identifier) (lead : Space) : Call :=
  { closeCall c lead with receiver := some (.name { name := field.name, type := field.type }) }

/-- The method that closes a field, not yet laid out. -/
def fieldMethod (c : Config) (field : Identifier) : MethodDecl :=
  { closeMethodOf c with body := some ⟨.single, [.call (fieldCall c field .empty)], ⟨"\n"⟩⟩ }

include hc

theorem fillCall_closeCall (lead : Space) :
    Bindings.fillCall [("__p0__", .identifier field)] (closeCall c lead) =
      fieldCall c field lead := by
  have hname := fillIdentifier_of_not_mem (i := { name := c.closeMethod }) hc.closeMethod.not_mem
    (.identifier field)
  have harguments := fillText_of_not_mem (show '_' ∉ "()".toList by decide) (.identifier field)
  unfold Bindings.fillCall closeCall fieldCall
  simp only [hname, harguments, Option.map_some]
  rfl

theorem fillMethod_closeMethodOf :
    Bindings.fillMethod [("__p0__", .identifier field)] (closeMethodOf c) =
      fieldMethod c field := by
  have hfill : ∀ i : Identifier, '_' ∉ i.name.toList →
      Bindings.fillIdentifier [("__p0__", .identifier field)] i = i := fun i hi =>
    fillIdentifier_of_not_mem hi _
  have hafter := hfill (importedType .empty c.afterAnnotation) hc.after.simpleName.not_mem
  have hexception := hfill (importedType .single c.exceptionType) hc.exception.simpleName.not_mem
  have hreturn := hfill (closeMethodOf c).returnType (show '_' ∉ "void".toList by decide)
  have hname := hfill (closeMethodOf c).name hc.methodName.not_mem
  have hparameters := fillText_of_not_mem (show '_' ∉ "()".toList by decide) (.identifier field)
  unfold fieldMethod
  unfold closeMethodOf at hreturn hname ⊢
  simp only [Bindings.fillMethod, Bindings.fillBlock, Bindings.fillStatements, Bindings.fillStatement,
    Bindings.fillAnnotation, Bindings.fillThrows, List.map_cons, List.map_nil, Option.map_some,
    Option.map_none, hafter, hexception, hreturn, hname, hparameters, fillCall_closeCall hc]

theorem even_fieldCall (hfield : e.Throughout field.name) {lead : Space}
    (hlead : e.Throughout lead.text) : Even e [.call (fieldCall c field lead)] := by
  have hpoint : e.Throughout "." := LineEnding.throughout_of_unbroken (by decide)
  have harguments : e.Throughout "()" := LineEnding.throughout_of_unbroken (by decide)
  have hend : e.Throughout ";" := LineEnding.throughout_of_unbroken (by decide)
  have hcall := (((hfield.append hpoint).append (hc.closeMethod.throughout e)).append
    harguments).append hend
  rw [even_call_iff]
  refine uniform_cons_iff.mpr ⟨hlead, uniform_cons_iff.mpr ⟨?_, uniform_nil⟩⟩
  simpa [fieldCall, closeCall, Call.print, Receiver.print, Identifier.print] using hcall

theorem settles_fieldCall (hfield : e.Throughout field.name) (lead : Space) :
    Layout.Settles e (.call (fieldCall c field lead)) :=
  Layout.settles_of_not_method rfl (even_fieldCall hc field hfield e.throughout_empty)

theorem evenCode_fieldMethod (hfield : e.Throughout field.name) :
    Layout.EvenCode e (fieldMethod c field) where
  annotations := by
    have hat : e.Throughout "@" := LineEnding.throughout_of_unbroken (by decide)
    have hafter := hc.after.simpleName.throughout e
    refine List.forall_mem_singleton.mpr ?_
    exact (hat.append (e.throughout_empty.append hafter)).append e.throughout_empty
  modifiers := List.forall_mem_nil _
  returnType := show e.Throughout "void" from LineEnding.throughout_of_unbroken (by decide)
  name := hc.methodName.throughout e
  parameters := show e.Throughout "()" from LineEnding.throughout_of_unbroken (by decide)
  throws := List.forall_mem_singleton.mpr (hc.exception.simpleName.throughout e)
  body := by
    rintro b ⟨⟩
    exact List.forall_mem_singleton.mpr fun lead hlead => even_fieldCall hc field hfield hlead
  close := e.throughout_empty

end Generated

/-! ## Closing a field -/

/-- One more thrown type leaves a `throws` clause even. -/
theorem uniform_addThrown {throws : Option Throws} {type : Identifier}
    (hthrows : Uniform e ((throws.map (·.segments)).getD [])) (htype : e.Throughout type.name) :
    Uniform e (Template.addThrown throws type).segments := by
  have hsingle : e.Throughout Space.single.text := Space.throughout_single e
  have hentry : e.Throughout ({ type with lead := .single } : Identifier).print :=
    hsingle.append htype
  rw [Throws.uniform_segments_iff]
  cases throws with
  | none => exact ⟨hsingle, List.forall_mem_singleton.mpr hentry⟩
  | some t =>
    obtain ⟨hlead, htypes⟩ := Throws.uniform_segments_iff.mp hthrows
    exact ⟨hlead, List.forall_mem_append.mpr ⟨htypes, List.forall_mem_singleton.mpr hentry⟩⟩

theorem uniform_declaresThrown (hc : c.OneLine) {throws new : Option Throws} {imports : List String}
    (h : (ordinary c).DeclaresThrown throws new imports)
    (hthrows : Uniform e ((throws.map (·.segments)).getD [])) :
    Uniform e ((new.map (·.segments)).getD []) ∧ ∀ name ∈ imports, e.Throughout name := by
  obtain ⟨rfl, rfl⟩ | ⟨type, htype, rfl, rfl⟩ := h
  · exact ⟨hthrows, List.forall_mem_nil _⟩
  · cases htype
    exact ⟨uniform_addThrown hthrows (hc.exception.simpleName.throughout e),
      List.forall_mem_singleton.mpr (hc.exception.throughout e)⟩

/-- A method is even with the close statement laid out in it, on a line of its own. -/
theorem even_closeIn (hc : c.OneLine) {μ : Type} {a : MethodDecl} {old : Block}
    {new : List Statement} {throws : Option Throws} {field : Identifier} {cursor : Cursor μ}
    {imports : List String} (hold : a.body = some old)
    (hcursor : cursor.path.head? = some (.method a)) (haround : Around e cursor.path)
    (ha : Even e [.method a]) (hfield : e.Throughout field.name)
    (hnew : (ordinary c).closeStatement.asStatements? [.identifier field] = some new)
    (hthrows : (ordinary c).DeclaresThrown a.throws throws imports) :
    let closed : MethodDecl := { a with
      body := some ((ordinary c).closeStatement.layout.methodBody a old new cursor), throws }
    Even e [.method closed] ∧ Breaks (segmentsOf [.method closed]) ∧
      ∀ name ∈ imports, e.Throughout name := by
  obtain ⟨hhead, hbody⟩ := (even_method_iff hold).mp ha
  have hcall : new = [.call (fieldCall c field ⟨"\n"⟩)] := by
    rw [← fillCall_closeCall hc]
    exact (Option.some.inj hnew).symm
  have hsettles : ∀ s ∈ new, Layout.Settles e s := by
    rw [hcall]
    exact List.forall_mem_singleton.mpr (settles_fieldCall hc field hfield _)
  have hlaid := Layout.even_methodBody haround hcursor hbody hsettles
  have hbreak := Layout.breaks_methodBody (b := old) haround hcursor
    (show new ≠ [] from hcall ▸ List.cons_ne_nil _ _)
  unfold MethodDecl.headSegments at hhead
  obtain ⟨hfront, hclause⟩ := uniform_append_iff.mp hhead
  obtain ⟨hclause', hnames⟩ := uniform_declaresThrown hc hthrows hclause
  exact ⟨(even_method_iff rfl).mpr ⟨uniform_append_iff.mpr ⟨hfront, hclause'⟩, hlaid⟩,
    breaks_method rfl hbreak, hnames⟩

/-- The body of a type is even with the method that closes a field laid out in it, on lines of its
own. -/
theorem even_newMethod (hc : c.OneLine) {μ : Type} {d : TypeDecl} {field : Identifier}
    {cursor : Cursor μ} {new : List Statement} (hcursor : cursor.path.head? = some (.type d))
    (haround : Around e cursor.path) (hbody : d.body.Even e) (hfield : e.Throughout field.name)
    (hnew : (ordinary c).newMethod.asMembers? [.identifier field] = some new) :
    let body := (ordinary c).newMethod.layout.typeBody d new cursor
    body.Even e ∧ Breaks (segmentsOf body.statements) := by
  have hmethod : new = [.method (fieldMethod c field)] := by
    rw [← fillMethod_closeMethodOf hc]
    exact (Option.some.inj hnew).symm
  have hsettles : ∀ s ∈ new, Layout.Settles e s := by
    rw [hmethod]
    exact List.forall_mem_singleton.mpr (Layout.settles_method (evenCode_fieldMethod hc field hfield))
  exact ⟨Layout.even_typeBody haround hcursor hbody hsettles,
    Layout.breaks_typeBody haround hcursor (hmethod ▸ List.cons_ne_nil _ _)⟩

/-- A type is even with its field closed, on a line of its own if it is closed at all. -/
theorem even_closeField (hc : c.OneLine) {μ : Type} {d d' : TypeDecl} {field : Identifier}
    {method : Option StatementId} {cursor : Cursor μ} {imports : List String}
    (hcursor : cursor.path.head? = some (.type d)) (haround : Around e cursor.path)
    (hd : Even e [.type d]) (hfield : e.Throughout field.name)
    (hclose : (ordinary c).closeField d field method cursor = .ok (d', imports)) :
    Even e [.type d'] ∧ (d' = d ∧ imports = [] ∨ Breaks (segmentsOf [.type d'])) ∧
      ∀ name ∈ imports, e.Throughout name := by
  obtain ⟨hhead, hbody⟩ := even_type_iff.mp hd
  obtain ⟨rfl, rfl⟩ | ⟨new, hnew, rfl, rfl⟩ |
    ⟨front, a, back, old, new, throws, hsplit, hold, hnew, hthrows, rfl⟩ :=
      closeField_eq hcursor hclose
  · exact ⟨hd, .inl ⟨rfl, rfl⟩, List.forall_mem_nil _⟩
  · obtain ⟨hlaid, hbreak⟩ := even_newMethod hc hcursor haround hbody hfield hnew
    refine ⟨even_type_iff.mpr ⟨hhead, hlaid⟩, .inr (breaks_type hbreak), fun name hname => ?_⟩
    obtain ⟨hmem, hother⟩ := List.mem_filter.mp hname
    simp only [ordinary, List.mem_cons, List.not_mem_nil, or_false] at hmem
    rcases hmem with rfl | rfl | rfl
    · exact hc.after.throughout e
    · exact hc.exception.throughout e
    · simp [ordinary] at hother
  · have hstatements := hbody.statements
    rw [hsplit, even_append_iff, even_cons_iff] at hstatements
    obtain ⟨hfront, ha, hback⟩ := hstatements
    have hpath : Around e (cursor.push (.method a)).path :=
      haround.cons ha.throughout_print ha.throughout_lead
    obtain ⟨hclosed, hbreak, hnames⟩ := even_closeIn hc hold rfl hpath ha hfield hnew hthrows
    refine ⟨even_type_iff.mpr ⟨hhead, hbody.lead, even_append_iff.mpr ⟨hfront,
      even_cons_iff.mpr ⟨hclosed, hback⟩⟩, hbody.close⟩, .inr (breaks_type ?_), hnames⟩
    rw [segmentsOf, segmentsOf, List.append_nil] at hbreak
    rw [segmentsOf_append, segmentsOf]
    simp [hbreak]

/-! ## The result of a migration -/

/-- What some statements have become: they are as even as before, and if they ask for types to be
imported there is a line break in them. -/
structure Keeps (e : LineEnding) (names : List String) (ss : List Statement) : Prop where
  even : Even e ss
  breaks : names ≠ [] → Breaks (segmentsOf ss)
  names : ∀ name ∈ names, e.Throughout name

namespace Keeps

variable {names more : List String} {ss ts : List Statement}

theorem of_even (h : Even e ss) : Keeps e [] ss := ⟨h, fun hne => absurd rfl hne, nofun⟩

theorem append (h : Keeps e names ss) (h' : Keeps e more ts) :
    Keeps e (names ++ more) (ss ++ ts) where
  even := even_append_iff.mpr ⟨h.even, h'.even⟩
  breaks hne := by
    rw [segmentsOf_append, breaks_append_iff]
    by_cases hnames : names = []
    · exact .inr (h'.breaks (by rwa [hnames] at hne))
    · exact .inl (h.breaks hnames)
  names := List.forall_mem_append.mpr ⟨h.names, h'.names⟩

theorem type {d : TypeDecl} (h : Keeps e names d.body.statements) (hd : Even e [.type d]) :
    Keeps e names [.type d] :=
  ⟨hd, fun hne => breaks_type (h.breaks hne), h.names⟩

theorem method {d : MethodDecl} {b : Block} (h : Keeps e names b.statements) (hb : d.body = some b)
    (hd : Even e [.method d]) : Keeps e names [.method d] :=
  ⟨hd, fun hne => breaks_method hb (h.breaks hne), h.names⟩

end Keeps

theorem even_rewriteBlock (m : RuleMigration) {above : List Node} {b : Block} (hb : b.Even e)
    (hnew : Even e ((m.rewriteBlock above b).get b).statements) :
    ((m.rewriteBlock above b).get b).Even e := by
  refine ⟨?_, hnew, ?_⟩
  all_goals rw [get_rewriteBlock]
  · exact hb.lead
  · exact hb.close

/-- The space behind an annotation that was taken off is cleared, if any is changed. -/
theorem even_unmarked (m : RuleMigration) {d : VariableDecl} (h : Even e [.vars d]) :
    Even e [.vars (m.unmarked d)] := by
  have hcleared : ∀ {p : Segment} {ps : List Segment}, Uniform e (p :: ps) →
      Uniform e (.space .empty :: ps) := fun h =>
    uniform_cons_iff.mpr ⟨e.throughout_empty, (uniform_cons_iff.mp h).2⟩
  obtain ⟨hsegments, hnames⟩ := even_vars_iff.mp h
  obtain ⟨hlead, hannotations, hmodifiers, htype, hback⟩ :=
    VariableDecl.uniform_segments_iff.mp hsegments
  unfold unmarked VariableDecl.retainAnnotations
  extract_lets kept
  have hkept : ∀ a ∈ kept.annotations, Uniform e a.segments := fun a ha =>
    hannotations a (List.mem_of_mem_filter ha)
  split
  · unfold VariableDecl.clearFirst
    split
    · next a rest modifiers heq =>
      rw [heq] at hkept
      obtain ⟨ha, hrest⟩ := List.forall_mem_cons.mp hkept
      exact even_vars_iff.mpr ⟨VariableDecl.uniform_segments_iff.mpr
        ⟨hlead, List.forall_mem_cons.mpr ⟨hcleared ha, hrest⟩, hmodifiers, htype, hback⟩, hnames⟩
    · next w rest hnone heq =>
      rw [show d.modifiers = w :: rest from heq] at hmodifiers
      obtain ⟨hw, hrest⟩ := List.forall_mem_cons.mp hmodifiers
      exact even_vars_iff.mpr ⟨VariableDecl.uniform_segments_iff.mpr
        ⟨hlead, hkept, List.forall_mem_cons.mpr ⟨hcleared hw, hrest⟩, htype, hback⟩, hnames⟩
    · exact even_vars_iff.mpr ⟨VariableDecl.uniform_segments_iff.mpr
        ⟨hlead, hkept, hmodifiers, hcleared htype, hback⟩, hnames⟩
  · exact even_vars_iff.mpr ⟨VariableDecl.uniform_segments_iff.mpr
      ⟨hlead, hkept, hmodifiers, htype, hback⟩, hnames⟩

theorem keeps_rewriteType (hc : c.OneLine) {above : List Node} {d : TypeDecl}
    (haround : Around e above) (hd : Even e [.type d])
    (hunder : (ordinary c).underFailure above = false)
    (hvisited : (ordinary c).underFailure (.type d :: above) = false →
      Keeps e ((d.body.sites (.type d :: above)).filterMap (ordinary c).requestAt).flatten
        ((ordinary c).visitedType above d).body.statements) :
    Keeps e ((d.sites above).filterMap (ordinary c).requestAt).flatten
      [.type (((ordinary c).rewriteType above d).get d)] := by
  obtain ⟨hhead, hbody⟩ := even_type_iff.mp hd
  have hfails : (ordinary c).underFailure (.type d :: above) =
      (fault? ((ordinary c).outcome above d)).isSome := by
    rw [underFailure, hunder, Bool.or_false]
  have hmembers : (fault? ((ordinary c).outcome above d)).isSome = false →
      Keeps e ((d.body.sites (.type d :: above)).filterMap (ordinary c).requestAt).flatten
        [.type ((ordinary c).visitedType above d)] := fun h => by
    have hin := hvisited (hfails.trans h)
    exact hin.type (even_type_iff.mpr ⟨hhead, even_rewriteBlock (ordinary c) hbody hin.even⟩)
  rw [TypeDecl.sites_eq, List.filterMap_append, List.flatten_append, requestAt_self hunder]
  obtain ⟨hout, hget⟩ | ⟨fault, hout, hget⟩ | ⟨field, imports, d', hout, hfield, hclose, hget⟩ :=
    (ordinary c).rewriteType_cases above d
  · rw [hout] at hmembers
    rw [hout, hget]
    exact (List.append_nil _).symm ▸ hmembers rfl
  · -- The failing type is kept, and what is asked for under it is dropped with it.
    have hnone := (ordinary c).requests_underFailure
      (underFailure_sitesOfBlock (ordinary c) (by rw [hfails, hout]; rfl) d.body)
    rw [hnone, hout, hget]
    exact .of_even hd
  · rw [hout] at hmembers
    have hin := hmembers rfl
    have hname := throughout_fieldFound hbody hfield
    let visited := (ordinary c).visitedType above d
    have hcursor : (Cursor.ofPath (.type visited :: above) : Cursor Finding).path =
        .type visited :: above := Cursor.path_ofPath _
    have hpath := haround.cons (n := .type visited) hin.even.throughout_print hin.even.throughout_lead
    obtain ⟨hclosed, hbreak, hnames⟩ := even_closeField hc (by rw [hcursor]; rfl)
      (by rw [hcursor]; exact hpath) hin.even hname hclose
    have himports : (imports? (some (.ok (d', imports)))).toList.flatten = imports := by
      simp [imports?]
    rw [hout, hget, himports]
    refine ⟨hclosed, fun hne => ?_, List.forall_mem_append.mpr ⟨hin.names, hnames⟩⟩
    rcases hbreak with ⟨rfl, rfl⟩ | hbreak
    · exact hin.breaks (by rwa [List.append_nil] at hne)
    · exact hbreak

theorem keeps_rewriteMethod {m : RuleMigration} {above : List Node} {d : MethodDecl} {b : Block}
    (hb : d.body = some b) (hd : Even e [.method d]) {names : List String}
    (hmembers : Keeps e names
      ((m.rewriteAll (.block b :: .method d :: above) b.statements).get b.statements)) :
    Keeps e names [(m.rewrite above (.method d)).get (.method d)] := by
  obtain ⟨hhead, hblock⟩ := (even_method_iff hb).mp hd
  rw [← statements_rewriteBlock] at hmembers
  rw [get_rewrite_method hb]
  exact hmembers.method rfl
    ((even_method_iff rfl).mpr ⟨hhead, even_rewriteBlock m hblock hmembers.even⟩)

/-- What a migration makes of some statements is as even as they are, and breaks the line if a type in
them asks to import something. -/
theorem keeps_rewriteAll (hc : c.OneLine) (ss : List Statement) (above : List Node)
    (haround : Around e above) (hss : Even e ss) (hunder : (ordinary c).underFailure above = false) :
    Keeps e ((sitesOf above ss).filterMap (ordinary c).requestAt).flatten
      (((ordinary c).rewriteAll above ss).get ss) := by
  -- What surrounds a block grows on the way down, and every node of it has the line ending.
  induction ss using statements_induction generalizing above with
  | nil => exact .of_even even_nil
  | type d rest hbody hrest =>
    obtain ⟨hd, hmore⟩ := even_cons_iff.mp hss
    have hblock := (even_type_iff.mp hd).2
    have hvisited : (ordinary c).underFailure (.type d :: above) = false →
        Keeps e ((d.body.sites (.type d :: above)).filterMap (ordinary c).requestAt).flatten
          ((ordinary c).visitedType above d).body.statements := fun hin => by
      have hpath := (haround.cons (n := .type d) hd.throughout_print hd.throughout_lead).cons
        (n := .block d.body) hblock.throughout_print hblock.lead
      have hmembers := hbody _ hpath hblock.statements hin
      rw [← statements_rewriteBlock] at hmembers
      rw [Block.sites_eq]
      exact hmembers
    have hget : ((ordinary c).rewrite above (.type d)).get (.type d) =
        .type (((ordinary c).rewriteType above d).get d) := Revision.get_map
    have hsites : sitesOf above (.type d :: rest) = d.sites above ++ sitesOf above rest := rfl
    rw [get_rewriteAll_cons, hget, hsites, List.filterMap_append, List.flatten_append]
    exact (keeps_rewriteType hc haround hd hunder hvisited).append (hrest above haround hmore hunder)
  | method d b rest hb hbody hrest =>
    obtain ⟨hd, hmore⟩ := even_cons_iff.mp hss
    have hblock := ((even_method_iff hb).mp hd).2
    have hpath := (haround.cons (n := .method d) hd.throughout_print hd.throughout_lead).cons
      (n := .block b) hblock.throughout_print hblock.lead
    have hmembers := hbody _ hpath hblock.statements hunder
    have hsites : sitesOf above (.method d :: rest) =
        sitesOf (.block b :: .method d :: above) b.statements ++ sitesOf above rest := by
      cases d; subst hb; cases b; rfl
    rw [get_rewriteAll_cons, hsites, List.filterMap_append, List.flatten_append]
    exact (keeps_rewriteMethod hb hd hmembers).append (hrest above haround hmore hunder)
  | signature d rest hb hrest =>
    obtain ⟨hd, hmore⟩ := even_cons_iff.mp hss
    have hsites : sitesOf above (.method d :: rest) = sitesOf above rest := by
      cases d; subst hb; rfl
    rw [get_rewriteAll_cons, get_rewrite_signature hb, hsites]
    exact (Keeps.of_even hd).append (hrest above haround hmore hunder)
  | vars d rest hrest =>
    obtain ⟨hd, hmore⟩ := even_cons_iff.mp hss
    have hget : ((ordinary c).rewrite above (.vars d)).get (.vars d) =
        .vars (((ordinary c).rewriteVars d).get d) := Revision.get_map
    have hvars : Even e [.vars (((ordinary c).rewriteVars d).get d)] := by
      unfold rewriteVars
      split
      · exact even_unmarked _ hd
      · exact hd
    rw [get_rewriteAll_cons, hget]
    exact (Keeps.of_even hvars).append (hrest above haround hmore hunder)
  | call k rest hrest =>
    obtain ⟨hk, hmore⟩ := even_cons_iff.mp hss
    rw [get_rewriteAll_cons]
    exact (Keeps.of_even hk).append (hrest above haround hmore hunder)
  | raw k rest hrest =>
    obtain ⟨hk, hmore⟩ := even_cons_iff.mp hss
    rw [get_rewriteAll_cons]
    exact (Keeps.of_even hk).append (hrest above haround hmore hunder)

theorem even_rewriteUnit (m : RuleMigration) {u : CompilationUnit} (hu : u.Even e)
    (htypes : Even e ((m.rewriteAll [.unit u] u.types).get u.types)) :
    ((m.rewriteUnit u).get u).Even e := by
  rw [← types_rewriteUnit] at htypes
  have himports := m.imports_rewriteUnit u
  refine ⟨?_, ?_, by rw [himports]; exact hu.imports, htypes, ?_⟩
  all_goals
    unfold rewriteUnit
    cases m.rewriteAll [.unit u] u.types
  exacts [hu.lead, hu.lead, hu.package, hu.package, hu.close, hu.close]

/-- A migration keeps the line ending of a unit, if there is one to be seen in it. -/
theorem even_migrate (hc : c.OneLine) {u : CompilationUnit} (hu : u.Even e)
    (hbreak : e = .crlf → '\n' ∈ u.print.toList) :
    (((ordinary c).migrate u).1.get u).Even e := by
  have haround : Around e [.unit u] := by
    refine ⟨List.forall_mem_singleton.mpr hu.throughout_print,
      List.forall_mem_singleton.mpr hu.lead, fun he => ⟨.unit u, List.mem_cons_self, hbreak he⟩⟩
  have htypes := keeps_rewriteAll hc u.types [.unit u] haround hu.types rfl
  have hnames : ∀ name, name ∈ ((ordinary c).progress u).imports.additions ↔
      name ∈ (u.sites.filterMap (ordinary c).requestAt).flatten := fun name => by
    rw [← addedTypes_eq]
    exact mem_addedTypes_iff
  rw [get_migrate]
  refine even_apply (even_rewriteUnit _ hu htypes.even) (fun hne => ?_)
    fun name hname => htypes.names name ((hnames name).mp hname)
  -- The imports are edited after the types: whoever asked for one has broken a line.
  obtain ⟨name, hname⟩ := List.exists_mem_of_ne_nil _ hne
  have hasked := htypes.breaks (List.ne_nil_of_mem ((hnames name).mp hname))
  rw [← types_rewriteUnit] at hasked
  exact CompilationUnit.breaks_segments_iff.mpr (.inr (.inr (.inr (.inl hasked))))

theorem even_run (hc : c.OneLine) {u : CompilationUnit} (hu : u.Even e)
    (hbreak : e = .crlf → '\n' ∈ u.print.toList) : (((ordinary c).run u).1.get u).Even e := by
  unfold run
  split
  · exact even_migrate hc hu hbreak
  · exact hu

/-- With the defaults, a unit read from source keeps its line ending: if there are line feeds in it,
each behind a carriage return, so are those of the result, and if there is no carriage return in it,
there is none in the result. -/
theorem run_keeps_line_endings {m : RuleMigration} (hm : ofConfig {} = .ok m)
    {classpath : Classpath} {path source : String} {u : CompilationUnit}
    (hu : parse? classpath path source = some u) :
    ('\n' ∈ u.print.toList → LineEnding.crlf.Throughout u.print →
      LineEnding.crlf.Throughout ((m.run u).1.get u).print) ∧
    (LineEnding.lf.Throughout u.print → LineEnding.lf.Throughout ((m.run u).1.get u).print) := by
  have hordinary := ordinary_default.ofConfig_eq.symm.trans hm
  cases hordinary
  have hkept : ∀ e : LineEnding, (e = .crlf → '\n' ∈ u.print.toList) → e.Throughout u.print →
      e.Throughout (((ordinary {}).run u).1.get u).print := fun e hbreak hprint =>
    (even_run oneLine_default (even_of_throughout hu hprint) hbreak).throughout_print
  exact ⟨fun hbreak => hkept .crlf fun _ => hbreak, hkept .lf nofun⟩

/-- A class of one field in three lines. -/
def threeLines (e : LineEnding) : String :=
  "class A \x7b" ++ e.text ++ "  @org.junit.Rule okhttp3.mockwebserver.MockWebServer s;" ++ e.text ++
    "\x7d"

/-- Whether a unit has a line ending, and is changed. -/
def changesLines (e : LineEnding) (m : RuleMigration) (u : CompilationUnit) : Bool :=
  decide (e.Throughout u.print) && u.print.toList.contains '\n' && !(m.run u).1.isKept

set_option maxRecDepth 100000 in
theorem passes_threeLines : ∀ e, passes {} (threeLines e) (changesLines e)
  | .crlf => ordinary_default.passes (by decide +kernel)
  | .lf => ordinary_default.passes (by decide +kernel)

theorem both_line_endings_are_kept :
    (∃ m u, ofConfig {} = .ok m ∧ parse? {} "A.java" (threeLines .crlf) = some u ∧
      (m.run u).1.isKept = false ∧ '\n' ∈ u.print.toList ∧ LineEnding.crlf.Throughout u.print ∧
      LineEnding.crlf.Throughout ((m.run u).1.get u).print) ∧
    ∃ m u, ofConfig {} = .ok m ∧ parse? {} "A.java" (threeLines .lf) = some u ∧
      (m.run u).1.isKept = false ∧ '\n' ∈ u.print.toList ∧ LineEnding.lf.Throughout u.print ∧
      LineEnding.lf.Throughout ((m.run u).1.get u).print := by
  constructor
  · obtain ⟨m, u, hm, hu, hchanges⟩ := exists_of_passes (passes_threeLines .crlf)
    simp only [changesLines, Bool.and_eq_true, decide_eq_true_eq, Bool.not_eq_true',
      List.contains_iff_mem] at hchanges
    obtain ⟨⟨hprint, hbreak⟩, hchanged⟩ := hchanges
    exact ⟨m, u, hm, hu, hchanged, hbreak, hprint, (run_keeps_line_endings hm hu).1 hbreak hprint⟩
  · obtain ⟨m, u, hm, hu, hchanges⟩ := exists_of_passes (passes_threeLines .lf)
    simp only [changesLines, Bool.and_eq_true, decide_eq_true_eq, Bool.not_eq_true',
      List.contains_iff_mem] at hchanges
    obtain ⟨⟨hprint, hbreak⟩, hchanged⟩ := hchanges
    exact ⟨m, u, hm, hu, hchanged, hbreak, hprint, (run_keeps_line_endings hm hu).2 hprint⟩

end RuleMigration

end JavaMigration.Recipe
