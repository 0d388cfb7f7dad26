import JavaMigration.Proofs.Edit.AddedImport

/-!
# The order of additions

Two imports can be added in either order: the unit comes out the same, the identities of the imports
apart (`adding_imports_commutes`). The second one takes the line ending that the first was laid out
with, stands where it would have stood without the other, and lays the next import out for its own
neighbours.
-/

namespace JavaMigration.Source

/-! ## Units without the identities of imports -/

def Import.anonymous (i : Import) : Import := { i with id := 0 }

def CompilationUnit.anonymous (u : CompilationUnit) : CompilationUnit :=
  { u with imports := u.imports.map Import.anonymous }

theorem CompilationUnit.anonymous_anonymous (u : CompilationUnit) :
    u.anonymous.anonymous = u.anonymous := by
  unfold anonymous
  rw [List.map_map]
  rfl

theorem CompilationUnit.print_anonymous (u : CompilationUnit) : u.anonymous.print = u.print := by
  unfold print anonymous
  rw [List.map_map]
  rfl

end JavaMigration.Source

namespace JavaMigration.Edit

open Java Source Text

/-! ## Two imports among others -/

section

variable {f g new other : Import} {nl : String}

theorem CutBehindLast.settleBehind {before after : List Import}
    (h : CutBehindLast (sortsBefore · new) before after) (wasFirst : Bool) :
    CutBehindLast (sortsBefore · new) before (settleBehind other nl wasFirst after) where
  last := h.last
  behind := by
    have hsame : (Edit.settleBehind other nl wasFirst after).map (sortsBefore · new) =
        after.map (sortsBefore · new) := map_settleBehind (fun _ _ => rfl) ..
    rw [← List.forall_mem_map (P := (· = false)), hsame]
    exact List.forall_mem_map.mpr h.behind

theorem isBlank_separator (hnl : visible nl = []) (sameGroup : Bool) :
    (separator sameGroup nl).isBlank :=
  Space.visible_text_iff.mp (visible_separator hnl sameGroup)

/-- What is laid out behind one import and then behind another is laid out for the latter. -/
theorem settleBehind_settleBehind (hnl : visible nl = []) (wasFirst : Bool)
    (imports : List Import) :
    settleBehind g nl false (settleBehind f nl wasFirst imports) =
      settleBehind g nl wasFirst imports := by
  cases imports with
  | nil => rfl
  | cons next rest =>
    rw [settleBehind]
    split
    · next h =>
      rw [settleBehind, settleBehind, if_pos h, Bool.false_or, if_pos (isBlank_separator hnl _)]
      rfl
    · next h =>
      rw [Bool.or_eq_true, not_or] at h
      rw [settleBehind, settleBehind, if_neg (by simpa using h.2), if_neg (by simpa using h)]

theorem settleBehind_append {imports : List Import} (h : imports ≠ []) (wasFirst : Bool)
    (behind : List Import) :
    settleBehind new nl wasFirst (imports ++ behind) =
      settleBehind new nl wasFirst imports ++ behind := by
  cases imports with
  | nil => exact absurd rfl h
  | cons next rest =>
    rw [List.cons_append, settleBehind, settleBehind]
    split <;> rfl

theorem exists_settleBehind_cons (new : Import) (nl : String) (wasFirst : Bool) (next : Import)
    (rest : List Import) :
    ∃ lead, settleBehind new nl wasFirst (next :: rest) = { next with lead } :: rest := by
  rw [settleBehind]
  split
  · exact ⟨_, rfl⟩
  · exact ⟨next.lead, rfl⟩

/-- The space of a new import depends on the next one only at the front. -/
theorem leadBetween_append {before after : List Import} (h : after ≠ []) (behind : List Import) :
    leadBetween new nl before (after ++ behind) = leadBetween new nl before after := by
  cases before with
  | cons b before => rfl
  | nil =>
    cases after with
    | nil => exact absurd rfl h
    | cons next rest => rfl

/-- Behind another import a new one gets a separator. -/
theorem insertImport_behind {before after : List Import}
    (h : CutBehindLast (sortsBefore · new) before after) (hne : before ≠ []) :
    insertImport new nl (before ++ after) =
      before ++
        { new with lead := separator (before.getLast?.any fun i => group i == group new) nl } ::
          settleBehind new nl false after := by
  rw [insertImport_append h]
  cases before with
  | nil => exact absurd rfl hne
  | cons b before => rfl

/-- The last but one of several new imports takes the space that the last one would take. -/
theorem leadBetween_cons (hlead : f.lead = g.lead) (before after behind : List Import) :
    leadBetween f nl before ({ g with lead := leadBetween g nl before after } :: behind) =
      leadBetween f nl before after := by
  cases before with
  | cons b before => rfl
  | nil =>
    cases after with
    | nil => exact hlead.symm
    | cons next rest => rfl

/-- In front of an import that was new a newer one lays it out. -/
theorem settleBehind_cons (hnl : visible nl = []) (before after behind : List Import) :
    settleBehind f nl before.isEmpty ({ g with lead := leadBetween g nl before after } :: behind) =
      { g with lead := separator (group g == group f) nl } :: behind := by
  rw [settleBehind]
  cases before with
  | nil => rfl
  | cons b before => exact if_pos (isBlank_separator hnl _)

theorem sortsBefore_lead_of_lt (hlt : sortKey f < sortKey g) (lead : Space) :
    sortsBefore { f with lead } g = true ∧ sortsBefore { g with lead } f = false :=
  ⟨sortsBefore_iff.mpr hlt, sortsBefore_eq_false_iff.mpr hlt.le⟩

/-- The two come to stand next to each other. -/
theorem insertImport_comm_adjacent (hnl : visible nl = []) (hlt : sortKey f < sortKey g)
    (hlead : f.lead = g.lead) {front back : List Import}
    (hf : CutBehindLast (sortsBefore · f) front back) (hg : ∀ i ∈ back, sortsBefore i g = false) :
    insertImport g nl (insertImport f nl (front ++ back)) =
      insertImport f nl (insertImport g nl (front ++ back)) := by
  have hfront : CutBehindLast (sortsBefore · g) front back :=
    ⟨fun i hi => sortsBefore_iff.mpr ((sortsBefore_iff.mp (hf.last i hi)).trans hlt), hg⟩
  have hbehind : CutBehindLast (sortsBefore · g)
      (front ++ [{ f with lead := leadBetween f nl front back }])
      (settleBehind f nl front.isEmpty back) :=
    ⟨by simp [sortsBefore_lead_of_lt hlt], (hfront.settleBehind _).behind⟩
  rw [insertImport_append hf, List.append_cons, insertImport_behind hbehind (by simp),
    insertImport_append hfront, insertImport_append, leadBetween_cons hlead,
    settleBehind_cons hnl, settleBehind_settleBehind hnl, List.getLast?_concat, Option.any_some,
    BEq.comm, List.append_assoc]
  · rfl
  · exact ⟨hf.last, List.forall_mem_cons.mpr
      ⟨(sortsBefore_lead_of_lt hlt _).2, (hf.settleBehind _).behind⟩⟩

/-- Others come to stand between the two. The one that sorts first may lay the next one out anew,
which is of no account to the other. -/
theorem insertImport_comm_apart (hlt : sortKey f < sortKey g) {front back middle : List Import}
    {m : Import} (hf : CutBehindLast (sortsBefore · f) front (m :: middle ++ back))
    (hg : CutBehindLast (sortsBefore · g) (m :: middle) back) :
    insertImport g nl (insertImport f nl (front ++ (m :: middle ++ back))) =
      insertImport f nl (insertImport g nl (front ++ (m :: middle ++ back))) := by
  obtain ⟨lead, hsettle⟩ := exists_settleBehind_cons f nl front.isEmpty m middle
  generalize hm : { m with lead } = m' at hsettle
  have hgroup : ∀ before before' : List Import,
      ((before ++ m' :: middle).getLast?.any fun i => group i == group g) =
        (before' ++ m :: middle).getLast?.any fun i => group i == group g := by
    intro before before'
    rw [List.getLast?_append_cons, List.getLast?_append_cons, ← hm]
    cases middle <;> rfl
  have hfront : CutBehindLast (sortsBefore · g) (front ++ m :: middle) back :=
    ⟨by simpa using hg.last, hg.behind⟩
  have hbehind : ∀ i, CutBehindLast (sortsBefore · g) (front ++ i :: m' :: middle) back := by
    refine fun i => ⟨fun j hj => ?_, hg.behind⟩
    rw [List.append_cons, List.getLast?_append_cons, ← hm] at hj
    cases middle with
    | nil => exact Option.some.inj hj ▸ hg.last m rfl
    | cons c middle => exact hg.last j hj
  have hback : CutBehindLast (sortsBefore · f) front back :=
    ⟨hf.last, fun i hi => hf.behind i (List.mem_append_right _ hi)⟩
  have hleft : insertImport g nl (insertImport f nl (front ++ (m :: middle ++ back))) =
      (front ++ { f with lead := leadBetween f nl front (m :: middle) } :: m' :: middle) ++
        { g with lead := separator ((front ++ m :: middle).getLast?.any
          fun i => group i == group g) nl } :: settleBehind g nl false back := by
    rw [insertImport_append hf, settleBehind_append (List.cons_ne_nil _ _), hsettle,
      leadBetween_append (List.cons_ne_nil _ _), ← List.cons_append, ← List.append_assoc,
      insertImport_behind (hbehind _) (by simp), List.append_cons front, hgroup _ front]
  have hright : insertImport f nl (insertImport g nl (front ++ (m :: middle ++ back))) =
      front ++ { f with lead := leadBetween f nl front (m :: middle) } :: (m' :: middle ++
        { g with lead := separator ((front ++ m :: middle).getLast?.any
          fun i => group i == group g) nl } :: settleBehind g nl false back) := by
    rw [← List.append_assoc, insertImport_behind hfront (by simp), List.append_assoc,
      insertImport_append, settleBehind_append (List.cons_ne_nil _ _), hsettle,
      leadBetween_append (List.cons_ne_nil _ _)]
    refine ⟨hf.last, fun i hi => ?_⟩
    rcases List.mem_append.mp hi with hi | hi
    · exact hf.behind i (List.mem_append_left _ hi)
    · rcases List.mem_cons.mp hi with rfl | hi
      · exact (sortsBefore_lead_of_lt hlt _).2
      · exact (hback.settleBehind _).behind i hi
  rw [hleft, hright, List.append_assoc]
  rfl

theorem insertImport_comm_of_lt (hnl : visible nl = []) (hlt : sortKey f < sortKey g)
    (hlead : f.lead = g.lead) (imports : List Import) :
    insertImport g nl (insertImport f nl imports) = insertImport f nl (insertImport g nl imports) := by
  obtain ⟨front, rest, rfl, hf⟩ := exists_cutBehindLast (sortsBefore · f) imports
  obtain ⟨middle, back, rfl, hg⟩ := exists_cutBehindLast (sortsBefore · g) rest
  cases middle with
  | nil => exact insertImport_comm_adjacent hnl hlt hlead hf hg.behind
  | cons m middle => exact insertImport_comm_apart hlt hf hg

/-- Two imports can be inserted in either order. -/
theorem insertImport_comm (hnl : visible nl = []) (hkey : sortKey f = sortKey g → f = g)
    (hlead : f.lead = g.lead) (imports : List Import) :
    insertImport g nl (insertImport f nl imports) = insertImport f nl (insertImport g nl imports) := by
  rcases lt_trichotomy (sortKey f) (sortKey g) with hlt | heq | hlt
  · exact insertImport_comm_of_lt hnl hlt hlead imports
  · rw [hkey heq]
  · exact (insertImport_comm_of_lt hnl hlt hlead.symm imports).symm

end

/-! ## Line endings -/

theorem separator_text (sameGroup : Bool) (nl : String) :
    (separator sameGroup nl).text = nl ++ if sameGroup then "" else nl := by
  cases sameGroup <;> simp [separator]

/-- The code of an import ends in a semicolon. -/
theorem getLast?_code (i : Import) : i.code.toList.getLast? = some ';' := by
  simp [Import.code, List.getLast?_append]

theorem newline_not_mem_code {i : Import} (h : '\n' ∉ i.target.toList) : '\n' ∉ i.code.toList := by
  unfold Import.code
  cases i.isStatic <;> simp [h]

/-- The imports as they print. -/
def printImports (imports : List Import) : String := String.join (imports.map Import.print)

@[simp] theorem printImports_nil : printImports [] = "" := rfl

theorem printImports_cons (i : Import) (imports : List Import) :
    printImports (i :: imports) = i.lead.text ++ (i.code ++ printImports imports) := by
  rw [printImports, List.map_cons, String.join_cons, Import.print_eq, String.append_assoc]
  rfl

theorem printImports_append (is js : List Import) :
    printImports (is ++ js) = printImports is ++ printImports js := by
  rw [printImports, List.map_append, String.join_append]
  rfl

theorem getLast?_printImports {imports : List Import} (h : imports ≠ []) :
    (printImports imports).toList.getLast? = some ';' := by
  obtain ⟨front, last, rfl⟩ := (List.eq_nil_or_concat' imports).resolve_left h
  rw [printImports_append, printImports_cons]
  simp [List.getLast?_append, getLast?_code, printImports]

/-- A separator ends the line in front of it if nothing has ended that line. -/
theorem lineEnding_separator {line word old nl : String} (hold : lineEnding (line ++ old) = nl)
    (hword : '\n' ∉ word.toList) (hlast : (line ++ word).toList.getLast? = some ';')
    (sameGroup : Bool) (tail : String) :
    lineEnding (line ++ (word ++ ((separator sameGroup nl).text ++ tail))) = nl := by
  by_cases hline : '\n' ∈ line.toList
  · rw [lineEnding_append hline] at hold ⊢
    exact hold
  · have hbreak := lineEnding_break (line ++ word) (by simp [hline, hword])
      (by rw [hlast]; decide) (line ++ old) ((if sameGroup then "" else nl) ++ tail)
    rw [hold] at hbreak
    rw [separator_text]
    simpa only [String.append_assoc] using hbreak

/-- Imports are laid out with the line ending that the text around them has. -/
theorem lineEnding_insertImport {new : Import} (hnew : '\n' ∉ new.target.toList)
    {imports : List Import} (hne : imports ≠ []) {nl a c : String}
    (hnl : lineEnding (a ++ (printImports imports ++ c)) = nl) :
    lineEnding (a ++ (printImports (insertImport new nl imports) ++ c)) = nl := by
  obtain ⟨before, after, rfl, hcut⟩ := exists_cutBehindLast (sortsBefore · new) imports
  rw [insertImport_append hcut, printImports_append, printImports_cons]
  rw [printImports_append] at hnl
  cases before with
  | nil =>
    cases after with
    | nil => exact absurd rfl hne
    | cons first rest =>
      have hold : lineEnding ((a ++ first.lead.text) ++ ((first.code ++ printImports rest) ++ c)) =
          nl := by
        rw [← hnl, printImports_cons]
        simp only [printImports_nil, String.empty_append, String.append_assoc]
      have hsep := lineEnding_separator hold (newline_not_mem_code hnew)
        (by rw [String.toList_append, List.getLast?_append, getLast?_code]; rfl)
        (group first == group new) (first.code ++ printImports rest ++ c)
      rw [settleBehind, if_pos (by rfl), printImports_cons, leadBetween]
      simpa only [printImports_nil, Import.code_lead, String.empty_append, String.append_assoc]
        using hsep
  | cons b before =>
    have hold : lineEnding ((a ++ printImports (b :: before)) ++ (printImports after ++ c)) = nl := by
      rw [← hnl, String.append_assoc, String.append_assoc]
    have hsep := lineEnding_separator hold (show '\n' ∉ "".toList by decide)
      (by
        rw [String.append_empty, String.toList_append, List.getLast?_append,
          getLast?_printImports (List.cons_ne_nil _ _)]
        rfl)
      ((b :: before).getLast?.any fun i => group i == group new)
      (new.code ++ printImports (settleBehind new nl (b :: before).isEmpty after) ++ c)
    rw [leadBetween]
    simpa only [Import.code_lead, String.empty_append, String.append_assoc] using hsep

/-! ## One unit -/

/-- The unit with an import under a given identity, unless it covers the type. -/
def withImport (id : ImportId) (u : CompilationUnit) (name : String) : CompilationUnit :=
  if isCovered u name then u
  else
    let nl := lineEnding u.print
    match u.imports with
    | [] =>
      let lead : Space := ⟨if u.package.isSome then nl ++ nl else ""⟩
      { u with imports := [{ id, lead, target := name }], types := setApart nl u.types }
    | imports => { u with imports := insertImport { id, target := name } nl imports }

theorem get_addImport (u : CompilationUnit) (name : String) :
    (addImport u name).get u = withImport u.freshImportId u name := by
  unfold addImport withImport
  split
  · rfl
  · cases u.imports <;> rfl

/-- Whether a unit with the import covers the type because of it. -/
def importCovers (name : String) (i : Import) : Bool :=
  !i.isStatic && (i.target == name || (i.isOnDemand && i.package == packageOf name))

theorem isCovered_eq (u : CompilationUnit) (name : String) :
    isCovered u name = ((packageOf name).isEmpty || packageOf name == "java.lang" ||
      packageOf name == u.packageName || u.imports.any (importCovers name)) := rfl

theorem insertImport_anonymous (new : Import) (nl : String) (imports : List Import) :
    (insertImport new nl imports).map Import.anonymous =
      insertImport new.anonymous nl (imports.map Import.anonymous) := by
  obtain ⟨before, after, rfl, hcut⟩ := exists_cutBehindLast (sortsBefore · new) imports
  have hcut' : CutBehindLast (sortsBefore · new.anonymous) (before.map Import.anonymous)
      (after.map Import.anonymous) := by
    refine ⟨?_, List.forall_mem_map.mpr hcut.behind⟩
    rw [List.getLast?_map]
    intro i hi
    obtain ⟨j, hj, rfl⟩ := Option.map_eq_some_iff.mp hi
    exact hcut.last j hj
  rw [List.map_append, insertImport_append hcut, insertImport_append hcut', List.map_append,
    List.map_cons]
  have hlead : leadBetween new.anonymous nl (before.map Import.anonymous)
      (after.map Import.anonymous) = leadBetween new nl before after := by
    cases before with
    | nil => cases after <;> rfl
    | cons b before =>
      rw [List.map_cons, leadBetween, ← List.map_cons, List.getLast?_map, Option.any_map]
      rfl
  have hsettle : settleBehind new.anonymous nl (before.map Import.anonymous).isEmpty
      (after.map Import.anonymous) =
        (settleBehind new nl before.isEmpty after).map Import.anonymous := by
    cases after with
    | nil => rfl
    | cons next rest =>
      rw [List.map_cons, settleBehind, settleBehind, List.isEmpty_map,
        apply_ite (List.map Import.anonymous)]
      rfl
  rw [hlead, hsettle]
  rfl

theorem isCovered_anonymous (u : CompilationUnit) (name : String) :
    isCovered u.anonymous name = isCovered u name := by
  rw [isCovered_eq, isCovered_eq, CompilationUnit.anonymous, List.any_map]
  rfl

theorem anonymous_withImport (id : ImportId) (u : CompilationUnit) (name : String) :
    (withImport id u name).anonymous = withImport 0 u.anonymous name := by
  unfold withImport
  rw [isCovered_anonymous, u.print_anonymous]
  split
  · rfl
  · unfold CompilationUnit.anonymous
    cases u.imports with
    | nil => rfl
    | cons i imports =>
      dsimp only [List.map_cons]
      rw [insertImport_anonymous]
      rfl

/-- The name of a single type, in one line. Every fully-qualified name of a type is one. -/
structure IsTypeName (name : String) : Prop where
  inLine : '\n' ∉ name.toList
  single : endsWith name ".*" = false

instance (name : String) : Decidable (IsTypeName name) :=
  decidable_of_iff ('\n' ∉ name.toList ∧ endsWith name ".*" = false)
    ⟨fun h => ⟨h.1, h.2⟩, fun h => ⟨h.inLine, h.single⟩⟩

theorem any_insertImport {p : Import → Bool} (hp : ∀ (i : Import) lead, p { i with lead } = p i)
    (new : Import) (nl : String) (imports : List Import) :
    (insertImport new nl imports).any p = (imports.any p || p new) := by
  obtain ⟨before, after, rfl, hcut⟩ := exists_cutBehindLast (sortsBefore · new) imports
  have hsettle : (settleBehind new nl before.isEmpty after).any p = after.any p := by
    have hmap : ∀ is : List Import, is.any p = (is.map p).any id := fun is => by
      rw [List.any_map, Function.id_comp]
    rw [hmap, hmap, map_settleBehind hp]
  rw [insertImport_append hcut, List.any_append, List.any_append, List.any_cons, hp, hsettle,
    Bool.or_assoc, Bool.or_comm (p new)]

section

variable {f g : String} {u : CompilationUnit}

theorem withImport_of_covered (h : isCovered u f) (id : ImportId) : withImport id u f = u := by
  rw [withImport, if_pos h]

/-- The import that a unit without imports gets. -/
def firstImport (u : CompilationUnit) (name : String) : Import :=
  let nl := lineEnding u.print
  { id := 0, lead := ⟨if u.package.isSome then nl ++ nl else ""⟩, target := name }

theorem withImport_of_nil (hcovered : isCovered u f = false) (h : u.imports = []) :
    withImport 0 u f =
      { u with
        imports := [firstImport u f]
        types := setApart (lineEnding u.print) u.types } := by
  rw [withImport, hcovered, if_neg Bool.false_ne_true, h]
  rfl

theorem withImport_of_ne_nil (hcovered : isCovered u f = false) (h : u.imports ≠ []) :
    withImport 0 u f = { u with
      imports := insertImport { id := 0, target := f } (lineEnding u.print) u.imports } := by
  rw [withImport, hcovered, if_neg Bool.false_ne_true]
  cases himports : u.imports with
  | nil => exact absurd himports h
  | cons i rest => rfl

theorem imports_withImport_ne_nil (hcovered : isCovered u f = false) :
    (withImport 0 u f).imports ≠ [] := by
  by_cases h : u.imports = []
  · rw [withImport_of_nil hcovered h]
    exact List.cons_ne_nil _ _
  · rw [withImport_of_ne_nil hcovered h]
    obtain ⟨before, after, himports, hcut⟩ :=
      exists_cutBehindLast (sortsBefore · { id := 0, target := f }) u.imports
    rw [himports, insertImport_append hcut]
    simp

/-- With the import of a type the unit covers that type and those it covered. -/
theorem isCovered_withImport (hf : IsTypeName f) (hcovered : isCovered u f = false) (g : String) :
    isCovered (withImport 0 u f) g = (isCovered u g || f == g) := by
  have hnew : ∀ i : Import, i.isStatic = false → i.target = f → importCovers g i = (f == g) := by
    intro i hstatic htarget
    rw [importCovers, hstatic, htarget, Import.isOnDemand, htarget, hf.single]
    simp
  by_cases h : u.imports = []
  · rw [withImport_of_nil hcovered h, isCovered_eq, isCovered_eq u, h, List.any_cons,
      hnew _ rfl rfl]
    simp [CompilationUnit.packageName]
  · rw [withImport_of_ne_nil hcovered h, isCovered_eq, isCovered_eq u,
      any_insertImport (fun _ _ => rfl), hnew _ rfl rfl, ← Bool.or_assoc]
    rfl

theorem isCovered_withImport_of_covered (hf : IsTypeName f) (hg : isCovered u g) :
    isCovered (withImport 0 u f) g := by
  cases hcovered : isCovered u f with
  | true => rwa [withImport_of_covered hcovered]
  | false => rw [isCovered_withImport hf hcovered, hg, Bool.true_or]

theorem print_eq (u : CompilationUnit) :
    u.print = u.lead.text ++ (u.package.map (·.print)).getD "" ++
      (printImports u.imports ++ (printStatements u.types ++ u.close.text)) := by
  simp only [CompilationUnit.print, printImports, String.append_assoc]

/-- An import among others takes the line ending of the unit along. -/
theorem lineEnding_withImport (hf : IsTypeName f) (h : u.imports ≠ []) :
    lineEnding (withImport 0 u f).print = lineEnding u.print := by
  cases hcovered : isCovered u f with
  | true => rw [withImport_of_covered hcovered]
  | false =>
    rw [withImport_of_ne_nil hcovered h, print_eq]
    exact lineEnding_insertImport hf.inLine h (congrArg lineEnding (print_eq u).symm)

/-- Of a first import nothing but its code depends on the type. -/
theorem exists_print_withImport (h : u.imports = []) :
    ∃ front back, ∀ name, isCovered u name = false →
      (withImport 0 u name).print = front ++ ((firstImport u name).code ++ back) := by
  refine ⟨u.lead.text ++ (u.package.map (·.print)).getD "" ++ (firstImport u "").lead.text,
    printStatements (setApart (lineEnding u.print) u.types) ++ u.close.text, fun name hname => ?_⟩
  rw [withImport_of_nil hname h, print_eq]
  simp only [printImports_cons, printImports_nil, String.append_empty, String.append_assoc]
  rfl

theorem lineEnding_first (hf : IsTypeName f) (hg : IsTypeName g) (h : u.imports = [])
    (hfcovered : isCovered u f = false) (hgcovered : isCovered u g = false) :
    lineEnding (withImport 0 u f).print = lineEnding (withImport 0 u g).print := by
  obtain ⟨front, back, hprint⟩ := exists_print_withImport h
  rw [hprint f hfcovered, hprint g hgcovered]
  exact lineEnding_replace (newline_not_mem_code hf.inLine) (newline_not_mem_code hg.inLine)
    (getLast?_code _) (getLast?_code _) front back

/-- The space of an import is of no account among others. -/
theorem insertImport_lead (new : Import) (lead : Space) (nl : String) {imports : List Import}
    (h : imports ≠ []) : insertImport { new with lead } nl imports = insertImport new nl imports := by
  obtain ⟨before, after, rfl, hcut⟩ := exists_cutBehindLast (sortsBefore · new) imports
  have hcut' : CutBehindLast (sortsBefore · { new with lead }) before after := hcut
  rw [insertImport_append hcut, insertImport_append hcut']
  cases before with
  | nil =>
    cases after with
    | nil => exact absurd rfl h
    | cons first rest => rfl
  | cons b before => rfl

/-- Two imports of a unit that covers neither type yet. -/
theorem withImport_comm_of_not_covered (hf : IsTypeName f) (hg : IsTypeName g) (hne : f ≠ g)
    (hfcovered : isCovered u f = false) (hgcovered : isCovered u g = false) :
    withImport 0 (withImport 0 u f) g = withImport 0 (withImport 0 u g) f := by
  have hgafter : isCovered (withImport 0 u f) g = false := by
    rw [isCovered_withImport hf hfcovered, hgcovered, Bool.false_or]
    exact beq_false_of_ne hne
  have hfafter : isCovered (withImport 0 u g) f = false := by
    rw [isCovered_withImport hg hgcovered, hfcovered, Bool.false_or]
    exact beq_false_of_ne hne.symm
  have hkey : ∀ lead : Space, sortKey { id := 0, lead, target := f } ≠
      sortKey { id := 0, lead, target := g } := fun _ heq =>
    hne (congrArg (fun k => (ofLex k).2) heq)
  have hcomm : ∀ (lead : Space) (s : String) (imports : List Import),
      insertImport { id := 0, lead, target := g } (lineEnding s)
          (insertImport { id := 0, lead, target := f } (lineEnding s) imports) =
        insertImport { id := 0, lead, target := f } (lineEnding s)
          (insertImport { id := 0, lead, target := g } (lineEnding s) imports) :=
    fun lead s imports =>
      insertImport_comm (visible_lineEnding s) (fun heq => absurd heq (hkey lead)) rfl imports
  by_cases h : u.imports = []
  · have hending := lineEnding_first hf hg h hfcovered hgcovered
    have hboth : ∀ s, insertImport { id := 0, target := g } (lineEnding s) [firstImport u f] =
        insertImport { id := 0, target := f } (lineEnding s) [firstImport u g] := by
      intro s
      rw [← insertImport_lead { id := 0, target := g } (firstImport u g).lead _
          (List.cons_ne_nil _ _),
        ← insertImport_lead { id := 0, target := f } (firstImport u f).lead _
          (List.cons_ne_nil _ _)]
      exact hcomm (firstImport u f).lead s []
    rw [withImport_of_ne_nil hgafter (imports_withImport_ne_nil hfcovered),
      withImport_of_ne_nil hfafter (imports_withImport_ne_nil hgcovered), hending]
    have himports : (withImport 0 u f).imports = [firstImport u f] ∧
        (withImport 0 u g).imports = [firstImport u g] := by
      rw [withImport_of_nil hfcovered h, withImport_of_nil hgcovered h]
      exact ⟨rfl, rfl⟩
    rw [himports.1, himports.2, hboth, withImport_of_nil hfcovered h,
      withImport_of_nil hgcovered h]
  · rw [withImport_of_ne_nil hgafter (imports_withImport_ne_nil hfcovered),
      withImport_of_ne_nil hfafter (imports_withImport_ne_nil hgcovered),
      lineEnding_withImport hf h, lineEnding_withImport hg h, withImport_of_ne_nil hfcovered h,
      withImport_of_ne_nil hgcovered h, hcomm .empty]

/-- Two imports can be added in either order. -/
theorem withImport_comm (hf : IsTypeName f) (hg : IsTypeName g) (u : CompilationUnit) :
    withImport 0 (withImport 0 u f) g = withImport 0 (withImport 0 u g) f := by
  rcases eq_or_ne f g with rfl | hne
  · rfl
  cases hfcovered : isCovered u f with
  | true =>
    rw [withImport_of_covered hfcovered,
      withImport_of_covered (isCovered_withImport_of_covered hg hfcovered)]
  | false =>
    cases hgcovered : isCovered u g with
    | true =>
      rw [withImport_of_covered hgcovered,
        withImport_of_covered (isCovered_withImport_of_covered hf hgcovered)]
    | false => exact withImport_comm_of_not_covered hf hg hne hfcovered hgcovered

end

/-! ## Collected edits -/

theorem anonymous_addImport (u : CompilationUnit) (name : String) :
    ((addImport u name).get u).anonymous = withImport 0 u.anonymous name := by
  rw [get_addImport, anonymous_withImport]

theorem dropImport_anonymous {p : Import → Bool} (hp : ∀ i : Import, p i.anonymous = p i)
    (isFirst : Bool) (imports : List Import) :
    dropImport p isFirst (imports.map Import.anonymous) =
      (dropImport p isFirst imports).map (List.map Import.anonymous) := by
  induction imports generalizing isFirst with
  | nil => rfl
  | cons i rest ih =>
    cases hi : p i with
    | false =>
      rw [List.map_cons, dropImport.eq_def, dropImport.eq_def p isFirst (i :: rest)]
      simp only [hp, hi, Bool.false_eq_true, if_false, ih, Option.map_map]
      rfl
    | true =>
      cases rest with
      | nil => simp only [List.map_cons, List.map_nil, dropImport, hp, hi, if_true, Option.map_some]
      | cons next more =>
        simp only [List.map_cons, dropImport, hp, hi, if_true,
          apply_ite (Option.map (List.map Import.anonymous))]
        rfl

theorem anonymous_removeImport (u : CompilationUnit) (name : String) :
    ((removeImport u name).get u).anonymous =
      ((removeImport u.anonymous name).get u.anonymous).anonymous := by
  have hdrop := dropImport_anonymous (p := fun i => !i.isStatic && i.target == name)
    (fun _ => rfl) true u.imports
  have hpieces : u.anonymous.anyPiece (refersTo name) = u.anyPiece (refersTo name) := by
    rw [anyPiece_refersTo, anyPiece_refersTo]
    rfl
  unfold removeImport
  rw [hpieces, show u.anonymous.imports = u.imports.map Import.anonymous from rfl, hdrop]
  cases dropImport (fun i => !i.isStatic && i.target == name) true u.imports with
  | none => exact u.anonymous_anonymous.symm
  | some imports =>
    dsimp only [Option.map_some]
    split
    · exact u.anonymous_anonymous.symm
    · rw [List.isEmpty_map]
      exact (CompilationUnit.anonymous_anonymous _).symm

/-- What edits make of a unit without the identities of imports, if one edit does not depend on
them. -/
theorem anonymous_applyAll {edit : CompilationUnit → String → Revision CompilationUnit}
    {step : CompilationUnit → String → CompilationUnit}
    (h : ∀ u name, ((edit u name).get u).anonymous = step u.anonymous name) (u : CompilationUnit)
    (names : List String) :
    ((ImportEdits.applyAll edit u names).get u).anonymous = names.foldl step u.anonymous := by
  induction names generalizing u with
  | nil => rfl
  | cons name rest ih => rw [get_applyAll_cons, ih, h, List.foldl_cons]

theorem anonymous_apply (e : ImportEdits) (u : CompilationUnit) :
    ((e.apply u).get u).anonymous =
      e.removals.foldl (fun v name => ((removeImport v name).get v).anonymous)
        (e.additions.foldl (withImport 0) u.anonymous) := by
  have hremoved : ∀ v names, ((ImportEdits.applyAll removeImport v names).get v).anonymous =
      names.foldl (fun v name => ((removeImport v name).get v).anonymous) v.anonymous :=
    anonymous_applyAll anonymous_removeImport
  rw [get_apply, hremoved, anonymous_applyAll anonymous_addImport]

/-- Requests for additions may come in any order. -/
theorem anonymous_apply_perm {names names' : List String} (hperm : names.Perm names')
    (hnames : ∀ name ∈ names, IsTypeName name) (e : ImportEdits) (u : CompilationUnit) :
    (((names.foldl ImportEdits.add e).apply u).get u).anonymous =
      (((names'.foldl ImportEdits.add e).apply u).get u).anonymous := by
  obtain ⟨fresh, hfresh, hnodup, hmem⟩ := exists_foldl_add names e
  obtain ⟨fresh', hfresh', hnodup', hmem'⟩ := exists_foldl_add names' e
  have hsame : fresh.Perm fresh' := (List.perm_ext_iff_of_nodup hnodup hnodup').mpr fun name => by
    rw [hmem, hmem', hperm.mem_iff]
  have hadded : ∀ v, fresh.foldl (withImport 0) v = fresh'.foldl (withImport 0) v := fun v =>
    hsame.foldl_eq' (fun f hf g hg w => withImport_comm (hnames f ((hmem f).mp hf).1)
      (hnames g ((hmem g).mp hg).1) w) v
  rw [hfresh, hfresh', anonymous_apply, anonymous_apply]
  simp only [List.foldl_append, hadded]

/-- Adding two imports in either order gives the same unit but for the identities of the imports,
and so does applying edits whose additions were requested in another order. -/
theorem adding_imports_commutes {f g : String} (hf : IsTypeName f) (hg : IsTypeName g)
    {names names' : List String} (hperm : names.Perm names')
    (hnames : ∀ name ∈ names, IsTypeName name) (e : ImportEdits) (u : CompilationUnit) :
    let added (v : CompilationUnit) (name : String) := (addImport v name).get v
    let applied (requests : List String) := ((requests.foldl ImportEdits.add e).apply u).get u
    ((added (added u f) g).anonymous = (added (added u g) f).anonymous ∧
        (added (added u f) g).print = (added (added u g) f).print) ∧
      (applied names).anonymous = (applied names').anonymous ∧
        (applied names).print = (applied names').print := by
  have htwo : ((addImport ((addImport u f).get u) g).get ((addImport u f).get u)).anonymous =
      ((addImport ((addImport u g).get u) f).get ((addImport u g).get u)).anonymous := by
    rw [anonymous_addImport, anonymous_addImport, anonymous_addImport, anonymous_addImport,
      withImport_comm hf hg]
  have hall := anonymous_apply_perm hperm hnames e u
  refine ⟨⟨htwo, ?_⟩, hall, ?_⟩
  · rw [← CompilationUnit.print_anonymous, htwo, CompilationUnit.print_anonymous]
  · rw [← CompilationUnit.print_anonymous, hall, CompilationUnit.print_anonymous]

theorem first_and_last_import_in_either_order :
    let u : CompilationUnit :=
      { path := "A.java"
        package := none
        imports := [{ id := 0, target := "org.b.C" }]
        types := [.raw { id := 0, lead := ⟨"\n\n"⟩, text := "class A \x7b\x7d" }]
        close := ⟨"\n"⟩ }
    let added (v : CompilationUnit) (name : String) := (addImport v name).get v
    (added (added u "org.a.B") "java.util.List").print =
        "import org.a.B;\nimport org.b.C;\n\nimport java.util.List;\n\nclass A \x7b\x7d\n" ∧
      (added (added u "java.util.List") "org.a.B").print =
        (added (added u "org.a.B") "java.util.List").print := by
  intro u added
  have hcommutes := adding_imports_commutes (f := "org.a.B") (g := "java.util.List") (by decide)
    (by decide) (List.Perm.swap "java.util.List" "org.a.B" []) (by decide) {} u
  exact ⟨by decide +kernel, hcommutes.1.2.symm⟩

end JavaMigration.Edit
