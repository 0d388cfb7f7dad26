import JavaMigration.Edit.Template
import JavaMigration.Proofs.Java.Unannotated

/-!
# From the code of a template to what it adds

What a template adds was read from its code inside a class, with tokens for its placeholders, and
the nodes for the tokens change names only. So a template adds no annotated variable where the
source it was read from has none.
-/

namespace JavaMigration.Edit

open Java Source

/-! ## Tokens for placeholders -/

theorem dropBlanks_subset (s : List Char) : dropBlanks s ⊆ s :=
  (List.dropWhile_suffix _).subset

theorem readAny_subset {s rest : List Char} {type : String} (h : readAny s = some (type, rest)) :
    rest ⊆ s := by
  unfold readAny at h
  obtain ⟨behind, hbehind, h⟩ := Option.bind_eq_some_iff.mp h
  obtain ⟨last, hlast, h⟩ := Option.bind_eq_some_iff.mp h
  cases h
  calc dropBlanks last
    _ ⊆ last := dropBlanks_subset last
    _ ⊆ _ := (dropStart?_suffix hlast).subset
    _ ⊆ _ := dropBlanks_subset _
    _ ⊆ dropBlanks behind := (List.dropWhile_suffix _).subset
    _ ⊆ behind := dropBlanks_subset behind
    _ ⊆ s := (dropStart?_suffix hbehind).subset

theorem readPlaceholder_subset {s rest : List Char} {type : Option String}
    (h : readPlaceholder s = some (type, rest)) : rest ⊆ s := by
  refine List.Subset.trans ?_ (dropBlanks_subset s)
  unfold readPlaceholder at h
  dsimp only at h
  generalize dropBlanks s = behind at h
  split at h
  · next hany =>
    cases h
    exact List.Subset.trans (List.subset_cons_self _ _) (readAny_subset hany)
  · split at h
    · cases h
      exact List.subset_cons_self _ _
    · cases h

/-- In front of the first number sign the code stays. -/
theorem replacePlaceholders_append {front : List Char} (hfront : '#' ∉ front) (n : Nat)
    (bound s : List Char) (hbound : front.length ≤ bound.length) :
    (replacePlaceholders n bound (front ++ s)).1 =
      front ++ (replacePlaceholders n (bound.drop front.length) s).1 := by
  induction front generalizing bound with
  | nil => rfl
  | cons c front ih =>
    cases bound with
    | nil => simp at hbound
    | cons b bound =>
      have hne : (c == '#') = false := by simpa using (List.ne_of_not_mem_cons hfront).symm
      have hih := ih (List.not_mem_of_not_mem_cons hfront) bound (by simpa using hbound)
      rw [List.cons_append, replacePlaceholders, hne]
      simp [hih]

/-- Tokens for placeholders are words. -/
theorem not_mem_token {c : Char} (hdigit : c.isDigit = false) (hword : c ∉ "__p".toList) (n : Nat) :
    c ∉ ("__p" ++ toString n ++ "__").toList := by
  have hnumber : c ∉ (toString n).toList := by
    intro hc
    rw [show (toString n).toList = Nat.toDigits 10 n from Nat.toList_repr] at hc
    rw [Nat.isDigit_of_mem_toDigits (by decide) (by decide) hc] at hdigit
    cases hdigit
  simp_all

theorem not_mem_replacePlaceholders {s : List Char} (h : '@' ∉ s) (n : Nat) (bound : List Char) :
    '@' ∉ (replacePlaceholders n bound s).1 := by
  induction bound generalizing n s with
  | nil => exact h
  | cons b bound ih =>
    cases s with
    | nil => exact List.not_mem_nil
    | cons c r =>
      have hc := List.ne_of_not_mem_cons h
      have hr := List.not_mem_of_not_mem_cons h
      unfold replacePlaceholders
      extract_lets placeholder
      cases hplaceholder : placeholder with
      | none => exact List.not_mem_cons_of_ne_of_not_mem hc (ih hr n)
      | some found =>
        obtain ⟨type, rest⟩ := found
        have hrest : rest ⊆ r := by
          unfold placeholder at hplaceholder
          split at hplaceholder
          · obtain ⟨behind, hbehind, hread⟩ := Option.bind_eq_some_iff.mp hplaceholder
            exact List.Subset.trans (readPlaceholder_subset hread) (dropStart?_suffix hbehind).subset
          · cases hplaceholder
        have hmore := ih (fun hmem => hr (hrest hmem)) (n + 1)
        exact List.not_mem_append (not_mem_token (by decide) (by decide) n) hmore

/-! ## The source around the code -/

theorem toList_placeholdersOf (code : String) :
    (placeholdersOf code).1.toList = (replacePlaceholders 0 code.toList code.toList).1 := by
  unfold placeholdersOf
  exact String.toList_ofList

/-- The import declarations in front of the class around a template. -/
def importLines (imports : List String) : String :=
  String.join (imports.map fun name => "import " ++ name ++ ";\n")

theorem not_mem_importLines {imports : List String} (h : ∀ name ∈ imports, '@' ∉ name.toList) :
    '@' ∉ (importLines imports).toList := by
  simpa [importLines] using h

theorem toList_wrap (imports : List String) (code : String) :
    (wrap imports code).toList =
      (importLines imports ++ "class __Template \x7b\n").toList ++ code.toList ++
        ['\n', '\x7d', '\n'] := by
  simp [wrap, importLines, wrapperName]

theorem unannotated_of_wrapped {imports : List String} {code : String} {members : List Statement}
    (h : wrapped imports code = some members)
    (hunit : ∀ u, parse? (.ofList imports) wrapperPath (wrap imports code) = some u →
      Unannotated u.types) : Unannotated members := by
  unfold wrapped at h
  obtain ⟨u, hu, rfl⟩ := Option.map_eq_some_iff.mp h
  cases hfind : u.typeDecls.find? (·.name.name == wrapperName) with
  | none => exact nofun
  | some d =>
    have hd : .type d ∈ u.types := by
      obtain ⟨s, hs, hsome⟩ := List.mem_filterMap.mp (List.mem_of_find?_eq_some hfind)
      split at hsome
      · cases hsome
        exact hs
      · cases hsome
    intro v hv
    refine hunit u hu v (mem_allVarsOf_iff.mpr ⟨_, hd, ?_⟩)
    rw [Statement.allVars_type]
    exact hv

theorem unannotated_firstBody {members : List Statement} (h : Unannotated members) :
    Unannotated (firstBody members) := by
  unfold firstBody
  cases hfind : members.findSome? _ with
  | none => exact nofun
  | some body =>
    obtain ⟨s, hs, hbody⟩ := List.exists_of_findSome?_eq_some hfind
    split at hbody
    · next d =>
      obtain ⟨b, hb, rfl⟩ := Option.map_eq_some_iff.mp hbody
      intro v hv
      refine h v (mem_allVarsOf_iff.mpr ⟨_, hs, ?_⟩)
      rw [Statement.allVars_method hb]
      exact hv
    · cases hbody

/-! ## Shapes -/

/-- Members of a type are what was read from the code as it is. -/
theorem wrapped_of_members {imports : List String} {code : String} {members : List Statement}
    (h : shapeOf imports code = .ok (.members members)) : wrapped imports code = some members := by
  unfold shapeOf at h
  extract_lets name asStatements at h
  have hstatements : asStatements ≠ .ok (.members members) := by
    unfold asStatements
    split <;> simp
  split at h
  · split at h <;> cases h
  · split at h
    · next members' hwrapped =>
      split at h
      · cases h
        exact hwrapped
      · exact absurd h hstatements
    · exact absurd h hstatements

/-- Statements are what was read from the code in a method. -/
theorem wrapped_of_statements {imports : List String} {code : String}
    {statements : List Statement} (h : shapeOf imports code = .ok (.statements statements)) :
    ∃ members, wrapped imports ("void __template() \x7b\n" ++ code ++ "\n\x7d") = some members ∧
      statements = firstBody members := by
  unfold shapeOf at h
  extract_lets name asStatements at h
  have hstatements : asStatements = .ok (.statements statements) → ∃ members,
      wrapped imports ("void __template() \x7b\n" ++ code ++ "\n\x7d") = some members ∧
        statements = firstBody members := by
    unfold asStatements
    intro hshape
    split at hshape
    · next members hwrapped =>
      cases hshape
      exact ⟨members, hwrapped, rfl⟩
    · cases hshape
  split at h
  · split at h <;> cases h
  · split at h
    · split at h
      · cases h
      · exact hstatements h
    · exact hstatements h

/-- A template holds its code and imports, and what the code is read as. -/
theorem build_ok {code : String} {imports : List String} {t : Template}
    (h : Template.build code imports = .ok t) :
    ∃ shape, shapeOf imports (placeholdersOf code).1 = .ok shape ∧
      t = { code, imports, placeholders := (placeholdersOf code).2, shape, layout := .indented } := by
  unfold Template.build at h
  generalize placeholdersOf code = pair at h ⊢
  obtain ⟨text, placeholders⟩ := pair
  dsimp only at h ⊢
  split at h
  · cases h
  · cases hshape : shapeOf imports text with
    | error fault =>
      rw [hshape] at h
      cases h
    | ok shape =>
      rw [hshape] at h
      cases h
      exact ⟨shape, rfl, rfl⟩

theorem shape_of_build {code : String} {imports : List String} {t : Template}
    (h : Template.build code imports = .ok t) :
    shapeOf imports (placeholdersOf code).1 = .ok t.shape := by
  obtain ⟨shape, hshape, rfl⟩ := build_ok h
  exact hshape

/-! ## Filling -/

theorem allVarsOf_fillStatements (b : Bindings) (ss : List Statement) :
    allVarsOf (b.fillStatements ss) = (allVarsOf ss).map b.fillVariables := by
  induction ss using statements_induction with
  | nil => rfl
  | type d rest hbody hrest =>
    have hfill : (b.fillType d).body.statements = b.fillStatements d.body.statements := by
      cases d with
      | mk _ _ _ _ _ _ _ _ body _ => cases body; rfl
    rw [Bindings.fillStatements, Bindings.fillStatement, allVarsOf_cons, allVarsOf_cons,
      Statement.allVars_type, Statement.allVars_type, hfill, hbody, hrest, List.map_append]
  | method d body rest hb hbody hrest =>
    have hfill : (b.fillMethod d).body = some (b.fillBlock body) := by
      cases d; subst hb; rfl
    have hstatements : (b.fillBlock body).statements = b.fillStatements body.statements := by
      cases body; rfl
    rw [Bindings.fillStatements, Bindings.fillStatement, allVarsOf_cons, allVarsOf_cons,
      Statement.allVars_method hfill, Statement.allVars_method hb, hstatements, hbody, hrest,
      List.map_append]
  | signature d rest hb hrest =>
    have hfill : (b.fillMethod d).body = none := by
      cases d; subst hb; rfl
    rw [Bindings.fillStatements, Bindings.fillStatement, allVarsOf_cons, allVarsOf_cons,
      Statement.allVars_signature hfill, Statement.allVars_signature hb, hrest, List.map_append,
      List.map_nil]
  | vars d rest hrest => exact congrArg (b.fillVariables d :: ·) hrest
  | call c rest hrest => exact hrest
  | raw r rest hrest => exact hrest

/-- The nodes for the tokens bring no annotations. -/
theorem unannotated_fill {ss : List Statement} (h : Unannotated ss) (t : Template)
    (arguments : List Node) : Unannotated (t.fill arguments ss) := by
  intro d hd
  unfold Template.fill at hd
  rw [allVarsOf_fillStatements] at hd
  obtain ⟨e, he, rfl⟩ := List.mem_map.mp hd
  exact List.map_eq_nil_iff.mpr (h e he)

/-- What a template without at-signs adds declares no annotated variable. -/
theorem unannotated_statements {code : String} {imports : List String} {t : Template}
    (hbuild : Template.build code imports = .ok t) (hcode : '@' ∉ code.toList)
    (himports : ∀ name ∈ imports, '@' ∉ name.toList) {arguments : List Node}
    {new : List Statement} (h : t.asStatements? arguments = some new) : Unannotated new := by
  have hshape := shape_of_build hbuild
  have htext : '@' ∉ (placeholdersOf code).1.toList := by
    rw [toList_placeholdersOf]
    exact not_mem_replacePlaceholders hcode 0 _
  have hread : ∀ (code : String) (members : List Statement), '@' ∉ code.toList →
      wrapped imports code = some members → Unannotated members := by
    intro code members hcode hwrapped
    refine unannotated_of_wrapped hwrapped fun u hu => Java.unannotated_of_no_at hu ?_
    have hlines := not_mem_importLines himports
    rw [toList_wrap]
    simp [hlines, hcode]
  unfold Template.asStatements? at h
  split at h
  · next statements hstatements =>
    cases h
    rw [hstatements] at hshape
    obtain ⟨members, hwrapped, rfl⟩ := wrapped_of_statements hshape
    exact unannotated_fill (unannotated_firstBody (hread _ _ (by simp [htext]) hwrapped)) t arguments
  · next members hmembers =>
    split at h
    · cases h
      rw [hmembers] at hshape
      exact unannotated_fill (hread _ _ htext (wrapped_of_members hshape)) t arguments
    · cases h
  · cases h

/-- What a template with one annotation, in front of a method, adds to a type declares no annotated
variable. -/
theorem unannotated_members {code : String} {imports : List String} {t : Template}
    (hbuild : Template.build code imports = .ok t) {name method back : List Char}
    (hcode : code.toList =
      '@' :: (name ++ '\n' :: ("void".toList ++ ' ' :: (method ++ '(' :: back))))
    (hname : isIdentifier name) (hmethod : isIdentifier method) (hback : '@' ∉ back)
    (himports : ∀ name ∈ imports, '@' ∉ name.toList) {arguments : List Node}
    {new : List Statement} (h : t.asMembers? arguments = some new) : Unannotated new := by
  let front := '@' :: (name ++ '\n' :: ("void".toList ++ ' ' :: (method ++ ['('])))
  have hsplit : code.toList = front ++ back := by
    rw [hcode]
    simp [front]
  have hnumber : '#' ∉ front := by
    have hword : ∀ {w : List Char}, isIdentifier w → '#' ∉ w := fun hw =>
      not_mem_of_isIdentifier hw (by decide) (by decide)
    simp [front, hword hname, hword hmethod]
  let text := (placeholdersOf code).1
  obtain ⟨behind, hbehind, htext⟩ : ∃ behind, '@' ∉ behind ∧ text.toList = front ++ behind := by
    refine ⟨_, not_mem_replacePlaceholders hback 0 (code.toList.drop front.length), ?_⟩
    rw [toList_placeholdersOf, ← replacePlaceholders_append hnumber 0 code.toList back (by simp [hsplit]),
      ← hsplit]
  unfold Template.asMembers? at h
  split at h
  · next members hmembers =>
    cases h
    have hshape := shape_of_build hbuild
    rw [hmembers] at hshape
    refine unannotated_fill (unannotated_of_wrapped (wrapped_of_members hshape) fun u hu => ?_) t arguments
    have hsource : (wrap imports text).toList =
        (importLines imports ++ "class __Template \x7b\n").toList ++
          '@' :: (name ++ '\n' :: ("void".toList ++ ' ' :: (method ++ '(' ::
            (behind ++ ['\n', '\x7d', '\n'])))) := by
      rw [toList_wrap, htext]
      simp [front]
    refine Java.unannotated_of_one_method hu hname hmethod ?_ ?_ hsource
    · simp [not_mem_importLines himports]
    · simp [hbehind]
  · cases h

end JavaMigration.Edit
