import JavaMigration.Proofs.Source.Declared
import JavaMigration.Proofs.Source.Printing

/-!
# The segments of a tree

A tree as the list of its spaces and of the code between them, in the order in which they are
printed.
-/

namespace JavaMigration.Source

/-- Space, or what stands between two spaces. -/
inductive Segment where
  | space (s : Space)
  | code (text : String)
  deriving DecidableEq, Repr, Inhabited

def Segment.print : Segment → String
  | space s => s.text
  | code text => text

def printSegments (ps : List Segment) : String := String.join (ps.map (·.print))

@[simp] theorem printSegments_nil : printSegments [] = "" := rfl

@[simp] theorem printSegments_cons (p : Segment) (ps : List Segment) :
    printSegments (p :: ps) = p.print ++ printSegments ps := by
  rw [printSegments, List.map_cons, String.join_cons]
  rfl

@[simp] theorem printSegments_append (ps qs : List Segment) :
    printSegments (ps ++ qs) = printSegments ps ++ printSegments qs := by
  rw [printSegments, List.map_append, String.join_append]
  rfl

@[simp] theorem Segment.print_space (s : Space) : (space s).print = s.text := rfl

@[simp] theorem Segment.print_code (text : String) : (code text).print = text := rfl

/-! ## The segments of each node -/

def Identifier.segments (i : Identifier) : List Segment := [.space i.lead, .code i.name]

def Annotation.segments (a : Annotation) : List Segment :=
  [.space a.lead, .code ("@" ++ a.name.print ++ a.arguments.getD "")]

def Modifier.segments (m : Modifier) : List Segment := [.space m.lead, .code m.word]

def Package.segments (p : Package) : List Segment := [.space p.lead, .code p.text]

def Import.segments (i : Import) : List Segment :=
  [.space i.lead, .code ((if i.isStatic then "import static " else "import ") ++ i.target ++ ";")]

def leadingSegments (annotations : List Annotation) (modifiers : List Modifier) : List Segment :=
  annotations.flatMap (·.segments) ++ modifiers.flatMap (·.segments)

def VariableDecl.segments (d : VariableDecl) : List Segment :=
  .space d.lead :: leadingSegments d.annotations d.modifiers ++ d.type.segments ++
    [.code (String.intercalate "," (d.declarators.map (·.print))), .space d.close, .code ";"]

def Call.segments (c : Call) : List Segment := [.space c.lead, .code { c with lead := .empty }.print]

def RawCode.segments (r : RawCode) : List Segment := [.space r.lead, .code r.text]

def Throws.segments (t : Throws) : List Segment :=
  [.space t.lead, .code "throws"] ++ (t.types.map fun i => .code i.print).intersperse (.code ",")

/-- The segments of a type declaration up to its body. -/
def TypeDecl.headSegments (d : TypeDecl) : List Segment :=
  .space d.lead :: leadingSegments d.annotations d.modifiers ++
    [.space d.kindLead, .code (d.kind.keyword ++ d.name.print ++ d.header)]

/-- The segments of a method up to its body or semicolon. -/
def MethodDecl.headSegments (d : MethodDecl) : List Segment :=
  .space d.lead :: leadingSegments d.annotations d.modifiers ++ d.returnType.segments ++
    [.code (d.name.print ++ d.parameters)] ++ (d.throws.map (·.segments)).getD []

mutual

def Statement.segments : Statement → List Segment
  | .type d => d.segments
  | .method d => d.segments
  | .vars d => d.segments
  | .call c => c.segments
  | .raw r => r.segments

def TypeDecl.segments : TypeDecl → List Segment
  | ⟨id, lead, annotations, modifiers, kind, kindLead, name, header, body, type⟩ =>
    TypeDecl.headSegments ⟨id, lead, annotations, modifiers, kind, kindLead, name, header, body,
      type⟩ ++ body.segments

def MethodDecl.segments : MethodDecl → List Segment
  | ⟨id, lead, annotations, modifiers, returnType, name, parameters, throws, body, close⟩ =>
    MethodDecl.headSegments ⟨id, lead, annotations, modifiers, returnType, name, parameters, throws,
      body, close⟩ ++
      match body with
      | some body => body.segments
      | none => [.space close, .code ";"]

def Block.segments : Block → List Segment
  | ⟨lead, statements, close⟩ =>
    [.space lead, .code "\x7b"] ++ segmentsOf statements ++ [.space close, .code "\x7d"]

def segmentsOf : List Statement → List Segment
  | [] => []
  | s :: r => s.segments ++ segmentsOf r

end

def CompilationUnit.segments (u : CompilationUnit) : List Segment :=
  .space u.lead :: (u.package.map (·.segments)).getD [] ++ u.imports.flatMap (·.segments) ++
    segmentsOf u.types ++ [.space u.close]

theorem segmentsOf_append (ss ts : List Statement) : segmentsOf (ss ++ ts) = segmentsOf ss ++ segmentsOf ts := by
  induction ss with
  | nil => rfl
  | cons s ss ih => rw [List.cons_append, segmentsOf, segmentsOf, ih, List.append_assoc]

theorem Block.segments_eq (b : Block) :
    b.segments =
      [.space b.lead, .code "\x7b"] ++ segmentsOf b.statements ++ [.space b.close, .code "\x7d"] := by
  cases b; rfl

theorem TypeDecl.segments_eq (d : TypeDecl) : d.segments = d.headSegments ++ d.body.segments := by
  cases d; rfl

theorem MethodDecl.segments_of_some {d : MethodDecl} {b : Block} (h : d.body = some b) :
    d.segments = d.headSegments ++ b.segments := by
  cases d; subst h; rfl

theorem MethodDecl.segments_of_none {d : MethodDecl} (h : d.body = none) :
    d.segments = d.headSegments ++ [.space d.close, .code ";"] := by
  cases d; subst h; rfl

/-- Every statement begins with its space, on which the other segments do not depend. -/
theorem Statement.segments_withLead (s : Statement) (lead : Space) :
    (s.withLead lead).segments = .space lead :: s.segments.tail := by
  cases s with
  | type d => cases d; rfl
  | method d => cases d; rfl
  | vars d => rfl
  | call c => rfl
  | raw r => rfl

/-! ## Printing the segments -/

theorem printSegments_flatMap {α : Type} {segments : α → List Segment} {print : α → String} {as : List α}
    (h : ∀ a ∈ as, printSegments (segments a) = print a) :
    printSegments (as.flatMap segments) = String.join (as.map print) := by
  induction as with
  | nil => rfl
  | cons a as ih =>
    obtain ⟨ha, has⟩ := List.forall_mem_cons.mp h
    rw [List.flatMap_cons, printSegments_append, ha, ih has, List.map_cons, String.join_cons]

theorem print_leadingSegments (annotations : List Annotation) (modifiers : List Modifier) :
    printSegments (leadingSegments annotations modifiers) = printLeading annotations modifiers := by
  have hannotation : ∀ a : Annotation, printSegments a.segments = a.print := fun a => by
    simp [String.append_assoc, Annotation.segments, Annotation.print]
  have hmodifier : ∀ m : Modifier, printSegments m.segments = m.print := fun m => by
    simp [Modifier.segments, Modifier.print]
  rw [leadingSegments, printSegments_append, printSegments_flatMap fun a _ => hannotation a,
    printSegments_flatMap fun m _ => hmodifier m, printLeading]

theorem print_thrown (is : List Identifier) :
    printSegments ((is.map fun i => Segment.code i.print).intersperse (.code ",")) =
      String.intercalate "," (is.map (·.print)) := by
  induction is with
  | nil => rfl
  | cons i is ih =>
    cases is with
    | nil => simp
    | cons j is =>
      simp only [List.map_cons] at ih ⊢
      rw [List.intersperse_cons_cons, printSegments_cons, printSegments_cons, ih,
        String.intercalate_cons_of_ne_nil (List.cons_ne_nil _ _), String.append_assoc]
      rfl

theorem print_throwsSegments (t : Throws) : printSegments t.segments = t.print := by
  rw [Throws.segments, printSegments_append, print_thrown]
  simp [Throws.print]

theorem print_headSegments_type (d : TypeDecl) : printSegments d.headSegments = d.printHead := by
  simp [TypeDecl.headSegments, TypeDecl.printHead, print_leadingSegments, String.append_assoc]

theorem print_headSegments_method (d : MethodDecl) :
    printSegments d.headSegments = d.printHead := by
  have hthrows : printSegments ((d.throws.map (·.segments)).getD []) =
      (d.throws.map (·.print)).getD "" := by
    cases d.throws with
    | none => rfl
    | some t => exact print_throwsSegments t
  simp [MethodDecl.headSegments, MethodDecl.printHead, print_leadingSegments, hthrows,
    Identifier.segments, Identifier.print, String.append_assoc]

theorem print_segments_vars (d : VariableDecl) : printSegments d.segments = d.print := by
  simp [VariableDecl.segments, VariableDecl.print, print_leadingSegments, Identifier.segments,
    Identifier.print, String.append_assoc]

/-- The segments of some statements print as the statements do. -/
theorem print_segmentsOf (ss : List Statement) :
    printSegments (segmentsOf ss) = printStatements ss := by
  induction ss using statements_induction with
  | nil => rfl
  | type d rest hbody hrest =>
    rw [segmentsOf, printSegments_append, hrest, printStatements, Statement.segments,
      d.segments_eq, printSegments_append, print_headSegments_type, d.body.segments_eq]
    simp [Statement.print, d.print_eq, d.body.print_eq, hbody, String.append_assoc]
  | method d b rest hb hbody hrest =>
    rw [segmentsOf, printSegments_append, hrest, printStatements, Statement.segments,
      d.segments_of_some hb, printSegments_append, print_headSegments_method, b.segments_eq]
    simp [Statement.print, d.print_eq, hb, b.print_eq, hbody, String.append_assoc]
  | signature d rest hb hrest =>
    rw [segmentsOf, printSegments_append, hrest, printStatements, Statement.segments,
      d.segments_of_none hb, printSegments_append, print_headSegments_method]
    simp [Statement.print, d.print_eq, hb]
  | vars d rest hrest =>
    rw [segmentsOf, printSegments_append, hrest, printStatements, Statement.segments,
      print_segments_vars]
    rfl
  | call c rest hrest =>
    rw [segmentsOf, printSegments_append, hrest, printStatements]
    simp [Statement.segments, Statement.print, Call.segments, Call.print, String.append_assoc]
  | raw r rest hrest =>
    rw [segmentsOf, printSegments_append, hrest, printStatements]
    simp [Statement.segments, Statement.print, RawCode.segments, RawCode.print]

theorem print_segments (u : CompilationUnit) : printSegments u.segments = u.print := by
  have himport : ∀ i : Import, printSegments i.segments = i.print := fun i => by
    simp [Import.segments, Import.print, String.append_assoc]
  have hpackage : printSegments ((u.package.map (·.segments)).getD []) =
      (u.package.map (·.print)).getD "" := by
    cases u.package with
    | none => rfl
    | some p => simp [Package.segments, Package.print]
  simp [CompilationUnit.segments, CompilationUnit.print, hpackage,
    printSegments_flatMap fun i _ => himport i, print_segmentsOf, String.append_assoc]

end JavaMigration.Source
