import JavaMigration.Text.Lines
import JavaMigration.Source.Cursor

/-!
# Layout of inserted code

Code that an edit brings into a block is indented like its new neighbours, and what was there
before the edit stays as it is. Only space changes. Line breaks are those of the code around.
-/

namespace JavaMigration.Edit

open Source

/-- How the result of an edit is laid out. -/
inductive Layout where
  | indented
  | verbatim
  deriving DecidableEq, Repr, Inhabited

namespace Layout

/-- One step of indentation for code whose owner is indented so. -/
def unitFor (owner : String) : String := if owner.toList.contains '\t' then "\t" else "    "

/-- The spaces of a new method: its annotations and its head on lines of their own, its
statements one step further in. -/
def layMethod (d : MethodDecl) (indent step nl : String) : MethodDecl :=
  let line : Space := ⟨nl ++ indent⟩
  let behindAnnotations := if d.annotations.isEmpty then .empty else line
  let inner : Space := ⟨nl ++ indent ++ step⟩
  { d with
    annotations := d.annotations.mapIdx fun i a =>
      { a with lead := if i = 0 then .empty else line }
    modifiers := d.modifiers.mapIdx fun i m =>
      { m with lead := if i = 0 then behindAnnotations else .single }
    returnType :=
      { d.returnType with lead := if d.modifiers.isEmpty then behindAnnotations else .single }
    name := { d.name with lead := .single }
    throws := d.throws.map fun t =>
      { lead := .single, types := t.types.map fun i => { i with lead := .single } }
    body := d.body.map fun b =>
      { lead := .single
        statements := b.statements.map (·.withLead inner)
        close := if b.statements.isEmpty then .empty else line } }

/-- A new statement at its place in a block. New methods and types of a class body are set
apart by an empty line unless they come first. -/
def layStatement (members : Bool) (indent step nl : String) (index : Nat) (s : Statement) :
    Statement :=
  match s with
  | .method d =>
    let newline := if members && index > 0 then nl ++ nl else nl
    .method { layMethod d indent step nl with lead := ⟨newline ++ indent⟩ }
  | .type d =>
    let newline := if members && index > 0 then nl ++ nl else nl
    .type { d with lead := ⟨newline ++ indent⟩ }
  | s => s.withLead ⟨nl ++ indent⟩

/-- Lays out the statements of `after` that `before` does not have. -/
def layBlock (before after : Block) (owner : String) (members : Bool) (nl : String) : Block :=
  let isOld (s : Statement) : Bool := before.ids.contains s.id
  if after.statements.all isOld then after
  else
    let indent := ((after.statements.filter isOld).findSome? (·.lead.indent?)).getD
      (owner ++ unitFor owner)
    let step :=
      match Text.stripStart? indent owner with
      | some s => if s.isEmpty then unitFor owner else s
      | none => unitFor owner
    { after with
      statements := after.statements.mapIdx fun i s =>
        if isOld s then s else layStatement members indent step nl i s
      close :=
        if !after.close.hasNewline && !after.statements.isEmpty then ⟨nl ++ owner⟩
        else after.close }

/-- The line ending of the nearest code around that has one. -/
def enclosingLineEnding {μ : Type} (before : Node) (cursor : Cursor μ) : String :=
  match (before :: cursor.path).find? fun n => n.print.toList.contains '\n' with
  | some n => Text.lineEnding n.print
  | none => "\n"

/-- The indentation of the line a node begins on. -/
def ownerIndent {μ : Type} (lead : Space) (cursor : Cursor μ) : String :=
  (lead.indent?.orElse fun _ => cursor.path.findSome? (·.lead.indent?)).getD ""

/-- Lays out what `after` has more than `before`, the node at the cursor before the edit. -/
def indent {μ : Type} (before after : Node) (cursor : Cursor μ) : Node :=
  let nl := enclosingLineEnding before cursor
  match before, after with
  | .type old, .type new =>
    .type { new with body := layBlock old.body new.body (ownerIndent new.lead cursor) true nl }
  | .method old, .method new =>
    match old.body, new.body with
    | some b, some body =>
      .method
        { new with body := some (layBlock b body (ownerIndent new.lead cursor) false nl) }
    | _, _ => after
  | .block old, .block new =>
    let members := cursor.parent?.any (·.kind == .type)
    let owner := ((cursor.path.drop 1).findSome? (·.lead.indent?)).getD ""
    .block (layBlock old new owner members nl)
  | _, _ => after

def apply {μ : Type} (l : Layout) (before after : Node) (cursor : Cursor μ) : Node :=
  match l with
  | indented => indent before after cursor
  | verbatim => after

end Layout

end JavaMigration.Edit
