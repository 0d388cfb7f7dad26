import JavaMigration.Document.Value
import JavaMigration.Document.Yaml.Token

/-!
# Values of YAML documents

The value that the tokens of a document say. Anchors name values, which aliases repeat; a value
does not contain itself. A text may hold one document only.
-/

namespace JavaMigration.Document.Yaml

/-- The nodes with a name so far, the latest first, and the handles of the document. -/
structure Scope where
  handles : List (List Char × List Char)
  anchors : List (List Char × Value) := []
  deriving Inhabited

namespace Scope

/-- Names a node whose value is not known yet. The number stands for it. -/
def declare (sc : Scope) : Option (List Char) → Scope × Option Nat
  | some name => ({ sc with anchors := (name, .other) :: sc.anchors }, some sc.anchors.length)
  | none => (sc, none)

/-- Gives a declared node its value. -/
def define (sc : Scope) (node : Option Nat) (v : Value) : Scope :=
  match node with
  | some n =>
    let i := sc.anchors.length - 1 - n
    { sc with anchors := sc.anchors.modify i fun a => (a.1, v) }
  | none => sc

end Scope

/-- The spellings of null. -/
def isNullText (text : List Char) : Bool :=
  ["null", "Null", "NULL", "~"].contains (String.ofList text)

/-- The value of a scalar with its tag in full. A plain one may be null, unless a tag says
otherwise. -/
def scalarValue (plain : Bool) (tag : Option (List Char)) (text : List Char) : Value :=
  let null : Value := .null (some (String.ofList text))
  if !plain then .text (String.ofList text)
  else if text.isEmpty then if tag.isNone then null else .blank
  else if isNullText text && tag.all (· == nullTag) then null
  else .text (String.ofList text)

/-- A value that nothing is written for. -/
def missing : Value := .null (some "")

/-- A record. Keys are scalars; a record with others says nothing that could be asked for. -/
def recordOf (fields : List (Value × Value)) : Value :=
  match fields.mapM fun (key, v) => key.text?.map (·, v) with
  | some fields => .record fields
  | none => .other

/-- The anchor and tag in front of a node, in either order. -/
def properties : List Token → Option (List Char) × Option Tag × List Token
  | .anchor a :: .tag t :: r => (some a, some t, r)
  | .tag t :: .anchor a :: r => (some a, some t, r)
  | .anchor a :: r => (some a, none, r)
  | .tag t :: r => (none, some t, r)
  | r => (none, none, r)

/-- What may stand where a node is read. -/
structure Position where
  /-- Collections shown by indentation. -/
  blocks : Bool := true
  /-- Entries of a sequence that is not indented. -/
  entries : Bool := false
  deriving Repr, Inhabited

def inBlock : Position := {}

def inMapping : Position := { entries := true }

def inFlow : Position := { blocks := false }

/-- Something that was read, with the scope and the tokens behind it. -/
abbrev Read (α : Type) : Type := α × Scope × List Token

mutual

def node : Nat → Position → Scope → List Token → Option (Read Value)
  | 0, _, _, _ => none
  | fuel + 1, pos, sc, ts =>
    match ts with
    | .alias name :: r => (sc.anchors.lookup name).map fun v => (v, sc, r)
    | ts => do
      let (anchor, tag, ts) := properties ts
      let full ← match tag with
        | some t => (t.resolve sc.handles).map some
        | none => some none
      let (sc, id) := sc.declare anchor
      let done (r : Option (Read Value)) : Option (Read Value) :=
        r.map fun (v, sc, ts) => (v, sc.define id v, ts)
      let list (r : Option (Read (List Value))) : Option (Read Value) :=
        done (r.map fun (vs, sc, ts) => (.list false vs, sc, ts))
      let record (r : Option (Read (List (Value × Value)))) : Option (Read Value) :=
        done (r.map fun (fs, sc, ts) => (recordOf fs, sc, ts))
      match ts with
      | .entry :: _ =>
        if pos.entries then list (plainEntries fuel sc ts)
        else if anchor.isSome || tag.isSome then done (some (scalarValue true full [], sc, ts))
        else none
      | .scalar plain text :: r => done (some (scalarValue plain full text, sc, r))
      | .bracketOpen :: r => list (bracketItems fuel true sc r)
      | .braceOpen :: r => record (braceFields fuel true sc r)
      | ts =>
        match pos.blocks, ts with
        | true, .sequenceStart :: r => list (entries fuel sc r)
        | true, .mappingStart :: r => record (fields fuel sc r)
        | _, ts =>
          if anchor.isSome || tag.isSome then done (some (scalarValue true full [], sc, ts))
          else none

/-- A node, or nothing in front of some tokens. -/
def nodeUnless : Nat → (Token → Bool) → Position → Scope → List Token → Option (Read Value)
  | 0, _, _, _, _ => none
  | fuel + 1, stops, pos, sc, ts =>
    if ts.head?.any stops then some (missing, sc, ts) else node fuel pos sc ts

/-- The entries of an indented sequence. -/
def entries : Nat → Scope → List Token → Option (Read (List Value))
  | 0, _, _ => none
  | fuel + 1, sc, .entry :: r => do
    let (v, sc, r) ← nodeUnless fuel (· matches .entry | .blockEnd) inBlock sc r
    let (vs, sc, r) ← entries fuel sc r
    return (v :: vs, sc, r)
  | _ + 1, sc, .blockEnd :: r => some ([], sc, r)
  | _ + 1, _, _ => none

/-- The entries of a sequence that is not indented. Nothing marks its end. -/
def plainEntries : Nat → Scope → List Token → Option (Read (List Value))
  | 0, _, _ => none
  | fuel + 1, sc, .entry :: r => do
    let (v, sc, r) ←
      nodeUnless fuel (· matches .entry | .key | .value | .blockEnd) inBlock sc r
    let (vs, sc, r) ← plainEntries fuel sc r
    return (v :: vs, sc, r)
  | _ + 1, sc, ts => some ([], sc, ts)

/-- The fields of a mapping shown by indentation. -/
def fields : Nat → Scope → List Token → Option (Read (List (Value × Value)))
  | 0, _, _ => none
  | fuel + 1, sc, .key :: r => do
    let stops (t : Token) := t matches .key | .value | .blockEnd
    let (key, sc, r) ← nodeUnless fuel stops inMapping sc r
    let (v, sc, r) ← match r with
      | .value :: r => nodeUnless fuel stops inMapping sc r
      | r => some (missing, sc, r)
    let (fs, sc, r) ← fields fuel sc r
    return ((key, v) :: fs, sc, r)
  | _ + 1, sc, .blockEnd :: r => some ([], sc, r)
  | _ + 1, _, _ => none

/-- The items in brackets. One with a colon is a record of one field. -/
def bracketItems : Nat → Bool → Scope → List Token → Option (Read (List Value))
  | 0, _, _, _ => none
  | fuel + 1, first, sc, ts =>
    match ts with
    | .bracketClose :: r => some ([], sc, r)
    | ts => do
      let ts ← match first, ts with
        | true, ts => some ts
        | false, .comma :: r => some r
        | false, _ => none
      match ts with
      | .bracketClose :: r => some ([], sc, r)
      | .key :: r =>
        let (v, sc, r) ← bracketField fuel sc r
        let (vs, sc, r) ← bracketItems fuel false sc r
        return (v :: vs, sc, r)
      | ts =>
        let (v, sc, r) ← node fuel inFlow sc ts
        let (vs, sc, r) ← bracketItems fuel false sc r
        return (v :: vs, sc, r)

/-- A field among items in brackets. A key that is not written takes the token in its place
away. -/
def bracketField : Nat → Scope → List Token → Option (Read Value)
  | 0, _, _ => none
  | fuel + 1, sc, ts => do
    let (key, sc, r) ← match ts with
      | [] => none
      | t :: r =>
        if t matches .value | .comma | .bracketClose then some (missing, sc, r)
        else node fuel inFlow sc (t :: r)
    let (v, sc, r) ← match r with
      | .value :: r => nodeUnless fuel (· matches .comma | .bracketClose) inFlow sc r
      | r => some (missing, sc, r)
    return (recordOf [(key, v)], sc, r)

/-- The fields in braces. -/
def braceFields : Nat → Bool → Scope → List Token → Option (Read (List (Value × Value)))
  | 0, _, _, _ => none
  | fuel + 1, first, sc, ts =>
    match ts with
    | .braceClose :: r => some ([], sc, r)
    | ts => do
      let ts ← match first, ts with
        | true, ts => some ts
        | false, .comma :: r => some r
        | false, _ => none
      match ts with
      | .braceClose :: r => some ([], sc, r)
      | .key :: r =>
        let (key, sc, r) ←
          nodeUnless fuel (· matches .value | .comma | .braceClose) inFlow sc r
        let (v, sc, r) ← match r with
          | .value :: r => nodeUnless fuel (· matches .comma | .braceClose) inFlow sc r
          | r => some (missing, sc, r)
        let (fs, sc, r) ← braceFields fuel false sc r
        return ((key, v) :: fs, sc, r)
      | ts =>
        let (key, sc, r) ← node fuel inFlow sc ts
        let (fs, sc, r) ← braceFields fuel false sc r
        return ((key, missing) :: fs, sc, r)

end

/-! ## Documents -/

/-- The directives in front of a document, and what follows them. -/
def directives : List Token → List Directive × List Token
  | .directive d :: r =>
    let (ds, rest) := directives r
    (d :: ds, rest)
  | r => ([], r)

/-- The value of a document and the tokens behind it. -/
def document (fuel : Nat) (ts : List Token) : Option (Value × List Token) := do
  let (ds, r) := directives ts
  let sc : Scope := { handles := ← handles ds }
  let stops (t : Token) := t matches .directive _ | .documentStart | .documentEnd
  let (v, _, r) ← match r with
    | .documentStart :: r =>
      if r.isEmpty then some (missing, sc, r) else nodeUnless fuel stops inBlock sc r
    | r => if ds.isEmpty then node fuel inBlock sc r else none
  return (v, r)

/-- The value that a YAML text says. A text without a document says nothing. -/
def read (text : String) : Option Value := do
  let ts ← Token.ofText? text
  if ts.isEmpty then return missing
  let (v, rest) ← document (4 * ts.length + 4) ts
  if rest.all (· matches .documentEnd) then some v else none

end JavaMigration.Document.Yaml
