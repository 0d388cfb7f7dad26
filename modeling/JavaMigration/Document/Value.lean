/-!
# Values of a document

What a settings document says, whatever it is written in: texts, lists of values and records of
named values.
-/

namespace JavaMigration.Document

inductive Value where
  /-- No value. Some documents let its spelling stand for a text where one is asked for. -/
  | null (spelling : Option String)
  /-- An empty text that may also stand for an empty list or record. -/
  | blank
  | text (s : String)
  /-- A value that is no text and no record that could be asked for, such as a number. -/
  | other
  /-- A list. Where it is `positional` it may stand for a record, field by field. -/
  | list (positional : Bool) (items : List Value)
  | record (fields : List (String × Value))
  deriving Inhabited

namespace Value

def text? : Value → Option String
  | null spelling => spelling
  | blank => some ""
  | text s => some s
  | _ => none

/-- A list of texts. A null that is spelt by nothing at all is an empty list. -/
def texts? : Value → Option (List String)
  | blank => some []
  | null (some "") => some []
  | list _ items => items.mapM text?
  | _ => none

/-- The values of some fields of a record, or of a list that has them in this order. A record
may have other fields, but none of these twice; a list may be short but not long. A null that is
spelt by nothing at all is an empty record. -/
def fields? (keys : List String) : Value → Option (List (Option Value))
  | blank => some (keys.map fun _ => none)
  | null (some "") => some (keys.map fun _ => none)
  | record fields =>
    if keys.all fun k => (fields.filter (·.1 == k)).length ≤ 1 then
      some (keys.map fun k => fields.lookup k)
    else none
  | list true items =>
    if items.length ≤ keys.length then
      some (items.map some ++ List.replicate (keys.length - items.length) none)
    else none
  | _ => none

end Value

end JavaMigration.Document
