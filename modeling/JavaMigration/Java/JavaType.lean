import JavaMigration.Text.Split

/-!
# Java types

The types that names resolve to, and the two halves of a qualified name.
-/

namespace JavaMigration.Java

/-- The part of a qualified name before its last dot; empty for a simple name. -/
def packageOf (name : String) : String := ((Text.splitLast '.' name).map (·.1)).getD ""

/-- The part of a qualified name after its last dot. -/
def simpleName (name : String) : String := ((Text.splitLast '.' name).map (·.2)).getD name

inductive JavaType where
  /-- A class, interface, annotation type or enum with its fully-qualified name. -/
  | ofClass (name : String)
  /-- A primitive type or `void`. -/
  | primitive (name : String)
  | array (element : JavaType)
  deriving DecidableEq, Repr, Inhabited

namespace JavaType

/-- The type wrapped in `n` array levels. -/
def arrayOf (t : JavaType) : Nat → JavaType
  | 0 => t
  | n + 1 => .array (t.arrayOf n)

/-- The fully-qualified name of a class type. -/
def className? : JavaType → Option String
  | .ofClass name => some name
  | _ => none

/-- Whether the type is the class `name`. -/
def isClass (t : JavaType) (name : String) : Bool := t.className? == some name

def print : JavaType → String
  | .ofClass name => name
  | .primitive name => name
  | .array element => element.print ++ "[]"

end JavaType

/-- Whether a name that may be unresolved has the class type `name`. -/
def hasClassType (t : Option JavaType) (name : String) : Bool := t.any (·.isClass name)

end JavaMigration.Java
