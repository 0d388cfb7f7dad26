import JavaMigration.Source.Piece

/-!
# Conditions on a unit

Cheap tests of a whole unit that decide whether a visitor looks at it at all. Parts are
evaluated in order and only as far as they matter.
-/

namespace JavaMigration.Match

open Java Source

inductive Condition where
  /-- The unit refers to a class, by an import or by a name of that type. -/
  | usesType (name : String)
  | all (parts : List Condition)
  | any (parts : List Condition)
  deriving Inhabited

/-- Whether a piece refers to a class. An import on demand may always do so. -/
def mentions (name : String) : Piece → Bool
  | .imported i =>
    !i.isStatic && (i.target == name || (i.isOnDemand && i.package == packageOf name))
  | .identifier i => hasClassType i.type name
  | .text _ => false

namespace Condition

mutual

def describe : Condition → String
  | usesType name => "uses type " ++ name
  | all parts => "(" ++ String.intercalate " and " (describeAll parts) ++ ")"
  | any parts => "(" ++ String.intercalate " or " (describeAll parts) ++ ")"

def describeAll : List Condition → List String
  | [] => []
  | c :: cs => c.describe :: describeAll cs

end

mutual

def holds (u : CompilationUnit) : Condition → Bool
  | usesType name => u.anyPiece (mentions name)
  | all parts => holdAll u parts
  | any parts => holdsAny u parts

def holdAll (u : CompilationUnit) : List Condition → Bool
  | [] => true
  | c :: cs => c.holds u && holdAll u cs

def holdsAny (u : CompilationUnit) : List Condition → Bool
  | [] => false
  | c :: cs => c.holds u || holdsAny u cs

end

mutual

/-- The conditions that are evaluated, each after its parts. -/
def evaluated (u : CompilationUnit) : Condition → List Condition
  | usesType name => [usesType name]
  | all parts => evaluatedWhile u true parts ++ [all parts]
  | any parts => evaluatedWhile u false parts ++ [any parts]

/-- The conditions that are evaluated of a list that is left behind the first part whose value
is not `value`. -/
def evaluatedWhile (u : CompilationUnit) (value : Bool) : List Condition → List Condition
  | [] => []
  | c :: cs => c.evaluated u ++ if c.holds u == value then evaluatedWhile u value cs else []

end

end Condition

end JavaMigration.Match
