import JavaMigration.Source.Node

/-!
# Patterns over nodes

Annotations are recognised by their resolved type, names and declarations by the class they
refer to. A name without a type never matches.
-/

namespace JavaMigration.Match

open Java Source

/-- The annotations of one annotation type. -/
structure AnnotationPattern where
  name : String
  deriving DecidableEq, Repr, Inhabited

namespace AnnotationPattern

/-- Reads a signature such as `@a.b.C(x = 1)`; at-signs in front and arguments do not count. -/
def ofSignature (signature : String) : AnnotationPattern :=
  ⟨Text.trim (Text.before '(' (Text.dropWhileStart (· == '@') (Text.trim signature)))⟩

def matchesAnnotation (p : AnnotationPattern) (a : Annotation) : Bool := hasClassType a.name.type p.name

def matchesNode (p : AnnotationPattern) : Node → Bool
  | .annot a => p.matchesAnnotation a
  | _ => false

end AnnotationPattern

/-- The names and declarations of one class type. -/
structure TypePattern where
  name : String
  deriving DecidableEq, Repr, Inhabited

namespace TypePattern

def matchesType (p : TypePattern) (t : Option JavaType) : Bool := hasClassType t p.name

/-- The written type is the class, and no variable is known to have another type. -/
def matchesVariables (p : TypePattern) (d : VariableDecl) : Bool :=
  p.matchesType d.type.type && d.declarators.all fun v => v.name.type.all (·.isClass p.name)

def matchesNode (p : TypePattern) (n : Node) : Bool := p.matchesType n.type?

end TypePattern

end JavaMigration.Match
