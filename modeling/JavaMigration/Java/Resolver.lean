import JavaMigration.Java.JavaType

/-!
# Name resolution

A type reference is resolved by its written name alone. A simple name is looked up in the
single-type imports, then among the types the unit declares, in the unit's own package, in the
packages imported on demand and last in `java.lang`; the packages contain what the classpath
lists. A name that none of these places is left without a type.
-/

namespace JavaMigration.Java

/-- The fully-qualified names known to exist outside the unit, each once. -/
structure Classpath where
  names : List String := []
  deriving DecidableEq, Repr, Inhabited

namespace Classpath

def contains (c : Classpath) (name : String) : Bool := c.names.contains name

def add (c : Classpath) (name : String) : Classpath :=
  if c.contains name then c else ⟨c.names ++ [name]⟩

def addAll (c : Classpath) (names : List String) : Classpath := names.foldl add c

def ofList (names : List String) : Classpath := addAll {} names

def size (c : Classpath) : Nat := c.names.length

def isEmpty (c : Classpath) : Bool := c.names.isEmpty

end Classpath

def primitives : List String :=
  ["boolean", "byte", "char", "short", "int", "long", "float", "double", "void"]

/-- The simple names of `java.lang` that are known without a classpath. -/
def javaLang : List String :=
  ["AutoCloseable", "Boolean", "Byte", "CharSequence", "Character", "Class", "Cloneable",
    "Comparable", "Deprecated", "Double", "Enum", "Error", "Exception", "Float",
    "FunctionalInterface", "IllegalArgumentException", "IllegalStateException", "Integer",
    "InterruptedException", "Iterable", "Long", "Math", "NullPointerException", "Number",
    "Object", "Override", "Record", "Runnable", "RuntimeException", "SafeVarargs", "Short",
    "String", "StringBuilder", "SuppressWarnings", "System", "Thread", "Throwable",
    "UnsupportedOperationException", "Void"]

/-! ## Written types -/

/-- Counts the opening brackets outside type arguments; `depth` is the number of open `<`. -/
def bracketsFrom : Nat → List Char → Nat
  | _, [] => 0
  | depth, c :: r =>
    if c = '<' then bracketsFrom (depth + 1) r
    else if c = '>' then bracketsFrom (depth - 1) r
    else if c = '[' && depth = 0 then bracketsFrom depth r + 1
    else bracketsFrom depth r

/-- The number of array levels of a written type; varargs are one more. -/
def dimensions (written : String) : Nat :=
  bracketsFrom 0 written.toList + if Text.endsWith (Text.trimEnd written) "..." then 1 else 0

/-- Drops every `...` a reversed text begins with. -/
def dropDots : List Char → List Char
  | '.' :: '.' :: '.' :: r => dropDots r
  | s => s

/-- The written name without type arguments, dimensions, varargs and outer blanks. -/
def erase (written : String) : String :=
  let name := Text.trim (Text.before '[' (Text.before '<' written))
  Text.trim (String.ofList (dropDots name.toList.reverse).reverse)

/-- Package names begin with a small letter by convention, type names do not. -/
def isPackageSegment (segment : String) : Bool := segment.toList.head?.any Char.isLower

/-! ## The resolver of one unit -/

structure Resolver where
  package : String
  /-- The single-type imports: simple name and qualified name, the latest first. -/
  imports : List (String × String) := []
  /-- The packages imported on demand, in source order. -/
  onDemand : List String := []
  /-- The declared types under their simple and their nested names, the binding one first. -/
  declared : List (String × String) := []
  classpath : Classpath
  deriving Repr, Inhabited

namespace Resolver

/-- Registers a non-static import; one on demand ends in `.*`. -/
def addImport (r : Resolver) (target : String) : Resolver :=
  match Text.stripEnd? target ".*" with
  | some package => { r with onDemand := r.onDemand ++ [package] }
  | none =>
    match Text.splitLast '.' target with
    | some (_, simple) => { r with imports := (simple, target) :: r.imports }
    | none => r

/-- The fully-qualified name of a type declared in the unit. -/
def qualify (r : Resolver) (name : String) : String :=
  if r.package.isEmpty then name else r.package ++ "." ++ name

/-- Registers a declared type under its source name, `Outer` or `Outer.Inner`. A simple name
keeps its first meaning unless a top-level type takes it. -/
def declare (r : Resolver) (name : String) : Resolver :=
  let full := r.qualify name
  let simple := simpleName name
  let known := if (r.declared.lookup simple).isSome then r.declared
    else (simple, full) :: r.declared
  { r with declared := (name, full) :: known }

def resolveSimple (r : Resolver) (simple : String) : Option String :=
  (r.imports.lookup simple).orElse fun _ =>
  (r.declared.lookup simple).orElse fun _ =>
  if r.classpath.contains (r.qualify simple) then some (r.qualify simple)
  else
    ((r.onDemand.map (· ++ "." ++ simple)).find? r.classpath.contains).orElse fun _ =>
    let lang := "java.lang." ++ simple
    if javaLang.contains simple || r.classpath.contains lang then some lang else none

/-- The type an erased name stands for. -/
def resolveName (r : Resolver) (name : String) : Option JavaType :=
  if name.isEmpty || name == "var" then none
  else if primitives.contains name then some (.primitive name)
  else
    match Text.splitFirst '.' name with
    | none => (r.resolveSimple name).map .ofClass
    | some (head, rest) =>
      match r.resolveSimple head with
      | some outer => some (.ofClass (outer ++ "." ++ rest))
      | none => if isPackageSegment head then some (.ofClass name) else none

/-- The type of a reference as written, with its array levels. -/
def resolve (r : Resolver) (written : String) : Option JavaType :=
  (r.resolveName (erase written)).map (·.arrayOf (dimensions written))

end Resolver

end JavaMigration.Java
