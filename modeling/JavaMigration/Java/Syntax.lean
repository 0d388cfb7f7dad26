import JavaMigration.Java.Lexeme

/-!
# Syntax trees and rules

A rule describes a piece of Java over lexemes: choices are ordered, repetitions take as much as
they can, and what a phrase stands for is given by a table. Reading by a rule gives the syntax
trees of what it took; their leaves are the lexemes in order, so nothing is lost.
-/

namespace JavaMigration.Java

open Source

/-- The phrases of Java that stand as nodes in a syntax tree. -/
inductive Phrase where
  | unit
  | packageDecl
  | importDecl
  | moduleDecl
  | qualified
  -- types
  | annot
  | annotationArguments
  | elementValue
  | modifiers
  | nonSealed
  | typeRef
  | plainType
  | annotatedType
  | dimensions
  | typeArguments
  | typeParameters
  -- declarations
  | typeDecl
  | recordDecl
  | annotationDecl
  | classHeader
  | interfaceHeader
  | enumHeader
  | recordHeader
  | classBody
  | interfaceBody
  | enumBody
  | annotationBody
  | members
  | interfaceMembers
  | annotationMembers
  | annotationElement
  | enumConstants
  | enumConstant
  | enumMembers
  | vars
  | declarators
  | declarator
  | initializer
  | arrayInitializer
  | method
  | genericPart
  | parameters
  | formal
  | spread
  | receiver
  | throwsPart
  | constructor
  | staticBlock
  -- statements
  | block
  | statements
  | control
  | labeled
  | switchBlock
  | expressionStatement
  -- expressions
  | expression
  | labelExpression
  | unary
  | labelUnary
  | cast
  | operand
  | lambda
  | call
  | callOn
  | member
  | outerSuper
  | innerCreation
  | classLiteral
  | index
  | reference
  | template
  | assignment
  | parenthesized
  | creation
  | arguments
  | switch
  | recordPattern
  deriving DecidableEq, Repr, Inhabited

inductive Syntax where
  | leaf (lexeme : Lexeme)
  | node (phrase : Phrase) (children : List Syntax)
  deriving Inhabited

mutual

/-- The lexemes of a syntax tree in order. -/
def Syntax.lexemes : Syntax → List Lexeme
  | .leaf l => [l]
  | .node _ cs => lexemesOf cs

def lexemesOf : List Syntax → List Lexeme
  | [] => []
  | c :: cs => c.lexemes ++ lexemesOf cs

end

/-- The source text of some syntax trees, with the space before the first lexeme. -/
def printSyntax (cs : List Syntax) : String := printLexemes (lexemesOf cs)

/-- The space before the first lexeme. -/
def leadOf (cs : List Syntax) : Space :=
  match lexemesOf cs with
  | [] => .empty
  | l :: _ => l.lead

/-- The source text without the space before the first lexeme. -/
def textOf (cs : List Syntax) : String :=
  match lexemesOf cs with
  | [] => ""
  | l :: ls => l.text ++ printLexemes ls

/-! ## Rules -/

inductive Rule where
  /-- A word or mark spelled so. -/
  | token (text : String)
  /-- A word or mark spelled so, with nothing before it. -/
  | glued (text : String)
  /-- A word. Which words are keywords depends on the place: a rule excludes the words that
  mean something else where it stands, and no others. -/
  | name
  /-- Takes nothing, and only if no such word follows. -/
  | except (words : List String)
  /-- A number or character. -/
  | literal
  | string
  | phrase (p : Phrase)
  | seq (parts : List Rule)
  | choice (parts : List Rule)
  | many (r : Rule)

namespace Rule

instance : Coe String Rule := ⟨token⟩

instance : Coe Phrase Rule := ⟨phrase⟩

def nameExcept (words : List String) : Rule := seq [except words, name]

def optional (r : Rule) : Rule := choice [r, seq []]

def many1 (r : Rule) : Rule := seq [r, many r]

def sepBy1 (sep r : Rule) : Rule := seq [r, many (seq [sep, r])]

def sepBy (sep r : Rule) : Rule := optional (sepBy1 sep r)

end Rule

/-! ## Reading -/

/-- What a reader takes from the front of the lexemes, and the rest. -/
abbrev Reader := List Lexeme → Option (List Syntax × List Lexeme)

def readIf (p : Lexeme → Bool) : Reader
  | [] => none
  | l :: ls => if p l then some ([.leaf l], ls) else none

/-- Reads as often as possible, at most as many times as the first list is long. -/
def readMany (r : Reader) : List Lexeme → List Lexeme → List Syntax × List Lexeme
  | [], ls => ([], ls)
  | _ :: bound, ls =>
    match r ls with
    | some (cs, rest) =>
      let (more, rest) := readMany r bound rest
      (cs ++ more, rest)
    | none => ([], ls)

mutual

/-- Reading by a rule, where `call` reads the phrases. -/
def Rule.read (call : Phrase → Reader) : Rule → Reader
  | .token text => readIf (·.text == text)
  | .glued text => readIf fun l => l.text == text && l.lead.isEmpty
  | .name => readIf (·.kind == .word)
  | .except words => fun ls =>
    if ls.head?.any fun l => words.contains l.text then none else some ([], ls)
  | .literal => readIf fun l => l.kind == .number || l.kind == .character
  | .string => readIf (·.kind == .string)
  | .phrase p => call p
  | .seq parts => readSeq call parts
  | .choice parts => readChoice call parts
  | .many r => fun ls => some (readMany (r.read call) ls ls)

def readSeq (call : Phrase → Reader) : List Rule → Reader
  | [] => fun ls => some ([], ls)
  | r :: rs => fun ls =>
    match r.read call ls with
    | none => none
    | some (cs, ls) =>
      match readSeq call rs ls with
      | none => none
      | some (ds, ls) => some (cs ++ ds, ls)

def readChoice (call : Phrase → Reader) : List Rule → Reader
  | [] => fun _ => none
  | r :: rs => fun ls =>
    match r.read call ls with
    | some result => some result
    | none => readChoice call rs ls

end

/-- Reads a phrase by its rule in the table, where phrases nest at most `depth` deep. -/
def readPhrase (table : Phrase → Rule) : Nat → Phrase → Reader
  | 0, _, _ => none
  | depth + 1, p, ls =>
    match (table p).read (readPhrase table depth) ls with
    | some (cs, rest) => some ([.node p cs], rest)
    | none => none

end JavaMigration.Java
