import JavaMigration.Java.Resolver
import JavaMigration.Java.Syntax

/-!
# The grammar of Java

The rule of every phrase, and the reading of a whole source. A phrase that a migration looks
into has a fixed number of children, with a node of its own for each part that may be absent;
the other phrases only say what is Java. Operators are read without precedence, which does not
decide where a statement ends.
-/

namespace JavaMigration.Java

open Source Rule

namespace Grammar

/-! ## Keywords

A word is a keyword only where the grammar can go on with it as one; anywhere else it is a
name. These are the words that cannot be names at a certain place.
-/

def modifierWords : List String :=
  ["public", "protected", "private", "abstract", "static", "final", "strictfp", "default",
    "synchronized", "native", "transient", "volatile"]

/-- At the start of a declaration, where modifiers may stand. -/
def declarationWords : List String :=
  modifierWords ++ ["class", "interface", "enum", "record"] ++ primitives

/-- At the start of an operand, types aside. -/
def operandWords : List String :=
  ["new", "this", "super", "true", "false", "null", "switch"]

/-- At the start of a statement, declarations and operands aside. -/
def statementWords : List String :=
  ["if", "while", "for", "do", "break", "continue", "return", "yield", "throw", "assert", "try",
    "import", "package"]

/-- Behind a point. -/
def memberWords : List String := ["class", "new", "super", "this"]

/-! ## Names, types and annotations -/

def annotations : Rule := many Phrase.annot

def primitive : Rule := choice (primitives.map token)

def dimension : Rule := seq [annotations, "[", "]"]

def wildcard : Rule :=
  seq [annotations, "?", optional (seq [choice ["extends", "super"], Phrase.annotatedType])]

def typeParameter : Rule :=
  seq [annotations, name,
    optional (seq ["extends", Phrase.annotatedType, many (seq ["&", Phrase.annotatedType])])]

def typeList : Rule := sepBy1 "," Phrase.annotatedType

def pair : Rule := seq [name, "=", Phrase.elementValue]

/-! ## Declarations -/

def implementsPart : Rule := optional (seq ["implements", typeList])

def permitsPart : Rule := optional (seq ["permits", typeList])

/-- Behind the word `module`. -/
def directive : Rule :=
  choice [
    seq ["requires", many (choice ["transitive", "static"]), Phrase.qualified, ";"],
    seq [choice ["exports", "opens"], Phrase.qualified,
      optional (seq ["to", sepBy1 "," Phrase.qualified]), ";"],
    seq ["uses", Phrase.qualified, ";"],
    seq ["provides", Phrase.qualified, "with", sepBy1 "," Phrase.qualified, ";"]]

def classMember : Rule :=
  choice [Phrase.typeDecl, Phrase.recordDecl, Phrase.annotationDecl, Phrase.staticBlock,
    Phrase.block, ";", Phrase.vars, Phrase.method, Phrase.constructor]

def interfaceMember : Rule :=
  choice [Phrase.typeDecl, Phrase.recordDecl, Phrase.annotationDecl, ";", Phrase.vars,
    Phrase.method]

def annotationMember : Rule :=
  choice [Phrase.typeDecl, Phrase.annotationDecl, ";", Phrase.vars,
    Phrase.annotationElement]

/-! ## Statements -/

def statement : Rule :=
  choice [Phrase.block, ";", Phrase.control, Phrase.typeDecl, Phrase.recordDecl,
    Phrase.annotationDecl, Phrase.packageDecl, Phrase.importDecl, Phrase.moduleDecl,
    seq [except statementWords,
      choice [seq [except operandWords, Phrase.vars],
        seq [except (modifierWords ++ ["class", "interface", "enum", "switch"]),
          choice [Phrase.labeled, Phrase.expressionStatement]]]]]

def topLevel : Rule :=
  choice [statement, seq [except (statementWords ++ operandWords), Phrase.method]]

def resource : Rule :=
  choice [
    seq [Phrase.modifiers, Phrase.typeRef, name, Phrase.dimensions, "=", Phrase.expression],
    seq [choice [name, "this", "super"], many (seq [".", choice [name, "this"]])]]

def resources : Rule := seq ["(", sepBy1 ";" resource, optional ";", ")"]

def catchPart : Rule :=
  seq ["catch", "(", Phrase.modifiers, sepBy1 "|" Phrase.typeRef, name, Phrase.dimensions, ")",
    Phrase.block]

def finallyPart : Rule := seq ["finally", Phrase.block]

def controls : List Rule :=
  [seq ["if", Phrase.parenthesized, statement, optional (seq ["else", statement])],
    seq ["while", Phrase.parenthesized, statement],
    seq ["for", "(", Phrase.modifiers, Phrase.typeRef, name, Phrase.dimensions, ":",
      Phrase.expression, ")", statement],
    seq ["for", "(", choice [Phrase.vars, seq [sepBy "," Phrase.expression, ";"]],
      optional Phrase.expression, ";", sepBy "," Phrase.expression, ")", statement],
    seq ["do", statement, "while", Phrase.parenthesized, ";"],
    seq ["break", optional name, ";"],
    seq ["continue", optional name, ";"],
    seq ["return", optional Phrase.expression, ";"],
    seq ["yield", Phrase.expression, ";"],
    seq ["throw", Phrase.expression, ";"],
    seq ["assert", Phrase.expression, optional (seq [":", Phrase.expression]), ";"],
    seq ["synchronized", Phrase.parenthesized, Phrase.block],
    seq ["try", resources, Phrase.block, many catchPart, optional finallyPart],
    seq ["try", Phrase.block, choice [seq [many1 catchPart, optional finallyPart], finallyPart]],
    Phrase.switch]

def typePattern : Rule := seq [Phrase.modifiers, Phrase.typeRef, name]

def switchLabel : Rule :=
  choice [
    seq ["case",
      choice [Phrase.recordPattern, typePattern,
        sepBy1 "," (choice ["default", Phrase.labelExpression])],
      optional (seq ["when", Phrase.labelExpression])],
    "default"]

def switchGroup : Rule :=
  seq [switchLabel, ":", many (seq [switchLabel, ":"]), many statement]

def switchRule : Rule :=
  seq [switchLabel, "->",
    choice [Phrase.block, seq ["throw", Phrase.expression, ";"],
      seq [except ["throw"], Phrase.expressionStatement]]]

/-! ## Expressions -/

def assignmentMark : Rule :=
  choice ["=", "+=", "-=", "*=", "/=", "&=", "|=", "^=", "%=", "<<=",
    seq [">", glued ">", glued ">", glued "="], seq [">", glued ">", glued "="]]

def binaryMark : Rule :=
  choice ["*", "/", "%", "+", "-", "<<", seq [">", glued ">", glued ">"], seq [">", glued ">"],
    seq [">", glued "="], ">", "<=", "<", "==", "!=", "&&", "||", "&", "^", "|"]

def stepMark : Rule := choice ["++", "--"]

/-- An operand with what stands before and behind it. -/
def operation (inner : Phrase) : Rule :=
  choice [
    seq [choice ["+", "-", "!", "~", "++", "--"], inner],
    Phrase.cast,
    seq [Phrase.operand, many stepMark]]

/-- What continues an expression behind an operand, where `next` is a further operand. -/
def continuation (next : Rule) : Rule :=
  choice [
    seq [binaryMark, next],
    seq ["instanceof", optional "final",
      choice [Phrase.recordPattern,
        seq [Phrase.annotatedType, optional (nameExcept ["instanceof"])]]],
    seq ["?", Phrase.expression, ":", next]]

def referencePart : Rule := seq ["::", optional Phrase.typeArguments, choice ["new", name]]

/-- `A[].class`, `int::new` and the like. -/
def typeOperand : Rule :=
  seq [except operandWords, Phrase.typeRef, choice [Phrase.classLiteral, Phrase.reference]]

def superPart : Rule := choice [Phrase.callOn, Phrase.member, Phrase.reference]

def atom : Rule :=
  choice [literal, string, "true", "false", "null", typeOperand, "this",
    seq ["super", superPart],
    seq [except (operandWords ++ primitives),
      choice [Phrase.call, seq [name, optional Phrase.assignment]]],
    Phrase.parenthesized, Phrase.creation, Phrase.switch]

def selector : Rule :=
  choice [Phrase.callOn, seq [Phrase.member, optional Phrase.assignment],
    seq [Phrase.outerSuper, superPart], Phrase.innerCreation, Phrase.classLiteral,
    seq [Phrase.index, optional Phrase.assignment], Phrase.reference, Phrase.template]

def patternComponent : Rule := choice [Phrase.recordPattern, typePattern, "_"]

end Grammar

open Grammar

/-- What a phrase stands for. -/
def Phrase.rule : Phrase → Rule
  | .unit => many topLevel
  | .packageDecl => seq [annotations, "package", qualified, ";"]
  | .importDecl => seq ["import", optional "static", qualified, optional (seq [".", "*"]), ";"]
  | .moduleDecl =>
    seq [annotations, optional "open", "module", qualified, "\x7b", many directive, "\x7d"]
  | .qualified => sepBy1 "." name
  | .annot => seq ["@", qualified, optional annotationArguments]
  | .annotationArguments =>
    seq ["(", choice [sepBy1 "," pair, elementValue, seq []], ")"]
  | .elementValue =>
    choice [annot, seq ["\x7b", sepBy "," elementValue, optional ",", "\x7d"], expression]
  | .modifiers =>
    many (choice [annot, "public", "protected", "private", "abstract", "static", "final",
      "strictfp", "default", "synchronized", "native", "transient", "volatile", nonSealed,
      "sealed"])
  | .nonSealed => seq ["non", glued "-", glued "sealed"]
  | .typeRef => seq [plainType, many dimension]
  | .plainType =>
    choice [primitive,
      seq [nameExcept declarationWords, optional typeArguments,
        many (seq [".", annotations, nameExcept memberWords, optional typeArguments])]]
  | .annotatedType => seq [annotations, typeRef]
  | .dimensions => many dimension
  | .typeArguments => seq ["<", sepBy "," (choice [wildcard, annotatedType]), ">"]
  | .typeParameters => seq ["<", sepBy1 "," typeParameter, ">"]
  | .typeDecl =>
    seq [modifiers,
      choice [
        seq ["class", name, classHeader, classBody],
        seq ["interface", name, interfaceHeader, interfaceBody],
        seq ["enum", name, enumHeader, enumBody]]]
  | .recordDecl => seq [modifiers, "record", name, recordHeader, classBody]
  | .annotationDecl => seq [modifiers, "@interface", name, annotationBody]
  | .classHeader =>
    seq [optional typeParameters, optional (seq ["extends", annotatedType]), implementsPart,
      permitsPart]
  | .interfaceHeader =>
    seq [optional typeParameters, optional (seq ["extends", typeList]), permitsPart]
  | .enumHeader => implementsPart
  | .recordHeader => seq [optional typeParameters, parameters, implementsPart]
  | .classBody => seq ["\x7b", members, "\x7d"]
  | .interfaceBody => seq ["\x7b", interfaceMembers, "\x7d"]
  | .enumBody => seq ["\x7b", enumConstants, enumMembers, "\x7d"]
  | .annotationBody => seq ["\x7b", annotationMembers, "\x7d"]
  | .members => many classMember
  | .interfaceMembers => many interfaceMember
  | .annotationMembers => many annotationMember
  | .annotationElement =>
    seq [modifiers, typeRef, name, "(", ")", dimensions, optional (seq ["default", elementValue]),
      ";"]
  | .enumConstants => seq [sepBy "," enumConstant, optional ","]
  | .enumConstant => seq [modifiers, nameExcept modifierWords, optional arguments, optional classBody]
  | .enumMembers => optional (seq [";", many classMember])
  | .vars => seq [modifiers, typeRef, declarators, ";"]
  | .declarators => sepBy1 "," declarator
  | .declarator => seq [name, dimensions, initializer]
  | .initializer => optional (seq ["=", choice [arrayInitializer, expression]])
  | .arrayInitializer =>
    seq ["\x7b", sepBy "," (choice [arrayInitializer, expression]), optional ",", "\x7d"]
  | .method =>
    seq [modifiers, genericPart, typeRef, name, parameters, dimensions, throwsPart,
      choice [block, ";"]]
  | .genericPart => optional (seq [typeParameters, annotations])
  | .parameters => seq ["(", sepBy "," (choice [spread, receiver, formal]), ")"]
  | .formal => seq [modifiers, typeRef, nameExcept ["this"], dimensions]
  | .spread => seq [modifiers, typeRef, "...", annotations, declarator]
  | .receiver => seq [annotations, typeRef, many (seq [name, "."]), "this"]
  | .throwsPart => optional (seq ["throws", typeList])
  | .constructor =>
    choice [
      seq [modifiers, optional typeParameters, nameExcept declarationWords, parameters, throwsPart,
        "\x7b",
        optional (choice [
          seq [optional typeArguments, choice ["this", "super"], arguments, ";"],
          seq [operand, ".", optional typeArguments, "super", arguments, ";"]]),
        many statement, "\x7d"],
      seq [modifiers, nameExcept declarationWords, block]]
  | .staticBlock => seq ["static", block]
  | .block => seq ["\x7b", statements, "\x7d"]
  | .statements => many statement
  | .control => choice controls
  | .labeled => seq [nameExcept (operandWords ++ primitives), ":", statement]
  | .switchBlock =>
    seq ["\x7b", choice [seq [many1 switchGroup, "\x7d"], seq [many switchRule, "\x7d"]]]
  | .expressionStatement => seq [expression, ";"]
  | .expression =>
    choice [lambda,
      seq [operation .unary, many (continuation (choice [lambda, operation .unary]))]]
  | .labelExpression =>
    seq [operation .labelUnary, many (continuation (operation .labelUnary))]
  | .unary => choice [lambda, operation .unary]
  | .labelUnary => operation .labelUnary
  | .cast =>
    seq ["(", except operandWords, sepBy1 "&" annotatedType, ")", except ["instanceof"], unary]
  | .operand => seq [atom, many selector]
  | .lambda =>
    seq [
      choice [nameExcept (operandWords ++ primitives), seq ["(", sepBy1 "," name, ")"], parameters],
      "->",
      choice [block, expression]]
  | .call => seq [name, arguments]
  | .callOn => seq [".", optional typeArguments, nameExcept memberWords, arguments]
  | .member => seq [".", choice [nameExcept memberWords, "this"]]
  | .outerSuper => seq [".", "super"]
  | .innerCreation => seq [".", creation]
  | .classLiteral => seq [".", "class"]
  | .index => seq ["[", expression, "]"]
  | .reference => referencePart
  | .template => seq [".", string]
  | .assignment => seq [assignmentMark, expression]
  | .parenthesized => seq ["(", except modifierWords, expression, ")"]
  | .creation =>
    seq ["new", annotations, optional (seq [typeArguments, annotations]), plainType,
      choice [
        seq [arguments, optional classBody],
        seq [many1 (seq [annotations, "[", expression, "]"]), many dimension],
        seq [many1 dimension, arrayInitializer]]]
  | .arguments => seq ["(", sepBy "," expression, ")"]
  | .switch => seq ["switch", parenthesized, switchBlock]
  | .recordPattern => seq [plainType, "(", sepBy "," patternComponent, ")"]

/-- Reads a whole source; `none` if it is no Java. The second component is the space behind the
last lexeme. Phrases nest at most as deep as there are lexemes, with fewer than a hundred
phrases between two lexemes. -/
def readUnit (source : String) : Option (List Syntax × Space) :=
  match lex source with
  | none => none
  | some (ls, close) =>
    match readPhrase Phrase.rule ((ls.length + 1) * 100) .unit ls with
    | some ([.node .unit items], []) => some (items, close)
    | _ => none

end JavaMigration.Java
