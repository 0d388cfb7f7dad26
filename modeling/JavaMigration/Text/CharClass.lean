import JavaMigration.Text.CharRange

/-!
# Character classes

The tests on single characters: blanks, letters and digits, the word characters of search
patterns and the identifier characters of Java. Every class decides ASCII by a short rule and
looks the rest up in the tables of `JavaMigration.Text.CharRange`.
-/

namespace JavaMigration.Text

open CharRange

/-- The characters with the property White_Space. -/
def isBlank (c : Char) : Bool :=
  let n := c.toNat
  (9 ≤ n && n ≤ 13) || n == 32 || n == 0x85 || n == 0xA0 || n == 0x1680 ||
    (0x2000 ≤ n && n ≤ 0x200A) || n == 0x2028 || n == 0x2029 || n == 0x202F ||
    n == 0x205F || n == 0x3000

/-- Letters: the characters with the property Alphabetic. -/
def isLetter (c : Char) : Bool :=
  if c.toNat < 128 then c.isAlpha else covers alphabetic c.toNat

/-- Letters and the digits and other numbers of every script. -/
def isAlphanumeric (c : Char) : Bool :=
  if c.toNat < 128 then c.isAlphanum
  else covers alphabetic c.toNat || covers numeric c.toNat

/-- The digits of every script. -/
def isDecimalDigit (c : Char) : Bool :=
  if c.toNat < 128 then c.isDigit else covers decimalDigit c.toNat

/-- The word characters of search patterns: letters, marks, digits, connecting punctuation and
the two joiners. -/
def isWordChar (c : Char) : Bool :=
  if c.toNat < 128 then c.isAlphanum || c == '_'
  else
    let n := c.toNat
    covers alphabetic n || covers plainMark n || covers decimalDigit n ||
      n == 0x203F || n == 0x2040 || n == 0x2054 || n == 0xFE33 || n == 0xFE34 ||
      (0xFE4D ≤ n && n ≤ 0xFE4F) || n == 0xFF3F || n == 0x200C || n == 0x200D

/-- The characters of a name as far as references are searched for in text. -/
def isNameChar (c : Char) : Bool :=
  isAlphanumeric c || c == '_' || c == '$'

/-- The characters that begin a Java identifier. -/
def isIdentifierStart (c : Char) : Bool :=
  if c.toNat < 128 then c.isAlpha || c == '_' || c == '$'
  else
    let n := c.toNat
    (covers alphabetic n && !covers dependent n) || n == 0x2118 || n == 0x212E

/-- The characters that continue a Java identifier. The cent sign is one of them. -/
def isIdentifierPart (c : Char) : Bool :=
  if c.toNat < 128 then c.isAlphanum || c == '_' || c == '$'
  else
    let n := c.toNat
    (isWordChar c && !covers wordOnly n) || covers identifierOnly n || n == 0xA2

/-- The characters between the tokens of Java source. -/
def isJavaBlank (c : Char) : Bool :=
  (9 ≤ c.toNat && c.toNat ≤ 13) || c == ' '

end JavaMigration.Text
