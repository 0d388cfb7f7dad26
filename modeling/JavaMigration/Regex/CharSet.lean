import JavaMigration.Text.CaseFold
import JavaMigration.Text.CharClass

/-!
# Sets of symbols

What one position of a search pattern accepts. A symbol is a number: a code point of a text, or
a byte of its encoding.
-/

namespace JavaMigration.Regex

/-- A named property of code points. -/
inductive Property where
  | digit
  | blank
  | word
  deriving DecidableEq, Repr, Inhabited

def Property.holds : Property → Char → Bool
  | digit => Text.isDecimalDigit
  | blank => Text.isBlank
  | word => Text.isWordChar

inductive CharSet where
  /-- The symbols from `first` to `last`; none if they are the wrong way round. -/
  | range (first last : Nat)
  | property (p : Property)
  | compl (s : CharSet)
  | union (s t : CharSet)
  | inter (s t : CharSet)
  /-- The symbols of a set and those that differ from one of them in letter case only. -/
  | anyCase (s : CharSet)
  deriving DecidableEq, Repr, Inhabited

namespace CharSet

def contains : CharSet → Nat → Bool
  | range first last, n => first ≤ n && n ≤ last
  | property p, n => p.holds (Char.ofNat n)
  | compl s, n => !s.contains n
  | union s t, n => s.contains n || t.contains n
  | inter s t, n => s.contains n && t.contains n
  | anyCase s, n => (Text.CaseFold.variants n).any s.contains

def empty : CharSet := range 1 0

def any : CharSet := range 0 0x10FFFF

def single (n : Nat) : CharSet := range n n

def char (c : Char) : CharSet := single c.toNat

def ofRanges (rs : List (Nat × Nat)) : CharSet :=
  rs.foldr (fun (first, last) s => union (range first last) s) empty

def unionAll (sets : List CharSet) : CharSet := sets.foldr union empty

def diff (s t : CharSet) : CharSet := inter s (compl t)

def symmDiff (s t : CharSet) : CharSet := union (diff s t) (diff t s)

end CharSet

end JavaMigration.Regex
