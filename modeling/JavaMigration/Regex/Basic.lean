import JavaMigration.Regex.CharSet

/-!
# Search patterns

Regular expressions with assertions about the symbols around a position. A text is read symbol by
symbol; what may still follow is a set of sequences of patterns, the derivatives of the pattern by
what was read.
-/

namespace JavaMigration

namespace Regex

/-- What may be asserted about a position, given the symbols in front of it and behind it. -/
inductive Assertion where
  | textStart
  | textEnd
  | lineStart
  | lineEnd
  /-- Like `lineStart` and `lineEnd` with carriage returns as line ends too, but for the position
  between a carriage return and a line feed. -/
  | anyLineStart
  | anyLineEnd
  /-- The two sides differ in whether they are in the set of word symbols. -/
  | wordEdge (word : CharSet)
  | noWordEdge (word : CharSet)
  | wordStart (word : CharSet)
  | wordEnd (word : CharSet)
  | noWordBefore (word : CharSet)
  | noWordAfter (word : CharSet)
  deriving DecidableEq, Repr, Inhabited

def lineFeed : Nat := 10

def carriageReturn : Nat := 13

def Assertion.holds (before after : Option Nat) : Assertion → Bool
  | textStart => before.isNone
  | textEnd => after.isNone
  | lineStart => before.all (· == lineFeed)
  | lineEnd => after.all (· == lineFeed)
  | anyLineStart =>
    before.all fun n => n == lineFeed || (n == carriageReturn && after != some lineFeed)
  | anyLineEnd =>
    after.all fun n => n == carriageReturn || (n == lineFeed && before != some carriageReturn)
  | wordEdge word => before.any word.contains != after.any word.contains
  | noWordEdge word => before.any word.contains == after.any word.contains
  | wordStart word => !before.any word.contains && after.any word.contains
  | wordEnd word => before.any word.contains && !after.any word.contains
  | noWordBefore word => !before.any word.contains
  | noWordAfter word => !after.any word.contains

end Regex

open Regex

inductive Regex where
  | empty
  | symbol (set : CharSet)
  | assertion (a : Assertion)
  | cat (a b : Regex)
  | alt (a b : Regex)
  /-- Between `least` and `most` times the same pattern, without a bound if there is no `most`. -/
  | times (a : Regex) (least : Nat) (most : Option Nat)
  deriving DecidableEq, Repr, Inhabited

namespace Regex

def star (a : Regex) : Regex := times a 0 none

def catAll (rs : List Regex) : Regex := rs.foldr cat empty

def altAll : List Regex → Regex
  | [] => symbol .empty
  | [r] => r
  | r :: rs => alt r (altAll rs)

/-- The pattern of the given symbols one after the other. -/
def literal (symbols : List Nat) : Regex := catAll (symbols.map fun n => symbol (.single n))

/-! ## Matching -/

/-- Whether a pattern accepts the empty text between two symbols. -/
def acceptsEmpty (before after : Option Nat) : Regex → Bool
  | empty => true
  | symbol _ => false
  | assertion a => a.holds before after
  | cat a b => a.acceptsEmpty before after && b.acceptsEmpty before after
  | alt a b => a.acceptsEmpty before after || b.acceptsEmpty before after
  | times a least _ => least == 0 || a.acceptsEmpty before after

/-- What may follow the symbol `n` if it is the first one of a pattern and `rest` follows the
pattern. -/
def derive (before : Option Nat) (n : Nat) : Regex → List Regex → List (List Regex)
  | empty, _ => []
  | symbol set, rest => if set.contains n then [rest] else []
  | assertion _, _ => []
  | cat a b, rest =>
    a.derive before n (b :: rest) ++
      if a.acceptsEmpty before (some n) then b.derive before n rest else []
  | alt a b, rest => a.derive before n rest ++ b.derive before n rest
  | times a least most, rest =>
    if most == some 0 then []
    else
      let least := if a.acceptsEmpty before (some n) then 0 else least - 1
      a.derive before n (times a least (most.map (· - 1)) :: rest)

/-- The derivatives of a sequence of patterns. -/
def deriveAll (before : Option Nat) (n : Nat) : List Regex → List (List Regex)
  | [] => []
  | r :: rest =>
    r.derive before n rest ++
      if r.acceptsEmpty before (some n) then deriveAll before n rest else []

/-- Whether one of some sequences accepts a whole text. -/
def acceptsFrom (before : Option Nat) (states : List (List Regex)) : List Nat → Bool
  | [] => states.any fun rs => rs.all (·.acceptsEmpty before none)
  | n :: text =>
    acceptsFrom (some n) ((states.flatMap (deriveAll before n)).eraseDups) text

/-- Whether a pattern accepts a whole text. -/
def accepts (r : Regex) (text : List Nat) : Bool := acceptsFrom none [[r]] text

/-- Whether a pattern accepts some part of a text, or one of some sequences accepts its
beginning. -/
def occursFrom (r : Regex) (before : Option Nat) (states : List (List Regex)) :
    List Nat → Bool
  | [] => ([r] :: states).any fun rs => rs.all (·.acceptsEmpty before none)
  | n :: text =>
    let states := [r] :: states
    states.any (fun rs => rs.all (·.acceptsEmpty before (some n))) ||
      occursFrom r (some n) ((states.flatMap (deriveAll before n)).eraseDups) text

/-- Whether a pattern accepts some part of a text. -/
def occursIn (r : Regex) (text : List Nat) : Bool := occursFrom r none [] text

end Regex

end JavaMigration
