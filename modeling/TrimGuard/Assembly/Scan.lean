/-
  TrimGuard/Assembly/Scan.lean
  ============================
  **Versions read within sixteen bits.**

  A component may have any number of digits, most of them zeros perhaps, so neither its
  length nor the number that it stands for is bounded.  It is read digit by digit into a
  word of 16 bits, and reading ends at the first digit that does not fit.  What is read is
  put into four places, one after the other; they are zero before.
-/
import TrimGuard.Assembly.Version

namespace TrimGuard.Version

open TrimGuard.Text

/-- The number as a word, if it is one. -/
def word? (n : Nat) : Option UInt16 := if n < UInt16.size then some (UInt16.ofNat n) else none

/-- The number with one more digit behind it.  Neither of the two steps may leave the
    word. -/
def pushDigit (n : UInt16) (c : Char) : Option UInt16 :=
  if c.isDigit then do
    let tens ← word? (10 * n.toNat)
    word? (tens.toNat + (c.toNat - '0'.toNat))
  else none

/-- Read a numeral digit by digit. -/
def scanNumeral? (cs : List Char) : Option UInt16 :=
  match unsigned cs with
  | [] => none
  | digits => digits.foldlM pushDigit 0

/-- Read one component. -/
def scanComponent (cs : List Char) : Except Fault UInt16 :=
  match scanNumeral? cs with
  | some n => .ok n
  | none => .error (.badComponent (String.ofList cs))

/-- Put the components into their places, the first one at the given position. -/
def fill (position : Nat) (places : List UInt16) : List (List Char) → Except Fault (List UInt16)
  | [] => .ok places
  | cs :: rest =>
    match scanComponent cs with
    | .ok n => fill (position + 1) (places.set position n) rest
    | .error fault => .error fault

def scan (s : String) : Except Fault Version :=
  let (first, rest) := fields '.' s.toList
  if 3 < rest.length then .error (.tooManyComponents s)
  else (fill 0 (List.replicate 4 0) (first :: rest)).map ofComponents

end TrimGuard.Version
