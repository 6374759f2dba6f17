/-
  TrimGuard/Assembly/Version.lean
  ===============================
  **Four-part assembly versions.**

  A version is written as its four components joined by dots.  It is read from
  one to four components; the ones left out are zero.  The number of components
  is looked at before any of them is read, so a text with five components is
  refused as a whole even if the first is already no number.
-/
import TrimGuard.Fault
import TrimGuard.Text.Fields
import TrimGuard.Text.Numeral

namespace TrimGuard

open TrimGuard.Text

/-- A version: four components of 16 bits each, the most significant first.
    Versions are ordered by their first differing component. -/
structure Version where
  major : UInt16
  minor : UInt16
  build : UInt16
  revision : UInt16
deriving DecidableEq, Ord

namespace Version

/-- The version `0.0.0.0`, which stands for one that is not known. -/
def unknown : Version := ⟨0, 0, 0, 0⟩

def components (v : Version) : List UInt16 := [v.major, v.minor, v.build, v.revision]

/-! ### Writing -/

def text (v : Version) : String :=
  ".".intercalate (v.components.map fun n => decimal n.toNat)

/-! ### Reading -/

/-- The version with the given leading components; the others are zero. -/
def ofComponents (ns : List UInt16) : Version :=
  ⟨ns.getD 0 0, ns.getD 1 0, ns.getD 2 0, ns.getD 3 0⟩

/-- Read one component: a numeral of at most 65535. -/
def component (cs : List Char) : Except Fault UInt16 :=
  match numeral? 65535 cs with
  | some n => .ok (UInt16.ofNat n)
  | none => .error (.badComponent (String.ofList cs))

def ofChars (cs : List Char) : Except Fault Version :=
  let (first, rest) := fields '.' cs
  if 3 < rest.length then .error (.tooManyComponents (String.ofList cs))
  else (first :: rest).mapM component |>.map ofComponents

def parse (s : String) : Except Fault Version := ofChars s.toList

end Version

end TrimGuard
