/-
  TrimGuard/Pass/Tally.lean
  =========================
  **The statistics of a pass.**
-/

namespace TrimGuard

/-- What a pass, or the part of it that concerns one type, amounts to: the types
    inspected, the bridge objects and handle wrappers among them, and the types, enclosing
    types included, and methods that were newly retained. -/
structure Tally where
  types : Nat := 0
  bridgeObjects : Nat := 0
  handleWrappers : Nat := 0
  wholeTypes : Nat := 0
  methods : Nat := 0
deriving DecidableEq

namespace Tally

/-- Tallies add up field by field. -/
instance : Add Tally where
  add a b :=
    { types := a.types + b.types
      bridgeObjects := a.bridgeObjects + b.bridgeObjects
      handleWrappers := a.handleWrappers + b.handleWrappers
      wholeTypes := a.wholeTypes + b.wholeTypes
      methods := a.methods + b.methods }

instance : Zero Tally := ⟨{}⟩

def sum (ts : List Tally) : Tally := ts.foldl (· + ·) 0

end Tally

end TrimGuard
