/-
  TrimGuard/Program/Ascent.lean
  =============================
  **Bounded walks up a program: enclosing types and base types.**

  Nesting and inheritance both give a type at most one type above it, and a walk
  goes up from type to type.  The edges come as they were registered: they may
  form cycles, may be longer than any honest program needs, and, for a type that
  is not part of the program, may lead outside.  So every step is checked.  A
  type must not have been met before, then there must be a step left of the
  limit, then the type must exist.  The order of the three checks decides which
  of two faults is reported.

  The starting type counts as met, but not against the limit: a limit of `n`
  allows `n` types above it.
-/
import TrimGuard.Program.TypeTable

namespace TrimGuard

/-! ### The walk -/

/-- Why a walk ends: the last type has nothing above it, or the next one was met before,
    is beyond the limit, or is not part of the program. -/
inductive Ascent.End where
  | top
  | repeats (t : Token)
  | tooHigh
  | outside (t : Token)
deriving DecidableEq

/-- A walk: the types above the starting type, nearest first, and why it ended. -/
structure Ascent where
  passed : List TypeDef
  finish : Ascent.End
deriving DecidableEq

namespace TypeTable

/-- Walk up from `start`, taking `up` from type to type.  `steps` bounds the
    number of types passed, and `met` lists the types met so far. -/
def ascend (types : TypeTable) (up : TypeDef → Option Token) :
    (steps : Nat) → (met : List Token) → (start : Option Token) → Ascent
  | _, _, none => ⟨[], .top⟩
  | steps, met, some t =>
    if t ∈ met then ⟨[], .repeats t⟩
    else
      match steps with
      | 0 => ⟨[], .tooHigh⟩
      | steps + 1 =>
        match types.find? t with
        | none => ⟨[], .outside t⟩
        | some d =>
          let above := types.ascend up steps (t :: met) (up d)
          ⟨d :: above.passed, above.finish⟩

/-! ### Nesting

An enclosing type has to exist: without it the nested type could not be there
either.  Meeting a type again is a fault of its own. -/

/-- The types around `t`, innermost first, at most `limit` of them. -/
def enclosing (types : TypeTable) (limit : Nat) (t : TypeDef) : Except Fault (List TypeDef) :=
  let up := types.ascend (fun d => d.enclosing) limit [t.token] t.enclosing
  match up.finish with
  | .top => .ok up.passed
  | .repeats p => .error (.nestingCycle p)
  | .tooHigh => .error (.depthExceeded limit)
  | .outside p => .error (.unknownType p)

/-! ### Inheritance

A base type outside the program ends the chain without fault.  A chain that loops
never ends, so it is reported as too deep. -/

/-- `t` followed by its base types, most derived first, with at most `limit` base
    types. -/
def lineage (types : TypeTable) (limit : Nat) (t : TypeDef) : Except Fault (List TypeDef) :=
  let up := types.ascend (fun d => d.base) limit [t.token] t.base
  match up.finish with
  | .top | .outside _ => .ok (t :: up.passed)
  | .repeats _ | .tooHigh => .error (.depthExceeded limit)

end TypeTable

end TrimGuard
