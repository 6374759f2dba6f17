/-
  TrimGuard/Role.lean
  ===================
  **The role of a type in native bridging.**

  The native runtime knows two kinds of types.  A *bridge object* inherits from
  the bridge root: the runtime creates instances of it and dispatches into its
  virtual methods.  A *handle wrapper* does not, but has the native-object
  interface somewhere in its hierarchy: the runtime only creates instances.  All
  other types are plain.

  Well-known types are recognised by namespace and name, in any assembly.
-/
import TrimGuard.Profile
import TrimGuard.Program.Ascent

namespace TrimGuard

inductive Role where
  | plain
  | bridgeObject
  | handleWrapper
deriving DecidableEq

/-- Does the native runtime know the type at all? -/
def Role.isBridged (r : Role) : Bool := r ≠ .plain

/-! ### The interface search

Interfaces form a graph of their own, in which an interface may be reached along
many paths and may even reach itself.  The search goes depth first through the
interfaces in the order in which they are declared and enters each of them once.
The depth of a path is checked before anything else, so an interface that was
entered before is still a fault at the end of a path that is too long. -/

/-- What a search has come to. -/
inductive Search where
  | found
  /-- It was not found so far, and these interfaces need not be entered again. -/
  | missed (entered : List Token)
deriving DecidableEq

/-- Search from each of the given interfaces in turn, until one leads to a find
    or a fault.  `visit` is the search from a single one. -/
def Search.through (visit : List Token → Token → Except Fault Search) :
    (entered : List Token) → List Token → Except Fault Search
  | entered, [] => .ok (.missed entered)
  | entered, i :: rest =>
    match visit entered i with
    | .error fault => .error fault
    | .ok .found => .ok .found
    | .ok (.missed entered) => through visit entered rest

/-- Search for the interface named `wanted` from the interface `i`, along paths
    of fewer than `depth` edges. -/
def TypeTable.search (types : TypeTable) (wanted : QualifiedName) (limit : Nat) :
    (depth : Nat) → (entered : List Token) → (i : Token) → Except Fault Search
  | 0, _, _ => .error (.depthExceeded limit)
  | depth + 1, entered, i =>
    if i ∈ entered then .ok (.missed entered)
    else
      match types.find? i with
      | none => .ok (.missed (i :: entered))
      | some d =>
        if d.name = wanted then .ok .found
        else Search.through (types.search wanted limit depth) (i :: entered) d.interfaces

/-! ### The role of a type -/

namespace Profile

/-- The role of `t`.  The bridge root decides if it is in the chain of base
    types; only then does the search go through the interfaces of the chain, most
    derived type first, along paths of at most as many edges as a type may have
    base types. -/
def roleOf (p : Profile) (types : TypeTable) (t : TypeDef) : Except Fault Role :=
  match types.lineage p.maxHierarchy t with
  | .error fault => .error fault
  | .ok line =>
    if line.any fun d => d.name = p.bridgeRoot then .ok .bridgeObject
    else
      let visit := types.search p.nativeObject p.maxHierarchy (p.maxHierarchy + 1)
      match Search.through visit [] (line.flatMap fun d => d.interfaces) with
      | .error fault => .error fault
      | .ok .found => .ok .handleWrapper
      | .ok (.missed _) => .ok .plain

/-- A role is told by the names in the chain of base types, or else by what the
    search through the interfaces of the chain has come to. -/
theorem roleOf_eq_ok_iff (p : Profile) (types : TypeTable) (t : TypeDef) (role : Role) :
    p.roleOf types t = .ok role ↔
      ∃ line, types.lineage p.maxHierarchy t = .ok line ∧
        ((∃ d ∈ line, d.name = p.bridgeRoot) ∧ role = .bridgeObject ∨
          (∀ d ∈ line, d.name ≠ p.bridgeRoot) ∧ ∃ answer,
            Search.through (types.search p.nativeObject p.maxHierarchy (p.maxHierarchy + 1)) []
                (line.flatMap fun d => d.interfaces) = .ok answer ∧
              role = if answer = .found then .handleWrapper else .plain) := by
  simp only [roleOf]
  rcases types.lineage p.maxHierarchy t with fault | line
  · simp
  · simp only [Except.ok.injEq, exists_eq_left']
    by_cases hroot : ∃ d ∈ line, d.name = p.bridgeRoot
    · have hany : (line.any fun d => d.name = p.bridgeRoot) = true := by simpa using hroot
      have hsome : ¬ ∀ d ∈ line, d.name ≠ p.bridgeRoot := by simpa using hroot
      simp only [hany, hroot, hsome, if_true, true_and, false_and, or_false, Except.ok.injEq,
        eq_comm]
    · have hany : (line.any fun d => d.name = p.bridgeRoot) = false := by simpa using hroot
      have hnone : ∀ d ∈ line, d.name ≠ p.bridgeRoot := by simpa using hroot
      simp only [hany, hroot, Bool.false_eq_true, if_false, false_and, false_or,
        and_iff_right hnone]
      rcases hsearch : Search.through (types.search p.nativeObject p.maxHierarchy
        (p.maxHierarchy + 1)) [] (line.flatMap fun d => d.interfaces) with fault | _ | entered <;>
        simp [hsearch, eq_comm]

end Profile

end TrimGuard
