/-
  TrimGuard/Provenance.lean
  =========================
  **Where an assembly comes from.**

  The product is the platform binding itself; one further assembly is trusted
  like it for historical reasons; everything else is consumer code.  The answer
  depends on the simple name alone, so two versions of one assembly come from the
  same place.

  Answers are remembered, under the full identity of the assembly.  How many
  identities have been asked about can be observed; that the memory is consulted
  cannot, because it never holds anything but the answer that would be given
  without it.
-/
import TrimGuard.Assembly
import TrimGuard.Profile

namespace TrimGuard

/-- Where an assembly comes from.  Applications and third-party libraries alike are
    `consumer` code. -/
inductive Provenance where
  | platform
  | compat
  | consumer
deriving DecidableEq

/-- Is it product code, that is, from one of the two trusted assemblies? -/
def Provenance.isProduct (v : Provenance) : Bool := v ≠ .consumer

/-- Where an assembly comes from under a profile.  Where the profile gives both
    trusted assemblies one name, the assembly is the platform binding. -/
def Profile.provenance (p : Profile) (a : Assembly) : Provenance :=
  if a.name = p.product then .platform
  else if a.name = p.compat then .compat
  else .consumer

namespace Provenance

/-! ### Remembered answers -/

/-- The answers given so far, by identity. -/
structure Memo where
  known : List (Assembly × Provenance) := []
deriving DecidableEq

namespace Memo

def size (memo : Memo) : Nat := memo.known.length

/-- Where does the assembly come from?  A first answer is remembered. -/
def ask (p : Profile) (a : Assembly) : StateM Memo Provenance := fun memo =>
  match memo.known.lookup a with
  | some v => (v, memo)
  | none => (p.provenance a, ⟨(a, p.provenance a) :: memo.known⟩)

/-- Is the assembly product code? -/
def askProduct (p : Profile) (a : Assembly) : StateM Memo Bool := do
  return (← ask p a).isProduct

/-- Is the assembly the platform binding itself? -/
def askPlatform (p : Profile) (a : Assembly) : StateM Memo Bool := do
  return (← ask p a) = .platform

/-- Ask about each assembly in turn.  The answer is how many are product code. -/
def resolve (p : Profile) : List Assembly → StateM Memo Nat
  | [] => pure 0
  | a :: rest => do
    let v ← ask p a
    let n ← resolve p rest
    return if v.isProduct then n + 1 else n

end Memo

end Provenance

end TrimGuard
