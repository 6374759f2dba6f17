/-
  TrimGuard/Program/Signature.lean
  ================================
  **Parameter types and method modifiers.**

  The part of a method's signature that matters for native bridging.  Parameter
  types are told apart closely enough to recognise the native handle; classes and
  value types are named by their token.  Modifiers are the attribute flags of the
  method table.  Bits that have no meaning here are kept as they are.
-/
import TrimGuard.Token

namespace TrimGuard

/-! ### Parameters -/

inductive Param where
  | boolean | int32 | uint32 | int64 | uint64 | float64
  /-- A signed integer as wide as a pointer. -/
  | nativeInt
  /-- An unsigned integer as wide as a pointer. -/
  | nativeUInt
  | string | object
  | classRef (t : Token)
  | valueRef (t : Token)
deriving DecidableEq

/-- The type of the program that a parameter type refers to. -/
def Param.typeRef? : Param → Option Token
  | .classRef t | .valueRef t => some t
  | _ => none

theorem Param.typeRef?_eq_some_iff {p : Param} {t : Token} :
    p.typeRef? = some t ↔ p = .classRef t ∨ p = .valueRef t := by
  cases p <;> simp [Param.typeRef?]

/-! ### Modifiers -/

/-- The attribute flags of a method. -/
structure Modifiers where
  bits : UInt32
deriving DecidableEq

namespace Modifiers

instance : OrOp Modifiers := ⟨fun m n => ⟨m.bits ||| n.bits⟩⟩

def none : Modifiers := ⟨0⟩

/-- The method belongs to the type, not to an instance. -/
def static : Modifiers := ⟨0x0010⟩

/-- The method occupies a slot that can be overridden. -/
def virtual : Modifiers := ⟨0x0040⟩

/-- The method has no body of its own. -/
def abstract : Modifiers := ⟨0x0400⟩

/-- The name of the method is special. -/
def specialName : Modifiers := ⟨0x0800⟩

/-- The runtime gives the name of the method a meaning. -/
def runtimeSpecialName : Modifiers := ⟨0x1000⟩

/-- Are all the given flags set? -/
def has (m flags : Modifiers) : Bool := m.bits &&& flags.bits == flags.bits

end Modifiers

end TrimGuard
