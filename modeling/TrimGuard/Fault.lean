/-
  TrimGuard/Fault.lean
  ====================
  **What can be wrong with an input.**

  Every operation that can fail fails with a `Fault`, which says what is wrong
  and which definition it concerns.  The wording is left to `Fault.message`.
  There are three groups: texts and registrations that are refused on the spot,
  references that turn out to be dangling when a program is sealed, and walks over
  a sealed program that cannot be completed.
-/
import TrimGuard.QualifiedName
import TrimGuard.Token

namespace TrimGuard

/-- A reason why an operation fails. -/
inductive Fault where
  /-- An assembly name has nothing in front of its first comma. -/
  | emptyAssemblyName
  /-- A version text has more than four components. -/
  | tooManyComponents (text : String)
  /-- A version component is no numeral within 16 bits. -/
  | badComponent (component : String)
  | emptyTypeName («namespace» : String)
  | emptyMethodName (owner : Token)
  | typeTableFull
  | methodTableFull
  | danglingType (owner : Token) (name : QualifiedName) (reference : Token)
  | danglingMethodType (owner : Token) (name : String) (reference : Token)
  | danglingOverride (owner : Token) (name : String) (reference : Token)
  | unknownType (t : Token)
  | unknownMethod (m : Token)
  /-- A walk over enclosing types meets a type for the second time. -/
  | nestingCycle (t : Token)
  /-- A walk goes deeper than the limit set for it. -/
  | depthExceeded (limit : Nat)
deriving DecidableEq

def Fault.message : Fault → String
  | .emptyAssemblyName => "Assembly name cannot be empty"
  | .tooManyComponents text => "Invalid version format: " ++ text
  | .badComponent component => "Invalid version component: " ++ component
  | .emptyTypeName ns => "Type name cannot be empty (namespace '" ++ ns ++ "')"
  | .emptyMethodName owner => "Method name cannot be empty (type " ++ owner.text ++ ")"
  | .typeTableFull => "TypeDef table is full"
  | .methodTableFull => "MethodDef table is full"
  | .danglingType owner name reference =>
    "Type " ++ owner.text ++ " (" ++ name.dotted ++ ") references unknown type " ++ reference.text
  | .danglingMethodType owner name reference =>
    "Method " ++ owner.text ++ " (" ++ name ++ ") references unknown type " ++ reference.text
  | .danglingOverride owner name reference =>
    "Method " ++ owner.text ++ " (" ++ name ++ ") overrides unknown method " ++ reference.text
  | .unknownType t => "Failed to find type in TypeGraph - " ++ t.text
  | .unknownMethod m => "Failed to find method in TypeGraph - " ++ m.text
  | .nestingCycle t => "Cyclic nesting detected at type - " ++ t.text
  | .depthExceeded limit =>
    "Reach the maximum recursion level allowed - " ++ Text.decimal limit

end TrimGuard
