/-
  TrimGuard/Program/Definition.lean
  =================================
  **Type and method definitions.**

  A definition comes in two stages.  An *entry* is what is registered: the facts
  read from an assembly.  A *definition* is an entry that has its place in a
  program: it carries its token and what can only be known once everything is
  registered, the methods of a type and whether a method is exported.
-/
import TrimGuard.Assembly
import TrimGuard.Program.Signature

namespace TrimGuard

/-! ### Types -/

/-- What is registered of a type. -/
structure TypeEntry where
  assembly : Assembly
  name : QualifiedName
  enclosing : Option Token := none
  base : Option Token := none
  /-- The interfaces it implements directly.  An interface lists here the
      interfaces it inherits from. -/
  interfaces : List Token := []
deriving DecidableEq

/-- The types an entry refers to: the enclosing type, the base type, then the
    interfaces. -/
def TypeEntry.references (e : TypeEntry) : List Token :=
  e.enclosing.toList ++ e.base.toList ++ e.interfaces

structure TypeDef extends TypeEntry where
  token : Token
  /-- The methods it declares, in the order of declaration. -/
  methods : List Token
deriving DecidableEq

def TypeDef.fullName (t : TypeDef) : String := t.name.text

/-! ### Methods -/

/-- What is registered of a method. -/
structure MethodEntry where
  owner : Token
  name : String
  flags : Modifiers := .none
  params : List Param := []
  /-- The types of the attributes attached to it, in order. -/
  attributes : List Token := []
  overrides : List Token := []
deriving DecidableEq

/-- The types a method entry refers to: its attributes, then the types among its
    parameters.  The owner is not counted, it is checked at registration. -/
def MethodEntry.references (e : MethodEntry) : List Token :=
  e.attributes ++ e.params.filterMap Param.typeRef?

structure MethodDef extends MethodEntry where
  token : Token
  /-- Can the native side reach the method by selector? -/
  exported : Bool
deriving DecidableEq

/-- The name under which the runtime looks for instance constructors. -/
def MethodEntry.constructorName : String := ".ctor"

/-- The flags that go with a constructor's name. -/
def Modifiers.constructor : Modifiers := .specialName ||| .runtimeSpecialName

namespace MethodDef

/-- Can the method be overridden? -/
def isVirtual (m : MethodDef) : Bool := m.flags.has .virtual

/-- Does the method belong to the type itself? -/
def isStatic (m : MethodDef) : Bool := m.flags.has .static

/-- Is the method an instance constructor?  The name alone does not make it one:
    the runtime must give the name its meaning, and the method must not be
    static. -/
def isConstructor (m : MethodDef) : Bool :=
  m.name == MethodEntry.constructorName && m.flags.has .runtimeSpecialName && !m.isStatic

/-- Does the method take exactly one parameter, of the given type? -/
def takesOnly (m : MethodDef) (p : Param) : Bool := m.params == [p]

end MethodDef

end TrimGuard
