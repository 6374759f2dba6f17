/-
  TrimGuard/Program.lean
  ======================
  **A sealed program.**

  A program holds the types and methods of a whole set of assemblies.  It is the
  read-only input of the preservation pass: types and methods are looked up by
  token, and the override edges, which methods record towards the method they
  override, can be followed in the other direction as well.
-/
import TrimGuard.Program.Ascent
import TrimGuard.Token.Index

namespace TrimGuard

/-- The override edges of the methods, from the method overridden to the one that
    overrides it. -/
def overrideEdges (methods : List MethodDef) : List (Token × Token) :=
  methods.flatMap fun m => m.overrides.map fun overridden => (overridden, m.token)

/-- The types and methods of a set of assemblies. -/
structure Program where
  types : TypeTable
  /-- The methods; position `i` holds the method of row `i + 1`. -/
  methods : Array MethodDef
  overriders : Token.Index := .ofPairs (overrideEdges methods.toList)
  /-- The overriders are those that the methods record. -/
  overriders_eq : overriders = .ofPairs (overrideEdges methods.toList) := by rfl

namespace Program

/-! ### Look-up -/

def type? (p : Program) (t : Token) : Option TypeDef := p.types.find? t

def method? (p : Program) (m : Token) : Option MethodDef :=
  (m.methodIndex? p.methods.size).bind fun i => p.methods[i]?

/-! ### Methods of a type

The list of methods is read off the type at hand, which need not be a type of
this program; a method that the program does not have is passed over. -/

/-- The methods that `t` declares, in the order of declaration. -/
def methodsOf (p : Program) (t : TypeDef) : List MethodDef := t.methods.filterMap p.method?

/-- The instance constructors that `t` declares, in the order of declaration. -/
def constructorsOf (p : Program) (t : TypeDef) : List MethodDef :=
  (p.methodsOf t).filter fun m => m.isConstructor

def ownerOf (p : Program) (m : MethodDef) : Except Fault TypeDef :=
  match p.type? m.owner with
  | some t => .ok t
  | none => .error (.unknownType m.owner)

/-! ### Overrides -/

/-- The methods that override `m`, in the order of their tokens.  A method that
    records the override twice is listed twice. -/
def overridersOf (p : Program) (m : Token) : List Token := p.overriders.under m

end Program

end TrimGuard
