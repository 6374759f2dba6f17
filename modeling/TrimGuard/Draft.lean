/-
  TrimGuard/Draft.lean
  ====================
  **A program under construction.**

  Types and methods are registered one after the other and get their token at
  once, so that later registrations can refer to them.  References may also point
  forward, which is why they are not looked at before the draft is sealed.  Only
  what fixes a token is checked at registration: a definition needs a name and a
  free row, and a method needs an owner that is already there.  Nesting may be
  stated after the fact, between two types that are already there.

  A registration that fails leaves no trace: it returns no new draft.
-/
import TrimGuard.Program.Definition

namespace TrimGuard

/-- The attribute that marks a method as reachable from the native side. -/
def exportAttribute : QualifiedName := ⟨"Foundation", "ExportAttribute"⟩

/-- The types and methods registered so far. -/
structure Draft where
  /-- The attribute type that marks exported methods; so do types derived from it. -/
  exportName : QualifiedName := exportAttribute
  types : Array TypeEntry := #[]
  methods : Array MethodEntry := #[]
  types_fit : types.size ≤ Token.lastRow := by decide
  methods_fit : methods.size ≤ Token.lastRow := by decide
  owners_known : ∀ m ∈ methods, (m.owner.typeIndex? types.size).isSome := by simp

namespace Draft

/-- Nothing is registered yet. -/
def empty (exportName : QualifiedName := exportAttribute) : Draft where
  exportName
  types_fit := Nat.zero_le _
  methods_fit := Nat.zero_le _

/-! ### What is registered -/

def typeRows (d : Draft) : List (Token × TypeEntry) :=
  d.types.toList.zipIdx.map fun (e, i) => (.ofTypeIndex i, e)

def methodRows (d : Draft) : List (Token × MethodEntry) :=
  d.methods.toList.zipIdx.map fun (e, i) => (.ofMethodIndex i, e)

def hasType (d : Draft) (t : Token) : Bool := (t.typeIndex? d.types.size).isSome

def hasMethod (d : Draft) (m : Token) : Bool := (m.methodIndex? d.methods.size).isSome

/-! ### Registration -/

/-- Register a type.  The answer is its token. -/
def addType (d : Draft) (e : TypeEntry) : Except Fault (Token × Draft) :=
  if e.name.name.isEmpty then .error (.emptyTypeName e.name.namespace)
  else if h : d.types.size < Token.lastRow then
    .ok (.ofTypeIndex d.types.size,
      { d with
        types := d.types.push e
        types_fit := by rw [Array.size_push]; exact h
        owners_known := fun m hm => by
          obtain ⟨i, hi⟩ := Option.isSome_iff_exists.mp (d.owners_known m hm)
          exact Option.isSome_of_eq_some (Token.index?_mono (by simp) hi) })
  else .error .typeTableFull

/-- Register a method on the type it names as its owner.  The answer is its
    token. -/
def addMethod (d : Draft) (e : MethodEntry) : Except Fault (Token × Draft) :=
  if e.name.isEmpty then .error (.emptyMethodName e.owner)
  else if h : d.methods.size < Token.lastRow then
    if ho : d.hasType e.owner then
      .ok (.ofMethodIndex d.methods.size,
        { d with
          methods := d.methods.push e
          methods_fit := by rw [Array.size_push]; exact h
          owners_known := fun m hm => by
            rcases Array.mem_push.mp hm with hm | rfl
            · exact d.owners_known m hm
            · exact ho })
    else .error (.unknownType e.owner)
  else .error .methodTableFull

/-- Nest one registered type in another, in place of what its entry said before.
    The answer is the token of the nested type. -/
def nest (d : Draft) (inner outer : Token) : Except Fault (Token × Draft) :=
  if d.hasType outer then
    match inner.typeIndex? d.types.size with
    | some i =>
      .ok (inner,
        { d with
          types := d.types.modify i fun e => { e with enclosing := some outer }
          types_fit := by simpa using d.types_fit
          owners_known := by simpa using d.owners_known })
    | none => .error (.unknownType inner)
  else .error (.unknownType outer)

/-! ### Registrations as data -/

/-- One step in the making of a draft. -/
inductive Registration where
  | type (e : TypeEntry)
  | method (e : MethodEntry)
  | nest (inner outer : Token)
deriving DecidableEq

/-- Carry out a registration.  The answer is the token of the definition that it
    adds or changes. -/
def register (d : Draft) : Registration → Except Fault (Token × Draft)
  | .type e => d.addType e
  | .method e => d.addMethod e
  | .nest inner outer => d.nest inner outer

/-- Carry out registrations one after the other.  Those that fail are passed over. -/
def registerAll (d : Draft) (rs : List Registration) : Draft :=
  rs.foldl (fun d r =>
    match d.register r with
    | .ok (_, d) => d
    | .error _ => d) d

end Draft

end TrimGuard
