/-
  TrimGuard/Pass/Plan.lean
  ========================
  **What is to be retained for the sake of one type.**

  Consumer code does not call its own bridged types, the native runtime does.  So
  a bridged type of consumer code is retained as a whole, together with the types
  around it, whose removal would take it along.

  Product code refers to most of itself.  Of a bridged type of product code only
  what the native side uses is retained: the constructor that takes a native
  handle, and of a bridge object also the exported virtual methods that are
  overridden outside the platform assembly, since the runtime dispatches to the
  base method for the override to be reached.

  A plan is made from the structure of the program and the provenance of
  assemblies.  It does not look at what is retained already, and nothing is
  written before it is complete.
-/
import TrimGuard.Program
import TrimGuard.Provenance
import TrimGuard.Role
import TrimGuard.Notice

namespace TrimGuard

/-! ### Orders -/

/-- A thing to be retained. -/
inductive Order where
  | whole (t : TypeDef)
  | member (t : TypeDef) (m : MethodDef)
deriving DecidableEq

def Order.write : Order → Retention.Write
  | .whole t => .raise t.token .all
  | .member t m => .keep t.token m.token

/-- The notice that an order has changed something. -/
def Order.notice : Order → Notice
  | .whole t => .wholeType t.fullName t.token
  | .member t m => .method t.fullName m.name m.token

/-- What is to be retained for one type, and the role of the type. -/
structure Plan where
  role : Role
  orders : List Order
deriving DecidableEq

/-! ### Making a plan -/

/-- A preservation pass: a program, and the profile it is looked at under. -/
structure Pass where
  program : Program
  profile : Profile

namespace Pass

/-- Questions about provenance that may end in a fault. -/
abbrev Inquiry := ExceptT Fault (StateM Provenance.Memo)

namespace Inquiry

/-! An inquiry is a function of the memory.  Its steps run one after the other; a
fault ends it and leaves the memory as it is by then. -/

theorem run_pure {α : Type} (a : α) (memo : Provenance.Memo) :
    (pure a : Inquiry α).run memo = (.ok a, memo) := rfl

theorem run_throw {α : Type} (fault : Fault) (memo : Provenance.Memo) :
    (throw fault : Inquiry α).run memo = (.error fault, memo) := rfl

theorem run_bind {α β : Type} (x : Inquiry α) (f : α → Inquiry β) (memo : Provenance.Memo) :
    (x >>= f).run memo =
      match x.run memo with
      | (.ok a, memo) => (f a).run memo
      | (.error fault, memo) => (.error fault, memo) := by
  have hbind : (x >>= f).run memo = ExceptT.bindCont f (x.run memo).1 (x.run memo).2 := rfl
  rw [hbind]
  rcases x.run memo with ⟨_ | _, _⟩ <;> rfl

/-- A step that asks nothing leaves the memory alone. -/
theorem run_liftM {α : Type} (x : Except Fault α) (memo : Provenance.Memo) :
    (liftM x : Inquiry α).run memo = (x, memo) := by
  cases x <;> rfl

end Inquiry

def ask (pass : Pass) (a : Assembly) : Inquiry Provenance :=
  liftM (Provenance.Memo.ask pass.profile a)

theorem run_ask (pass : Pass) (a : Assembly) (memo : Provenance.Memo) :
    (pass.ask a).run memo =
      (.ok (Provenance.Memo.ask pass.profile a memo).1,
        (Provenance.Memo.ask pass.profile a memo).2) := rfl

/-- Is one of the given methods declared outside the platform assembly?  The
    search stops at the first that is. -/
def anyOutsidePlatform (pass : Pass) : List Token → Inquiry Bool
  | [] => pure false
  | m :: rest => do
    let some d := pass.program.method? m | throw (.unknownMethod m)
    let owner ← pass.program.ownerOf d
    if (← pass.ask owner.assembly) = .platform then pass.anyOutsidePlatform rest else pure true

/-- Does the native side reach overrides of `m` outside the platform assembly?
    The runtime dispatches into exported virtual methods only. -/
def isDispatchedInto (pass : Pass) (m : MethodDef) : Inquiry Bool :=
  if m.isVirtual && m.exported then
    pass.anyOutsidePlatform (pass.program.overridersOf m.token)
  else pure false

/-- Of the given methods, those through which the native side reaches overrides
    outside the platform assembly. -/
def dispatchedInto (pass : Pass) : List MethodDef → Inquiry (List MethodDef)
  | [] => pure []
  | m :: rest => do
    let reached ← pass.isDispatchedInto m
    let others ← pass.dispatchedInto rest
    return if reached then m :: others else others

/-- The first constructor of `t` that takes a native handle and nothing else. -/
def handleConstructor? (pass : Pass) (t : TypeDef) : Option MethodDef :=
  (pass.program.constructorsOf t).find? fun m => m.takesOnly pass.profile.nativeHandle

/-- The methods of a product type that the native side uses. -/
def nativeSurface (pass : Pass) (role : Role) (t : TypeDef) : Inquiry (List MethodDef) := do
  let constructor := (pass.handleConstructor? t).toList
  if role = .bridgeObject then
    return constructor ++ (← pass.dispatchedInto (pass.program.methodsOf t))
  else return constructor

def plan (pass : Pass) (t : TypeDef) : Inquiry Plan := do
  let role ← pass.profile.roleOf pass.program.types t
  if !role.isBridged then return ⟨role, []⟩
  if (← pass.ask t.assembly).isProduct then
    let methods ← pass.nativeSurface role t
    return ⟨role, methods.map (.member t)⟩
  else
    let around ← pass.program.types.enclosing pass.profile.maxNesting t
    return ⟨role, (t :: around).map .whole⟩

end Pass

end TrimGuard
