/-
  TrimGuard/Draft/Workbench.lean
  ==============================
  **Registration in place.**

  A draft is a value, and a registration that fails returns no new one.  On a workbench
  the tables are changed where they stand, one step after the other, and each type
  keeps a list of the methods that were declared on it so far.  A call that fails midway
  would leave the workbench half changed, and all tokens handed out afterwards would be
  those of other rows.
-/
import TrimGuard.Draft.Recall

namespace TrimGuard

/-- A draft that is changed in place. -/
structure Workbench extends Draft where
  /-- The methods declared on each type so far, by the position of the type. -/
  declared : Array (Array Token) := #[]

namespace Workbench

/-- Nothing is registered yet. -/
def empty (exportName : QualifiedName := exportAttribute) : Workbench where
  toDraft := .empty exportName

/-! ### Calls -/

/-- A call on a workbench.  What it has changed when it fails stays changed. -/
abbrev Call := ExceptT Fault (StateM Workbench)

namespace Call

variable {α β : Type}

def run (x : Call α) (w : Workbench) : Except Fault α × Workbench := ExceptT.run x w

@[simp] theorem run_pure (a : α) (w : Workbench) : (pure a : Call α).run w = (.ok a, w) := rfl

@[simp] theorem run_throw (fault : Fault) (w : Workbench) :
    (throw fault : Call α).run w = (.error fault, w) := rfl

theorem run_bind (x : Call α) (f : α → Call β) (w : Workbench) :
    (x >>= f).run w =
      match x.run w with
      | (.ok a, w) => (f a).run w
      | (.error fault, w) => (.error fault, w) := by
  have hbind : (x >>= f).run w = ExceptT.bindCont f (x.run w).1 (x.run w).2 := rfl
  rw [hbind]
  rcases x.run w with ⟨_ | _, _⟩ <;> rfl

@[simp] theorem run_get (w : Workbench) : (get : Call Workbench).run w = (.ok w, w) := rfl

@[simp] theorem run_set (w w' : Workbench) : (set w' : Call PUnit).run w = (.ok (), w') := rfl

@[simp] theorem run_modify (f : Workbench → Workbench) (w : Workbench) :
    (modify f : Call PUnit).run w = (.ok (), f w) := rfl

end Call

/-- Register a type, with no method declared on it. -/
def addType (e : TypeEntry) : Call Token := do
  if e.name.name.isEmpty then throw (.emptyTypeName e.name.namespace)
  let w ← get
  if h : w.types.size < Token.lastRow then
    set { w with
      types := w.types.push e
      declared := w.declared.push #[]
      types_fit := by rw [Array.size_push]; exact h
      owners_known := fun m hm => by
        obtain ⟨i, hi⟩ := Option.isSome_iff_exists.mp (w.owners_known m hm)
        exact Option.isSome_of_eq_some (Token.index?_mono (by simp) hi) }
    return .typeDef (.ofNat (← get).types.size)
  else throw .typeTableFull

/-- Register a method, then declare it on its owner. -/
def addMethod (e : MethodEntry) : Call Token := do
  if e.name.isEmpty then throw (.emptyMethodName e.owner)
  let w ← get
  if h : w.methods.size < Token.lastRow then
    match ho : e.owner.typeIndex? w.types.size with
    | some i =>
      set { w with
        methods := w.methods.push e
        methods_fit := by rw [Array.size_push]; exact h
        owners_known := fun m hm => by
          rcases Array.mem_push.mp hm with hm | rfl
          · exact w.owners_known m hm
          · exact Option.isSome_of_eq_some ho }
      let m := Token.methodDef (.ofNat (← get).methods.size)
      modify fun w => { w with declared := w.declared.modify i fun ms => ms.push m }
      return m
    | none => throw (.unknownType e.owner)
  else throw .methodTableFull

/-- The position of a registered type. -/
def position (t : Token) : Call Nat := do
  match t.typeIndex? (← get).types.size with
  | some i => return i
  | none => throw (.unknownType t)

/-- Nest one registered type in another. -/
def nest (inner outer : Token) : Call Token := do
  let _ ← position outer
  let i ← position inner
  modify fun w => { w with
    types := w.types.modify i fun e => { e with enclosing := some outer }
    types_fit := by simpa using w.types_fit
    owners_known := by simpa using w.owners_known }
  return inner

/-- Carry out a registration. -/
def perform : Draft.Registration → Call Token
  | .type e => addType e
  | .method e => addMethod e
  | .nest inner outer => nest inner outer

/-- Registrations that were tried, each with its answer. -/
abbrev Log := List (Draft.Registration × Except Fault Token)

/-- Try registrations one after the other. -/
def attempt : List Draft.Registration → Workbench → Log × Workbench
  | [], w => ([], w)
  | r :: rs, w =>
    let (answer, w) := (perform r).run w
    let (log, w) := attempt rs w
    ((r, answer) :: log, w)

/-! ### Sealing -/

/-- The types, each with the methods on its list. -/
def typeTable (w : Workbench) : TypeTable :=
  ⟨(w.typeRows.zipWith (fun (t, e) ms =>
    { toTypeEntry := e, token := t, methods := ms.toList }) w.declared.toList).toArray⟩

/-- The sealed program, if no reference dangles and no attribute hierarchy that
    matters is malformed. -/
def toProgram (w : Workbench) : Except Fault Program :=
  match w.dangling? with
  | some fault => .error fault
  | none =>
    let types := w.typeTable
    (w.recallMethods types w.methodRows ∅).map fun found =>
      { types, methods := found.1.toArray, overriders := .ofPairs (overrideEdges found.1) }

end Workbench

end TrimGuard
