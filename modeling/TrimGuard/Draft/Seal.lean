/-
  TrimGuard/Draft/Seal.lean
  =========================
  **From a draft to a program.**

  Sealing checks every reference of the draft, files the methods under their
  owners, and settles which methods are exported.  The references are checked in
  the order of registration, types before methods, and the first dangling one is
  the fault that is reported.

  A method is exported if one of its attributes is of the export attribute type or
  of a type derived from it.  The attributes are looked at in order and the first
  hit settles the matter, so a malformed attribute hierarchy is a fault only where
  no export attribute stands in front of it.
-/
import TrimGuard.Draft
import TrimGuard.Program

namespace TrimGuard

/-! ### Export attributes -/

namespace TypeTable

/-- The largest number of base types that an attribute type may have. -/
def attributeDepth : Nat := 64

/-- Is the type of this token the export attribute, or derived from it? -/
def isExport (types : TypeTable) (exportName : QualifiedName) (marker : Token) :
    Except Fault Bool :=
  match types.find? marker with
  | none => .ok false
  | some t => (types.lineage attributeDepth t).map fun line => line.any fun d => d.name = exportName

/-- Is one of the attributes an export attribute?  The search stops at the first
    one, and at the first fault. -/
def anyExport (types : TypeTable) (exportName : QualifiedName) : List Token → Except Fault Bool
  | [] => .ok false
  | marker :: rest =>
    match types.isExport exportName marker with
    | .error fault => .error fault
    | .ok true => .ok true
    | .ok false => types.anyExport exportName rest

end TypeTable

namespace Draft

/-! ### References -/

/-- The first reference of a type that is dangling, as a fault. -/
def danglingInType? (d : Draft) (t : Token) (e : TypeEntry) : Option Fault :=
  (e.references.find? fun r => !d.hasType r).map (.danglingType t e.name)

/-- The first reference of a method that is dangling, as a fault: to a type, or
    else to a method. -/
def danglingInMethod? (d : Draft) (m : Token) (e : MethodEntry) : Option Fault :=
  ((e.references.find? fun r => !d.hasType r).map (.danglingMethodType m e.name)).or
    ((e.overrides.find? fun r => !d.hasMethod r).map (.danglingOverride m e.name))

/-- The first dangling reference of the draft, as a fault. -/
def dangling? (d : Draft) : Option Fault :=
  (d.typeRows.findSome? fun (t, e) => d.danglingInType? t e).or
    (d.methodRows.findSome? fun (m, e) => d.danglingInMethod? m e)

/-! ### Sealing -/

/-- The methods registered on each type, in order. -/
def methodIndex (d : Draft) : Token.Index :=
  .ofPairs (d.methodRows.map fun (m, e) => (e.owner, m))

def typeTable (d : Draft) : TypeTable :=
  let methods := d.methodIndex
  ⟨(d.typeRows.map fun (t, e) =>
    { toTypeEntry := e, token := t, methods := methods.under t }).toArray⟩

def sealMethod (d : Draft) (types : TypeTable) (m : Token) (e : MethodEntry) :
    Except Fault MethodDef :=
  (types.anyExport d.exportName e.attributes).map fun exported =>
    { toMethodEntry := e, token := m, exported }

def sealMethods (d : Draft) (types : TypeTable) : Except Fault (List MethodDef) :=
  d.methodRows.mapM fun (m, e) => d.sealMethod types m e

/-- The sealed program, if no reference dangles and no attribute hierarchy that
    matters is malformed. -/
def toProgram (d : Draft) : Except Fault Program :=
  match d.dangling? with
  | some fault => .error fault
  | none =>
    let types := d.typeTable
    (d.sealMethods types).map fun methods => { types, methods := methods.toArray }

end Draft

end TrimGuard
