/-
  TrimGuard/Draft/Recall.lean
  ===========================
  **Sealing that looks at each attribute type once.**

  Many methods carry the same few attributes, and whether an attribute type marks an
  export takes a walk along its base types.  So what was found out about a type is kept
  for the rest of the sealing, under the token of the type.  Walks that were given up
  are not kept, since sealing ends with the first of them.
-/
import TrimGuard.Draft.Seal

namespace TrimGuard

/-- What was found out about attribute types: does the type mark an export? -/
abbrev Markers := Std.ExtTreeMap Token Bool

namespace TypeTable

/-- Is the type of this token the export attribute, or derived from it?  The table is
    looked at if this is not known yet. -/
def recallExport (types : TypeTable) (exportName : QualifiedName) (marker : Token)
    (known : Markers) : Except Fault (Bool × Markers) :=
  match known[marker]? with
  | some exported => .ok (exported, known)
  | none =>
    (types.isExport exportName marker).map fun exported =>
      (exported, known.insert marker exported)

/-- Is one of the attributes an export attribute?  The search stops at the first
    one, and at the first fault. -/
def recallAnyExport (types : TypeTable) (exportName : QualifiedName) :
    List Token → Markers → Except Fault (Bool × Markers)
  | [], known => .ok (false, known)
  | marker :: rest, known =>
    match types.recallExport exportName marker known with
    | .error fault => .error fault
    | .ok (true, known) => .ok (true, known)
    | .ok (false, known) => types.recallAnyExport exportName rest known

end TypeTable

namespace Draft

/-- Seal the methods of the given rows, one after the other. -/
def recallMethods (d : Draft) (types : TypeTable) :
    List (Token × MethodEntry) → Markers → Except Fault (List MethodDef × Markers)
  | [], known => .ok ([], known)
  | (m, e) :: rest, known =>
    match types.recallAnyExport d.exportName e.attributes known with
    | .error fault => .error fault
    | .ok (exported, known) =>
      (d.recallMethods types rest known).map fun (ms, known) =>
        ({ toMethodEntry := e, token := m, exported } :: ms, known)

/-- The sealed program, with each attribute type looked at once. -/
def toProgramRecalling (d : Draft) : Except Fault Program :=
  match d.dangling? with
  | some fault => .error fault
  | none =>
    let types := d.typeTable
    (d.recallMethods types d.methodRows ∅).map fun found => { types, methods := found.1.toArray }

end Draft

end TrimGuard
