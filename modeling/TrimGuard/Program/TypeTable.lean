/-
  TrimGuard/Program/TypeTable.lean
  ================================
  **The types of a program, addressed by token.**

  The table holds the types in the order of their tokens, so looking a token up
  is indexing.  A token of another table, of row zero or of a row past the end
  finds nothing.
-/
import TrimGuard.Program.Definition

namespace TrimGuard

/-- The types of a program; position `i` holds the type of row `i + 1`. -/
structure TypeTable where
  rows : Array TypeDef
deriving DecidableEq

namespace TypeTable

def size (types : TypeTable) : Nat := types.rows.size

/-- All types in the order of their tokens. -/
def toList (types : TypeTable) : List TypeDef := types.rows.toList

def find? (types : TypeTable) (t : Token) : Option TypeDef :=
  (t.typeIndex? types.size).bind fun i => types.rows[i]?

/-- The assemblies that own at least one type, each once, in the order in which
    the table first mentions them. -/
def assemblies (types : TypeTable) : List Assembly :=
  (types.toList.map fun t => t.assembly).eraseDups

theorem mem_toList_of_find? {types : TypeTable} {t : Token} {d : TypeDef}
    (h : types.find? t = some d) : d ∈ types.toList := by
  obtain ⟨i, -, hi⟩ := Option.bind_eq_some_iff.mp h
  exact Array.mem_toList_iff.mpr (Array.mem_of_getElem? hi)

end TypeTable

end TrimGuard
