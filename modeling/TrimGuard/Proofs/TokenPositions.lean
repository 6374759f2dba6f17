/-
  TrimGuard/Proofs/TokenPositions.lean
  ====================================
  **Tokens and positions.**

  A definition is stored at a position of a table and named by a word, and the whole
  program goes from one to the other and back.  The high byte of the word is the table.
  Of the row, which counts from one, only 24 bits are kept: a row behind the last one
  would go by the name of another row, or by that of row zero, which is none.

  Up to the last row nothing of the kind happens.  Table and row make up the word like
  two digits of a number, so different definitions have different tokens, and tokens are
  in the order of tables and then of positions (`compare_ofRow_eq_lt_iff`).  This holds
  of every draft, hence also of the tables that calls on a workbench have changed in
  place, which are those of a draft (`Workbench.toDraft_attempt`).
-/
import TrimGuard.Draft

namespace TrimGuard

namespace Token

/-- Only the tokens of the positions lead to a position, and each leads to its own. -/
theorem index?_eq_some_iff {table : UInt8} {size i : Nat} {t : Token} (hfit : size ≤ lastRow) :
    t.index? table size = some i ↔ i < size ∧ t = ofRow table (UInt32.ofNat (i + 1)) := by
  constructor
  · intro h
    exact ⟨lt_of_index? h, (ofRow_of_index? h).symm⟩
  · rintro ⟨hi, rfl⟩
    rw [index?_ofRow (Nat.lt_of_lt_of_le hi hfit), if_pos hi]

/-- A token has a position in one table at most. -/
theorem index?_eq_none_of_ne {table other : UInt8} {size size' : Nat} {t : Token}
    (hne : table ≠ other) (h : (t.index? table size).isSome = true) :
    t.index? other size' = none := by
  rw [Option.eq_none_iff_forall_ne_some]
  intro i hi
  have htable := (isSome_index?_iff_row.mp h).1
  have hother := (isSome_index?_iff_row.mp (Option.isSome_of_eq_some hi)).1
  exact hne (htable.symm.trans hother)

/-! ### The order of tokens -/

theorem compare_eq_lt_iff {t u : Token} : compare t u = .lt ↔ t.raw.toNat < u.raw.toNat := by
  have hraw : compare t u = compare t.raw u.raw := rfl
  rw [hraw, Std.compare_eq_lt, UInt32.lt_iff_toNat_lt]

/-- **Tokens are in the order of their tables, and within a table in that of their
    positions.** -/
theorem compare_ofRow_eq_lt_iff {a b : UInt8} {i j : Nat} (hi : i < lastRow) (hj : j < lastRow) :
    compare (ofRow a (UInt32.ofNat (i + 1))) (ofRow b (UInt32.ofNat (j + 1))) = .lt ↔
      a < b ∨ a = b ∧ i < j := by
  rw [compare_eq_lt_iff, toNat_raw_ofRow a hi, toNat_raw_ofRow b hj, UInt8.lt_iff_toNat_lt,
    ← UInt8.toNat_inj]
  simp only [lastRow] at hi hj
  omega

/-! ### Rows -/

/-- The rows of a table count from one. -/
def IsRow (size row : Nat) : Prop := 1 ≤ row ∧ row ≤ size

variable {size size' j k : Nat}

theorem IsRow.exists_position (h : IsRow size j) : ∃ i < size, j = i + 1 := by
  obtain ⟨hpos, hle⟩ := h
  exact ⟨j - 1, by omega, (Nat.sub_add_cancel hpos).symm⟩

theorem isSome_index?_iff_isRow {table : UInt8} {t : Token} (hfit : size ≤ lastRow) :
    (t.index? table size).isSome = true ↔
      ∃ j, IsRow size j ∧ t = ofRow table (UInt32.ofNat j) := by
  rw [isSome_index?_iff hfit]
  constructor
  · rintro ⟨i, hi, rfl⟩
    exact ⟨i + 1, ⟨Nat.succ_pos i, hi⟩, rfl⟩
  · rintro ⟨j, hj, rfl⟩
    obtain ⟨i, hi, rfl⟩ := hj.exists_position
    exact ⟨i, hi, rfl⟩

theorem compare_ofRow_of_isRow {a b : UInt8} (hfit : size ≤ lastRow) (hfit' : size' ≤ lastRow)
    (hj : IsRow size j) (hk : IsRow size' k) :
    compare (ofRow a (UInt32.ofNat j)) (ofRow b (UInt32.ofNat k)) = .lt ↔
      a < b ∨ a = b ∧ j < k := by
  obtain ⟨i, hi, rfl⟩ := hj.exists_position
  obtain ⟨i', hi', rfl⟩ := hk.exists_position
  rw [compare_ofRow_eq_lt_iff (Nat.lt_of_lt_of_le hi hfit) (Nat.lt_of_lt_of_le hi' hfit'),
    Nat.add_lt_add_iff_right]

/-- The tokens of the rows of one table differ, and they have the order of the rows. -/
theorem ofRow_of_isRow {table : UInt8} (hfit : size ≤ lastRow) (hj : IsRow size j)
    (hk : IsRow size k) :
    (ofRow table (UInt32.ofNat j) = ofRow table (UInt32.ofNat k) ↔ j = k) ∧
      (compare (ofRow table (UInt32.ofNat j)) (ofRow table (UInt32.ofNat k)) = .lt ↔ j < k) := by
  constructor
  · obtain ⟨i, hi, rfl⟩ := hj.exists_position
    obtain ⟨i', hi', rfl⟩ := hk.exists_position
    rw [ofRow_inj (Nat.lt_of_lt_of_le hi hfit) (Nat.lt_of_lt_of_le hi' hfit),
      Nat.add_right_cancel_iff]
  · rw [compare_ofRow_of_isRow hfit hfit hj hk]
    simp

/-- With more rows than that, two of them would share a token. -/
example : typeDef (UInt32.ofNat (lastRow + 2)) = typeDef (UInt32.ofNat 1) := by decide

end Token

open Token

/-! ### The outcome -/

/-- **The tokens of a draft and the positions in its tables lead to each other.**  No token
    leads to a type and to a method.  Rows and tokens have the same order, and the types
    come before the methods. -/
theorem Draft.tokens_tell_positions (d : Draft) :
    (∀ (t : Token) (i : Nat), t.typeIndex? d.types.size = some i ↔
      i < d.types.size ∧ t = typeDef (UInt32.ofNat (i + 1))) ∧
    (∀ t : Token, d.hasMethod t = true ↔
      ∃ j, IsRow d.methods.size j ∧ t = methodDef (UInt32.ofNat j)) ∧
    (∀ t : Token, ¬ (d.hasType t = true ∧ d.hasMethod t = true)) ∧
    (∀ j k, IsRow d.types.size j → IsRow d.types.size k →
      (typeDef (UInt32.ofNat j) = typeDef (UInt32.ofNat k) ↔ j = k) ∧
      (compare (typeDef (UInt32.ofNat j)) (typeDef (UInt32.ofNat k)) = .lt ↔ j < k)) ∧
    (∀ j k, IsRow d.methods.size j → IsRow d.methods.size k →
      (methodDef (UInt32.ofNat j) = methodDef (UInt32.ofNat k) ↔ j = k) ∧
      (compare (methodDef (UInt32.ofNat j)) (methodDef (UInt32.ofNat k)) = .lt ↔ j < k)) ∧
    ∀ j k, IsRow d.types.size j → IsRow d.methods.size k →
      compare (typeDef (UInt32.ofNat j)) (methodDef (UInt32.ofNat k)) = .lt := by
  have htypes := d.types_fit
  have hmethods := d.methods_fit
  refine ⟨fun _ _ => index?_eq_some_iff htypes, fun _ => isSome_index?_iff_isRow hmethods,
    ?_, fun _ _ => ofRow_of_isRow htypes, fun _ _ => ofRow_of_isRow hmethods, ?_⟩
  · rintro t ⟨htype, hmethod⟩
    have hnone : t.methodIndex? d.methods.size = none :=
      index?_eq_none_of_ne (by decide : typeTable ≠ methodTable) htype
    rw [hasMethod, hnone] at hmethod
    cases hmethod
  · intro j k hj hk
    have hbefore : typeTable < methodTable := by decide
    exact (compare_ofRow_of_isRow htypes hmethods hj hk).mpr (.inl hbefore)

/-! Two types with two methods on the second one. -/

def pairDraft : Draft :=
  let app : Assembly := ⟨"App", .unknown, none⟩
  Draft.empty.registerAll [
    .type { assembly := app, name := ⟨"App", "Model"⟩ },
    .type { assembly := app, name := ⟨"App", "View"⟩ },
    .method { owner := .ofTypeIndex 1, name := "Draw" },
    .method { owner := .ofTypeIndex 1, name := "Tap" }]

/-- The last row of each table, the word in front of the first row, and the one behind the
last. -/
theorem Draft.tokens_tell_positions_pair :
    (⟨0x02000002⟩ : Token).typeIndex? pairDraft.types.size = some 1 ∧
      (⟨0x02000000⟩ : Token).typeIndex? pairDraft.types.size ≠ some 0 ∧
      pairDraft.hasMethod ⟨0x06000002⟩ = true ∧ pairDraft.hasMethod ⟨0x06000003⟩ ≠ true ∧
      compare (typeDef 1) (typeDef 2) = .lt ∧ methodDef 1 ≠ methodDef 2 ∧
      compare (typeDef 2) (methodDef 1) = .lt := by
  obtain ⟨hposition, hmethod, -, htypes, hmethods, hbefore⟩ := tokens_tell_positions pairDraft
  have hfirst : IsRow pairDraft.types.size 1 := ⟨by decide, by decide +kernel⟩
  have hlast : IsRow pairDraft.types.size 2 := ⟨by decide, by decide +kernel⟩
  have hfirst' : IsRow pairDraft.methods.size 1 := ⟨by decide, by decide +kernel⟩
  have hlast' : IsRow pairDraft.methods.size 2 := ⟨by decide, by decide +kernel⟩
  refine ⟨(hposition _ 1).mpr ⟨hlast.2, by decide⟩, ?_, (hmethod _).mpr ⟨2, hlast', by decide⟩, ?_,
    (htypes 1 2 hfirst hlast).2.mpr (by decide), ?_, hbefore 2 1 hlast hfirst'⟩
  · intro h
    exact absurd ((hposition _ 0).mp h).2 (by decide)
  · intro h
    obtain ⟨j, ⟨hpos, hle⟩, htoken⟩ := (hmethod _).mp h
    have hsize : pairDraft.methods.size = 2 := by decide +kernel
    obtain rfl | rfl : j = 1 ∨ j = 2 := by omega
    · exact absurd htoken (by decide)
    · exact absurd htoken (by decide)
  · intro h
    exact absurd ((hmethods 1 2 hfirst' hlast').1.mp h) (by decide)

end TrimGuard
