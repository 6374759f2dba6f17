/-
  TrimGuard/Token.lean
  ====================
  **Metadata tokens.**

  Every type and method of a program is named by a token: a 32-bit word whose
  high byte selects a metadata table and whose low 24 bits hold a row of it,
  counted from one.  Only two tables are used here, that of type definitions and
  that of method definitions.  Rows are handed out in the order of registration
  across all assemblies of a program, so a token is unique in the whole program
  and the order of tokens in a table is the order of registration.
-/
import Std.Data.ExtTreeMap
import TrimGuard.Text.Numeral

namespace TrimGuard

open TrimGuard.Text

/-- A 32-bit word that names a row of a metadata table. -/
structure Token where
  raw : UInt32
deriving DecidableEq

namespace Token

/-! ### Order

Tokens are ordered by their word.  The order is what sorted views of the program
are sorted by, and it makes tokens keys of canonical finite maps. -/

instance : Ord Token := ⟨compareOn Token.raw⟩

instance : Std.TransOrd Token := inferInstanceAs (Std.TransCmp (compareOn Token.raw))

instance : Std.LawfulEqOrd Token where
  compare_self {t} := (Std.ReflOrd.compare_self : compare t.raw t.raw = .eq)
  eq_of_compare {t u} h := by
    have hraw : compare t.raw u.raw = .eq := h
    cases t; cases u
    exact congrArg Token.mk (Std.LawfulEqOrd.eq_of_compare hraw)

/-! ### Tables and rows -/

def typeTable : UInt8 := 0x02

def methodTable : UInt8 := 0x06

/-- The largest row that fits into 24 bits. -/
def lastRow : Nat := 0x00FFFFFF

/-- The token of a row of a table.  Only the low 24 bits of the row count. -/
def ofRow (table : UInt8) (row : UInt32) : Token :=
  ⟨(table.toUInt32 <<< 24) ||| (row &&& 0x00FFFFFF)⟩

def typeDef (row : UInt32) : Token := ofRow typeTable row

def methodDef (row : UInt32) : Token := ofRow methodTable row

def table (t : Token) : UInt8 := (t.raw >>> 24).toUInt8

def row (t : Token) : UInt32 := t.raw &&& 0x00FFFFFF

def isNull (t : Token) : Bool := t.raw == 0

/-- Does the token name a row of the given table?  Row zero is no row. -/
def isIn (table : UInt8) (t : Token) : Bool := t.table == table && t.row != 0

def isTypeDef (t : Token) : Bool := t.isIn typeTable

def isMethodDef (t : Token) : Bool := t.isIn methodTable

private theorem getElem_rowMask (i : Nat) (hi : i < 32) :
    (0x00FFFFFF#32)[i] = decide (i < 24) := by
  revert i; decide

/-- The row of a token is the low 24 bits it was made from. -/
theorem row_ofRow (table : UInt8) (row : UInt32) :
    (ofRow table row).row = row &&& 0x00FFFFFF := by
  apply UInt32.toBitVec_inj.mp
  apply BitVec.eq_of_getLsbD_eq
  intro i hi
  by_cases h : i < 24 <;> simp [ofRow, Token.row, getElem_rowMask, hi, h]

theorem table_ofRow (table : UInt8) (row : UInt32) : (ofRow table row).table = table := by
  apply UInt8.toBitVec_inj.mp
  apply BitVec.eq_of_getLsbD_eq
  intro i hi
  have h : i < 32 := by omega
  have hshift : 24 + i < 32 := by omega
  have hrow : ¬ 24 + i < 24 := by omega
  simp [ofRow, Token.table, getElem_rowMask, hi, h, hshift, hrow]

/-- A word is made up of its table and its row. -/
theorem ofRow_table_row (t : Token) : ofRow t.table t.row = t := by
  cases t with
  | mk raw =>
    apply congrArg Token.mk
    apply UInt32.toBitVec_inj.mp
    apply BitVec.eq_of_getLsbD_eq
    intro i hi
    by_cases h : i < 24
    · simp [Token.row, Token.table, getElem_rowMask, hi, h]
    · have htop : i - 24 < 8 := by omega
      have hback : 24 + (i - 24) = i := by omega
      simp [-UInt32.toUInt32_toUInt8, Token.row, Token.table, getElem_rowMask, hi, h, htop, hback]

/-! ### Positions

A table is stored as a sequence whose position `i` holds row `i + 1`.  The
functions below go from a position to its token and back; a token that names no
row of the table has no position. -/

/-- The position that a token names in a table of `size` rows. -/
def index? (table : UInt8) (size : Nat) (t : Token) : Option Nat :=
  if t.isIn table && t.row.toNat ≤ size then some (t.row.toNat - 1) else none

def typeIndex? (size : Nat) (t : Token) : Option Nat := t.index? typeTable size

def methodIndex? (size : Nat) (t : Token) : Option Nat := t.index? methodTable size

def ofTypeIndex (i : Nat) : Token := typeDef (UInt32.ofNat (i + 1))

def ofMethodIndex (i : Nat) : Token := methodDef (UInt32.ofNat (i + 1))

theorem lt_of_index? {table : UInt8} {size i : Nat} {t : Token}
    (h : t.index? table size = some i) : i < size := by
  unfold index? at h
  split at h
  next hc =>
    simp only [isIn, Bool.and_eq_true, bne_iff_ne, decide_eq_true_eq] at hc
    have hpos : t.row.toNat ≠ 0 := fun h0 => hc.1.2 (UInt32.toNat.inj h0)
    simp only [Option.some.injEq] at h
    omega
  next => simp at h

private theorem toNat_rowBits {i : Nat} (h : i < lastRow) :
    (UInt32.ofNat (i + 1) &&& 0x00FFFFFF).toNat = i + 1 := by
  simp only [lastRow] at h
  rw [UInt32.toNat_and, UInt32.toNat_ofNat_of_lt' (by simp [UInt32.size]; omega)]
  exact (Nat.and_two_pow_sub_one_eq_mod (i + 1) 24).trans (Nat.mod_eq_of_lt (by omega))

/-- The table makes up the high byte of the word and the row the rest, so tokens of one
    table are in the order of their positions. -/
theorem toNat_raw_ofRow (table : UInt8) {i : Nat} (h : i < lastRow) :
    (ofRow table (UInt32.ofNat (i + 1))).raw.toNat = 0x1000000 * table.toNat + (i + 1) := by
  have htable : (table.toUInt32 <<< 24).toNat = 2 ^ 24 * table.toNat := by
    have hbyte := table.toNat_lt
    rw [UInt32.toNat_shiftLeft, UInt8.toNat_toUInt32]
    simp only [UInt32.reduceToNat, Nat.reduceMod, Nat.shiftLeft_eq]
    omega
  have hrow : i + 1 < 2 ^ 24 := by
    simp only [lastRow] at h
    omega
  rw [ofRow, UInt32.toNat_or, htable, toNat_rowBits h]
  exact (Nat.two_pow_add_eq_or_of_lt hrow table.toNat).symm

/-- As long as rows fit into 24 bits, the token of a position leads back to it. -/
theorem index?_ofRow {table : UInt8} {size i : Nat} (h : i < lastRow) :
    (ofRow table (UInt32.ofNat (i + 1))).index? table size =
      if i < size then some i else none := by
  have htable := table_ofRow table (UInt32.ofNat (i + 1))
  have hrow : (ofRow table (UInt32.ofNat (i + 1))).row.toNat = i + 1 := by
    rw [row_ofRow, toNat_rowBits h]
  revert htable hrow
  generalize ofRow table (UInt32.ofNat (i + 1)) = t
  intro htable hrow
  have hne : t.row ≠ 0 := by
    intro h0
    simp [h0] at hrow
  simp only [index?, isIn, htable, hrow, beq_self_eq_true, bne_iff_ne.mpr hne, Bool.true_and,
    Nat.add_one_le_iff, decide_eq_true_eq, Nat.add_sub_cancel]

/-- A position leads back to the token that names it. -/
theorem ofRow_of_index? {table : UInt8} {size i : Nat} {t : Token}
    (h : t.index? table size = some i) : ofRow table (UInt32.ofNat (i + 1)) = t := by
  unfold index? at h
  split at h
  next hc =>
    simp only [isIn, Bool.and_eq_true, beq_iff_eq, bne_iff_ne, decide_eq_true_eq] at hc
    obtain ⟨⟨htable, hne⟩, -⟩ := hc
    have hpos : t.row.toNat ≠ 0 := fun h0 => hne (UInt32.toNat.inj h0)
    have hrow : t.row.toNat = i + 1 := by
      simp only [Option.some.injEq] at h
      omega
    rw [← hrow, UInt32.ofNat_toNat, ← htable]
    exact ofRow_table_row t
  next => simp at h

/-- Different positions have different tokens. -/
theorem ofRow_inj {table : UInt8} {i j : Nat} (hi : i < lastRow) (hj : j < lastRow) :
    ofRow table (UInt32.ofNat (i + 1)) = ofRow table (UInt32.ofNat (j + 1)) ↔ i = j := by
  constructor
  · intro h
    -- the two tokens lead back to the two positions
    have hpos := congrArg (index? table lastRow) h
    rw [index?_ofRow hi, if_pos hi, index?_ofRow hj, if_pos hj] at hpos
    exact Option.some.inj hpos
  · rintro rfl
    rfl

/-- The token of a position is the one that has this position. -/
theorem ofRow_eq_iff {table : UInt8} {size i j : Nat} {t : Token} (hfit : size ≤ lastRow)
    (hi : t.index? table size = some i) (hj : j < size) :
    ofRow table (UInt32.ofNat (j + 1)) = t ↔ j = i := by
  rw [← ofRow_of_index? hi]
  exact ofRow_inj (Nat.lt_of_lt_of_le hj hfit) (Nat.lt_of_lt_of_le (lt_of_index? hi) hfit)

/-- The tokens that have a position are the tokens of the positions. -/
theorem isSome_index?_iff {table : UInt8} {size : Nat} {t : Token} (hfit : size ≤ lastRow) :
    (t.index? table size).isSome = true ↔
      ∃ i < size, t = ofRow table (UInt32.ofNat (i + 1)) := by
  rw [Option.isSome_iff_exists]
  constructor
  · rintro ⟨i, hi⟩
    exact ⟨i, lt_of_index? hi, (ofRow_of_index? hi).symm⟩
  · rintro ⟨i, hi, rfl⟩
    exact ⟨i, by rw [index?_ofRow (Nat.lt_of_lt_of_le hi hfit), if_pos hi]⟩

/-- They are of the right table, and of a row that counts from one and fits. -/
theorem isSome_index?_iff_row {table : UInt8} {size : Nat} {t : Token} :
    (t.index? table size).isSome = true ↔
      t.table = table ∧ t.row ≠ 0 ∧ t.row.toNat ≤ size := by
  unfold index? isIn
  split <;> simp_all

/-- Rows are only ever added, so a token keeps its position as a table grows. -/
theorem index?_mono {table : UInt8} {size size' i : Nat} {t : Token} (hs : size ≤ size')
    (h : t.index? table size = some i) : t.index? table size' = some i := by
  unfold index? at h ⊢
  split at h
  next hc =>
    simp only [Bool.and_eq_true, decide_eq_true_eq] at hc
    rw [if_pos (by simp [hc.1, Nat.le_trans hc.2 hs])]
    exact h
  next => simp at h

/-! ### Text -/

/-- The word in hexadecimal, as in `0x0200001f`. -/
def text (t : Token) : String := hex 8 t.raw.toNat

/-- The word with its two parts spelled out, as in
    `Token(0x06000001, table: 0x06, row: 1)`. -/
def describe (t : Token) : String :=
  "Token(" ++ t.text ++ ", table: " ++ hex 2 t.table.toNat ++ ", row: " ++
    decimal t.row.toNat ++ ")"

end Token

end TrimGuard
