/-
  TrimGuard/Retention.lean
  ========================
  **What is retained when a program is trimmed.**

  A retention store holds the decisions of the preservation pass for the trimming
  step that follows.  A type is retained at one of three levels: not at all, for
  the members retained explicitly, or as a whole.  A method is retained under the
  type that was named with it first.

  Writes only add.  The level of a type only rises, a retained method stays
  retained, and writing the same thing twice changes nothing the second time.
  Every write answers whether it changed anything, which is what the statistics
  and the log of the pass are made of.
-/
import Std.Data.ExtTreeSet
import TrimGuard.Token.Index

namespace TrimGuard

/-! ### Levels -/

/-- How much of a type is retained by force.  At `none` ordinary reachability decides, and
    at `members` it decides about the members that are not retained explicitly. -/
inductive Level where
  | none
  | members
  | all
deriving DecidableEq

namespace Level

def rank : Level → Nat
  | none => 0
  | members => 1
  | all => 2

instance : LE Level := ⟨fun a b => a.rank ≤ b.rank⟩
instance : LT Level := ⟨fun a b => a.rank < b.rank⟩
instance (a b : Level) : Decidable (a ≤ b) := inferInstanceAs (Decidable (a.rank ≤ b.rank))
instance (a b : Level) : Decidable (a < b) := inferInstanceAs (Decidable (a.rank < b.rank))
instance : Max Level := ⟨fun a b => if a ≤ b then b else a⟩

def text : Level → String
  | none => "None"
  | members => "Members"
  | all => "All"

end Level

/-! ### The store -/

/-- The types and methods retained so far.  A type at `none` has no entry among `levels`;
    `members` lists the methods kept under each type, in the order in which they came. -/
@[ext]
structure Retention where
  levels : Std.ExtTreeMap Token Level := ∅
  kept : Std.ExtTreeSet Token := ∅
  members : Token.Index := ∅

namespace Retention

/-- The store of a pass that has not decided anything. -/
def empty : Retention := {}

/-! ### Looking -/

def level (r : Retention) (t : Token) : Level := r.levels.getD t .none

def isKept (r : Retention) (m : Token) : Bool := r.kept.contains m

/-- The methods retained under a type, in the order of their retention. -/
def keptUnder (r : Retention) (t : Token) : List Token := r.members.under t

/-- The number of types at a level, among the types that have one. -/
def count (r : Retention) (level : Level) : Nat := r.levels.toList.countP fun e => e.2 = level

def keptCount (r : Retention) : Nat := r.kept.size

def isEmpty (r : Retention) : Bool := r.levels.isEmpty && r.kept.isEmpty

/-! ### Writing -/

/-- Raise a type to at least the given level.  Did its level change? -/
def raise (r : Retention) (t : Token) (level : Level) : Bool × Retention :=
  if r.level t < level then (true, { r with levels := r.levels.insert t level })
  else (false, r)

/-- Retain a method under a type, and raise the type for it.  Was the method not
    retained before?  If it was, under whichever type, nothing happens. -/
def keep (r : Retention) (owner method : Token) : Bool × Retention :=
  if r.isKept method then (false, r)
  else
    let noted : Retention :=
      { r with kept := r.kept.insert method, members := r.members.file owner method }
    (true, (noted.raise owner .members).2)

/-! What the two writes do to the three things that can be looked at. -/

@[simp] theorem level_empty (t : Token) : empty.level t = .none := by
  simp [level, empty]

@[simp] theorem isKept_empty (m : Token) : empty.isKept m = false := by
  simp [isKept, empty]

@[simp] theorem keptUnder_empty (t : Token) : empty.keptUnder t = [] :=
  Token.Index.under_empty t

/-- Raising a type takes it to the higher of two levels and leaves the other types
    alone. -/
theorem level_raise (r : Retention) (t : Token) (level : Level) (u : Token) :
    (r.raise t level).2.level u = if t = u then max (r.level u) level else r.level u := by
  unfold raise
  by_cases h : r.level t < level
  · rw [if_pos h]
    by_cases hu : t = u
    · subst hu
      have hle : r.level t ≤ level := Nat.le_of_lt h
      simp [Retention.level, max, show r.levels.getD t .none ≤ level from hle]
    · simp [Retention.level, Std.ExtTreeMap.getD_insert, hu]
  · rw [if_neg h]
    by_cases hu : t = u
    · subst hu
      rw [if_pos rfl]
      show r.level t = if r.level t ≤ level then level else r.level t
      by_cases hle : r.level t ≤ level
      · have hrank : (r.level t).rank = level.rank := Nat.le_antisymm hle (Nat.le_of_not_lt h)
        rw [if_pos hle]
        revert hrank
        cases r.level t <;> cases level <;> decide
      · rw [if_neg hle]
    · rw [if_neg hu]

@[simp] theorem isKept_raise (r : Retention) (t : Token) (level : Level) (m : Token) :
    (r.raise t level).2.isKept m = r.isKept m := by
  unfold raise
  split <;> rfl

@[simp] theorem keptUnder_raise (r : Retention) (t : Token) (level : Level) (u : Token) :
    (r.raise t level).2.keptUnder u = r.keptUnder u := by
  unfold raise
  split <;> rfl

/-- Retaining a method for the first time raises its type to `members`. -/
theorem level_keep (r : Retention) (owner method t : Token) :
    (r.keep owner method).2.level t =
      if r.isKept method = false ∧ owner = t then max (r.level t) .members else r.level t := by
  unfold keep
  cases h : r.isKept method with
  | true => simp
  | false =>
    simp only [Bool.false_eq_true, if_false, level_raise, true_and]
    rfl

/-- A method is retained if it was before or is the one just retained. -/
theorem isKept_keep (r : Retention) (owner method m : Token) :
    (r.keep owner method).2.isKept m = (m = method || r.isKept m) := by
  unfold keep
  cases h : r.isKept method with
  | true =>
    by_cases hm : m = method
    · subst hm; simp [h]
    · simp [hm]
  | false =>
    simp only [Bool.false_eq_true, if_false, isKept_raise]
    by_cases hm : m = method
    · subst hm; simp [isKept]
    · simp [isKept, hm, Ne.symm hm]

/-- Retaining a method for the first time appends it to the list of its type. -/
theorem keptUnder_keep (r : Retention) (owner method t : Token) :
    (r.keep owner method).2.keptUnder t =
      if r.isKept method = false ∧ owner = t then r.keptUnder t ++ [method]
      else r.keptUnder t := by
  unfold keep
  cases h : r.isKept method with
  | true => simp
  | false =>
    simp only [Bool.false_eq_true, if_false, keptUnder_raise, true_and]
    exact Token.Index.under_file r.members owner method t

inductive Write where
  | raise (t : Token) (level : Level)
  | keep (owner method : Token)
deriving DecidableEq

/-- Carry out a write.  Did it change anything? -/
def write (r : Retention) : Write → Bool × Retention
  | .raise t level => r.raise t level
  | .keep owner method => r.keep owner method

def writeAll (r : Retention) (ws : List Write) : Retention :=
  ws.foldl (fun r w => (r.write w).2) r

/-! ### The state at a point in time -/

/-- All decisions, in the order of the tokens.  Types at `none` are left out. -/
structure Snapshot where
  types : List (Token × Level)
  methods : List Token
deriving DecidableEq

def snapshot (r : Retention) : Snapshot where
  types := r.levels.toList.filter fun e => e.2 ≠ .none
  methods := r.kept.toList

end Retention

end TrimGuard
