/-
  TrimGuard/Proofs/SameWrites.lean
  ================================
  **What is written matters, not how often or in which order.**

  Two histories that are made of the same writes lead to stores that differ in
  nothing but the order of the lists.  The writes may come in any order and each of
  them any number of times; all that is asked is that they name every method with
  one type, as the definitions of a program do.  What the store held before is of no
  account: a method that it has already is passed over by both histories, whichever
  type it is listed under.

  What a history adds to a store is told by three things, and each depends on the
  set of the writes alone: the highest level that a type is raised to
  (`raisedBy_congr`), the methods named with a type (`perm_keptUnder_writeAll`), and
  whether one of these is new (`raisedIn_congr`).
-/
import TrimGuard.Proofs.FirstOccurrences
import TrimGuard.Proofs.WriteHistory

namespace TrimGuard

namespace Retention

/-! ### The highest raise -/

/-- The highest raise is at most a level if all raises are. -/
theorem raisedBy_le_iff (t : Token) (ws : List Write) (level : Level) :
    raisedBy t ws ≤ level ↔ ∀ w ∈ ws, w.raisedFor t ≤ level := by
  induction ws using List.reverseRecOn with
  | nil => exact iff_of_true (Nat.zero_le _) (by simp)
  | append_singleton ws w ih =>
    have hmax : ∀ a b : Level, max a b ≤ level ↔ a ≤ level ∧ b ≤ level := by
      intro a b
      cases a <;> cases b <;> cases level <;> decide
    rw [raisedBy_concat, hmax, ih]
    simp only [List.mem_append, List.mem_singleton, or_imp, forall_and, forall_eq]

theorem raisedBy_le_of_subset (t : Token) {ws ws' : List Write} (h : ws ⊆ ws') :
    raisedBy t ws ≤ raisedBy t ws' := by
  have hself : raisedBy t ws' ≤ raisedBy t ws' := Nat.le_refl _
  rw [raisedBy_le_iff] at hself ⊢
  intro w hw
  exact hself w (h hw)

section SameWrites

variable {ws ws' : List Write} (hsame : ∀ w, w ∈ ws ↔ w ∈ ws')
include hsame

theorem raisedBy_congr (t : Token) : raisedBy t ws = raisedBy t ws' :=
  Level.le_antisymm (raisedBy_le_of_subset t fun w => (hsame w).mp)
    (raisedBy_le_of_subset t fun w => (hsame w).mpr)

/-! ### Methods and lists -/

theorem kept_writeAll_congr (r : Retention) : (r.writeAll ws).kept = (r.writeAll ws').kept := by
  apply Std.ExtTreeSet.ext_mem
  intro m
  have hkept : ∀ s : Retention, m ∈ s.kept ↔ s.isKept m = true := fun _ => Iff.rfl
  rw [hkept, hkept, isKept_writeAll, isKept_writeAll]
  simp only [hsame]

variable (hown : SingleOwner ws)
include hown

/-- **The lists hold the same methods.** -/
theorem perm_keptUnder_writeAll (r : Retention) (t : Token) :
    ((r.writeAll ws).keptUnder t).Perm ((r.writeAll ws').keptUnder t) := by
  have hown' : SingleOwner ws' := hown.of_subset fun w => (hsame w).mpr
  rw [keptUnder_writeAll r hown, keptUnder_writeAll r hown']
  refine (List.perm_append_left_iff _).mpr (perm_eraseDups ?_)
  intro m
  rw [List.mem_filter, List.mem_filter, mem_filterMap_keptFor_iff, mem_filterMap_keptFor_iff, hsame]

/-! ### Levels -/

theorem raisedIn_congr (r : Retention) (t : Token) : r.raisedIn ws t = r.raisedIn ws' t := by
  have hlength := (perm_keptUnder_writeAll hsame hown r t).length_eq
  -- a list that begins with the old one is the old one if it is no longer
  have hgrown : ∀ vs : List Write, (r.writeAll vs).keptUnder t = r.keptUnder t ↔
      ((r.writeAll vs).keptUnder t).length = (r.keptUnder t).length := by
    intro vs
    constructor
    · intro heq
      rw [heq]
    · intro heq
      exact ((r.keptUnder_prefix vs t).eq_of_length heq.symm).symm
  simp only [raisedIn, raisedBy_congr hsame t, hgrown, hlength]

theorem levels_writeAll_congr (r : Retention) :
    (r.writeAll ws).levels = (r.writeAll ws').levels := by
  apply Std.ExtTreeMap.ext_getElem?
  intro t
  rw [levels_writeAll, levels_writeAll, raisedIn_congr hsame hown]

/-- **Histories of the same writes lead to the same store**, up to the order of the
    lists, from whatever store they start. -/
theorem store_of_same_writes (r : Retention) :
    (r.writeAll ws).snapshot = (r.writeAll ws').snapshot ∧
      (∀ level, (r.writeAll ws).count level = (r.writeAll ws').count level) ∧
      (r.writeAll ws).keptCount = (r.writeAll ws').keptCount ∧
      (∀ m, (r.writeAll ws).isKept m = (r.writeAll ws').isKept m) ∧
      (∀ t, (r.writeAll ws).level t = (r.writeAll ws').level t) ∧
      ∀ t, ((r.writeAll ws).keptUnder t).Perm ((r.writeAll ws').keptUnder t) := by
  have hlevels := levels_writeAll_congr hsame hown r
  have hkept := kept_writeAll_congr hsame r
  refine ⟨?_, ?_, ?_, ?_, ?_, perm_keptUnder_writeAll hsame hown r⟩
  · simp only [snapshot, hlevels, hkept]
  · intro level
    simp only [count, hlevels]
  · simp only [keptCount, hkept]
  · intro m
    simp only [isKept, hkept]
  · intro t
    simp only [level, hlevels]

end SameWrites

/-! Two histories of the same writes, the second one shuffled and with repetitions, on
a store that has one of their methods already. -/

def plainWrites : List Write :=
  [.raise (.ofTypeIndex 0) .all, .keep (.ofTypeIndex 0) (.ofMethodIndex 1),
   .keep (.ofTypeIndex 1) (.ofMethodIndex 2), .keep (.ofTypeIndex 0) (.ofMethodIndex 0),
   .keep (.ofTypeIndex 0) (.ofMethodIndex 3)]

def shuffledWrites : List Write :=
  [.keep (.ofTypeIndex 0) (.ofMethodIndex 3), .keep (.ofTypeIndex 1) (.ofMethodIndex 2),
   .keep (.ofTypeIndex 0) (.ofMethodIndex 1), .keep (.ofTypeIndex 1) (.ofMethodIndex 2),
   .raise (.ofTypeIndex 0) .all, .keep (.ofTypeIndex 0) (.ofMethodIndex 1),
   .keep (.ofTypeIndex 0) (.ofMethodIndex 0)]

theorem store_of_same_writes_shuffled :
    let r := empty.writeAll [.keep (.ofTypeIndex 0) (.ofMethodIndex 0)]
    (∀ w, w ∈ plainWrites ↔ w ∈ shuffledWrites) ∧ SingleOwner plainWrites ∧
      (r.writeAll plainWrites).snapshot = (r.writeAll shuffledWrites).snapshot ∧
      ((r.writeAll plainWrites).keptUnder (.ofTypeIndex 0)).Perm
        ((r.writeAll shuffledWrites).keptUnder (.ofTypeIndex 0)) ∧
      (r.writeAll plainWrites).keptUnder (.ofTypeIndex 0) ≠
        (r.writeAll shuffledWrites).keptUnder (.ofTypeIndex 0) := by
  intro r
  have hsub : ∀ w ∈ plainWrites, w ∈ shuffledWrites := by decide +kernel
  have hsub' : ∀ w ∈ shuffledWrites, w ∈ plainWrites := by decide +kernel
  have hsame : ∀ w, w ∈ plainWrites ↔ w ∈ shuffledWrites := fun w => ⟨hsub w, hsub' w⟩
  have hown : SingleOwner plainWrites := by
    intro owner owner' m h h'
    simp only [plainWrites, List.mem_cons, List.not_mem_nil, Write.keep.injEq, reduceCtorEq,
      false_or, or_false] at h h'
    rcases h with ⟨rfl, rfl⟩ | ⟨rfl, rfl⟩ | ⟨rfl, rfl⟩ | ⟨rfl, rfl⟩ <;>
      rcases h' with ⟨rfl, hm⟩ | ⟨rfl, hm⟩ | ⟨rfl, hm⟩ | ⟨rfl, hm⟩ <;>
      first | rfl | exact absurd hm (by decide +kernel)
  obtain ⟨hsnapshot, -, -, -, -, hperm⟩ := store_of_same_writes hsame hown r
  have hdiffer : (r.writeAll plainWrites).keptUnder (.ofTypeIndex 0) ≠
      (r.writeAll shuffledWrites).keptUnder (.ofTypeIndex 0) := by decide +kernel
  exact ⟨hsame, hown, hsnapshot, hperm _, hdiffer⟩

end Retention

end TrimGuard
