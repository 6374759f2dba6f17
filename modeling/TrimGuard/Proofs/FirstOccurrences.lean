/-
  TrimGuard/Proofs/FirstOccurrences.lean
  ======================================
  **The first occurrences in a list.**

  Several orders of this library are orders of first mention: the methods of a type
  in the order of their retention, the assemblies of a program in the order in which
  its types mention them.  `List.eraseDups` keeps the first occurrence of each
  element, and grows at its end as the list does (`eraseDups_concat_of_notMem`).  It is
  determined by the elements of the list and by where each of them stands first
  (`pairwise_idxOf_eraseDups`).
-/
import Mathlib.Data.List.Induction
import Mathlib.Data.List.Perm.Basic

namespace TrimGuard

section FirstOccurrences

variable {α : Type} [BEq α] [LawfulBEq α]

theorem eraseDups_concat_of_mem {as : List α} {a : α} (h : a ∈ as) :
    (as ++ [a]).eraseDups = as.eraseDups := by
  simp [List.eraseDups_append, List.removeAll, h]

/-- An element that is new to the list is new to the first occurrences. -/
theorem eraseDups_concat_of_notMem {as : List α} {a : α} (h : a ∉ as) :
    (as ++ [a]).eraseDups = as.eraseDups ++ [a] := by
  simp [List.eraseDups_append, List.removeAll, h, List.eraseDups_cons]

/-- It does not matter whether repetitions or unwanted elements go first. -/
theorem eraseDups_filter (keep : α → Bool) (as : List α) :
    (as.filter keep).eraseDups = as.eraseDups.filter keep := by
  induction as using List.reverseRecOn with
  | nil => rfl
  | append_singleton as a ih =>
    rw [List.filter_append]
    by_cases hmem : a ∈ as
    · rw [eraseDups_concat_of_mem hmem, ← ih]
      by_cases hkeep : keep a = true
      · rw [List.filter_cons_of_pos hkeep]
        exact eraseDups_concat_of_mem (List.mem_filter.mpr ⟨hmem, hkeep⟩)
      · rw [List.filter_cons_of_neg hkeep, List.filter_nil, List.append_nil]
    · rw [eraseDups_concat_of_notMem hmem, List.filter_append, ← ih]
      by_cases hkeep : keep a = true
      · rw [List.filter_cons_of_pos hkeep]
        exact eraseDups_concat_of_notMem fun hin => hmem (List.mem_of_mem_filter hin)
      · rw [List.filter_cons_of_neg hkeep, List.filter_nil, List.append_nil, List.append_nil]

/-- **What is mentioned first comes first.** -/
theorem pairwise_idxOf_eraseDups (as : List α) :
    as.eraseDups.Pairwise fun a b => as.idxOf a < as.idxOf b := by
  induction as using List.reverseRecOn with
  | nil => exact List.Pairwise.nil
  | append_singleton as a ih =>
    have hold : as.eraseDups.Pairwise fun b c => (as ++ [a]).idxOf b < (as ++ [a]).idxOf c := by
      refine ih.imp_of_mem ?_
      intro b c hb hc hlt
      rw [List.idxOf_append_of_mem (List.mem_eraseDups.mp hb),
        List.idxOf_append_of_mem (List.mem_eraseDups.mp hc)]
      exact hlt
    by_cases hmem : a ∈ as
    · rw [eraseDups_concat_of_mem hmem]
      exact hold
    · rw [eraseDups_concat_of_notMem hmem]
      refine List.pairwise_append.mpr ⟨hold, List.pairwise_singleton _ _, ?_⟩
      intro b hb c hc
      -- the new element stands behind everything that was there
      rw [List.mem_singleton.mp hc, List.idxOf_append_of_mem (List.mem_eraseDups.mp hb),
        List.idxOf_append_of_notMem hmem]
      exact Nat.lt_add_right _ (List.idxOf_lt_length_of_mem (List.mem_eraseDups.mp hb))

theorem nodup_eraseDups (as : List α) : as.eraseDups.Nodup := by
  refine (pairwise_idxOf_eraseDups as).imp ?_
  rintro a _ hlt rfl
  exact Nat.lt_irrefl _ hlt

/-- A list without repetitions is the list of its first occurrences. -/
theorem eraseDups_of_nodup {as : List α} (h : as.Nodup) : as.eraseDups = as := by
  induction as with
  | nil => rfl
  | cons a as ih =>
    obtain ⟨hnotin, hnodup⟩ := List.nodup_cons.mp h
    have hkeep : as.filter (fun b => !b == a) = as := by
      apply List.filter_eq_self.mpr
      intro b hb
      have hne : b ≠ a := fun heq => hnotin (heq ▸ hb)
      simp [hne]
    rw [List.eraseDups_cons, hkeep, ih hnodup]

/-- Lists with the same elements have the same first occurrences, up to order. -/
theorem perm_eraseDups {as bs : List α} (h : ∀ a, a ∈ as ↔ a ∈ bs) :
    as.eraseDups.Perm bs.eraseDups := by
  refine (List.perm_ext_iff_of_nodup (nodup_eraseDups as) (nodup_eraseDups bs)).mpr ?_
  intro a
  rw [List.mem_eraseDups, List.mem_eraseDups, h]

end FirstOccurrences

end TrimGuard
