/-
  TrimGuard/Proofs/ChangeCount.lean
  =================================
  **What is counted is what changed.**

  Every write answers whether it changed the store, and a pass counts the answers.
  These counts are the difference between two numbers that can be read off the
  store: how many types are at `all`, and how many methods are retained.  A count
  therefore depends on the store before and after alone, not on which of several
  writes came first and got the credit.
-/
import TrimGuard.Pass
import TrimGuard.Proofs.WriteHistory

namespace TrimGuard

namespace Retention

/-! ### Types at a level -/

/-- The entries of the table that are at a level. -/
private abbrev atLevel (r : Retention) (level : Level) : Std.ExtTreeMap Token Level :=
  r.levels.filter fun _ l => l = level

private theorem count_eq_size (r : Retention) (level : Level) :
    r.count level = (r.atLevel level).size := by
  rw [count, List.countP_eq_length_filter, atLevel, ← Std.ExtTreeMap.length_toList,
    Std.ExtTreeMap.toList_filter]

private theorem atLevel_raise_all (r : Retention) (t : Token) :
    (r.raise t .all).2.atLevel .all = (r.atLevel .all).insert t .all := by
  apply Std.ExtTreeMap.ext_getElem?
  intro u
  simp only [atLevel, Std.ExtTreeMap.getElem?_filter', Std.ExtTreeMap.getElem?_insert,
    levels_raise]
  by_cases hu : t = u
  · subst hu
    rcases r.levels[t]? with _ | _ | _ | _ <;> simp [raiseEntry] <;> decide
  · simp [hu]

private theorem atLevel_raise_members (r : Retention) (t : Token) :
    (r.raise t .members).2.atLevel .all = r.atLevel .all := by
  apply Std.ExtTreeMap.ext_getElem?
  intro u
  simp only [atLevel, Std.ExtTreeMap.getElem?_filter', levels_raise]
  by_cases hu : t = u
  · subst hu
    rcases r.levels[t]? with _ | _ | _ | _ <;> simp [raiseEntry] <;> decide
  · simp [hu]

private theorem mem_atLevel_iff (r : Retention) (t : Token) :
    t ∈ r.atLevel .all ↔ (r.raise t .all).1 = false := by
  have hlevel : r.level t = (r.levels[t]?).getD .none := Std.ExtTreeMap.getD_eq_getD_getElem?
  have hchanged : (r.raise t .all).1 = decide (r.level t < .all) := by
    unfold raise
    by_cases h : r.level t < .all <;> simp only [h, if_true, if_false, decide_true, decide_false]
  rw [Std.ExtTreeMap.mem_iff_isSome_getElem?, Std.ExtTreeMap.getElem?_filter', hchanged, hlevel]
  rcases r.levels[t]? with _ | _ | _ | _ <;> decide

/-- Raising a type to `all` adds one to the types there, unless it was there. -/
theorem count_raise_all (r : Retention) (t : Token) :
    (r.raise t .all).2.count .all = r.count .all + if (r.raise t .all).1 then 1 else 0 := by
  rw [count_eq_size, count_eq_size, atLevel_raise_all, Std.ExtTreeMap.size_insert]
  cases hchanged : (r.raise t .all).1 with
  | true =>
    have hmem : t ∉ r.atLevel .all := by
      rw [mem_atLevel_iff, hchanged]
      decide
    simp [hmem]
  | false =>
    have hmem : t ∈ r.atLevel .all := (r.mem_atLevel_iff t).mpr hchanged
    simp [hmem]

/-- Retaining a method leaves the types at `all` as they are. -/
theorem count_keep (r : Retention) (owner method : Token) :
    (r.keep owner method).2.count .all = r.count .all := by
  unfold keep
  split
  · rfl
  · rw [count_eq_size, count_eq_size, atLevel_raise_members]

/-- The types at a level are as many as the store counts. -/
theorem exists_list_atLevel (r : Retention) (level : Level) (hlevel : level ≠ .none) :
    ∃ ts : List Token, ts.Nodup ∧ (∀ t, t ∈ ts ↔ r.level t = level) ∧
      ts.length = r.count level := by
  refine ⟨(r.atLevel level).keys, Std.ExtTreeMap.nodup_keys, ?_, ?_⟩
  · intro t
    have hlookup : r.level t = (r.levels[t]?).getD .none := Std.ExtTreeMap.getD_eq_getD_getElem?
    rw [Std.ExtTreeMap.mem_keys, Std.ExtTreeMap.mem_iff_isSome_getElem?,
      Std.ExtTreeMap.getElem?_filter', hlookup]
    rcases r.levels[t]? with _ | found
    · simpa using Ne.symm hlevel
    · by_cases hfound : found = level <;> simp [hfound]
  · rw [Std.ExtTreeMap.length_keys, count_eq_size]

/-! ### Retained methods -/

/-- The retained methods are as many as the store counts. -/
theorem exists_list_kept (r : Retention) :
    ∃ ms : List Token, ms.Nodup ∧ (∀ m, m ∈ ms ↔ r.isKept m = true) ∧
      ms.length = r.keptCount := by
  refine ⟨r.kept.toList, ?_, ?_, Std.ExtTreeSet.length_toList⟩
  · apply Std.ExtTreeSet.distinct_toList.imp
    rintro m n hdistinct rfl
    exact hdistinct Std.ReflOrd.compare_self
  · intro m
    rw [Std.ExtTreeSet.mem_toList]
    rfl

@[simp] theorem keptCount_raise (r : Retention) (t : Token) (level : Level) :
    (r.raise t level).2.keptCount = r.keptCount := by
  simp only [keptCount, kept_raise]

/-- Retaining a method adds one to the methods retained, unless it was retained. -/
theorem keptCount_keep (r : Retention) (owner method : Token) :
    (r.keep owner method).2.keptCount =
      r.keptCount + if (r.keep owner method).1 then 1 else 0 := by
  unfold keep
  cases hkept : r.isKept method with
  | true => simp
  | false =>
    simp only [Bool.false_eq_true, if_false, if_true, keptCount_raise]
    rw [keptCount, Std.ExtTreeSet.size_insert]
    simp only [isKept] at hkept
    simp [hkept, keptCount]

/-! ### Orders carried out -/

theorem obey_snd (r : Retention) (os : List Order) :
    (r.obey os).2 = r.writeAll (os.map Order.write) := by
  induction os generalizing r with
  | nil => rfl
  | cons o os ih =>
    simp only [obey, List.map_cons, writeAll_cons]
    exact ih _

theorem obey_cons_fst (r : Retention) (o : Order) (os : List Order) :
    (r.obey (o :: os)).1 =
      if (r.write o.write).1 then o :: ((r.write o.write).2.obey os).1
      else ((r.write o.write).2.obey os).1 := rfl

/-- The orders to retain whole types that changed something are as many as there
    are new types at `all`. -/
theorem count_obey (r : Retention) (os : List Order) :
    (r.obey os).2.count .all =
      r.count .all + (r.obey os).1.countP (fun o => o matches .whole _) := by
  induction os generalizing r with
  | nil => simp [obey]
  | cons o os ih =>
    have hsnd : (r.obey (o :: os)).2 = ((r.write o.write).2.obey os).2 := rfl
    rw [hsnd, ih, obey_cons_fst]
    cases o with
    | whole t =>
      have hstep : (r.write (Order.whole t).write).2.count .all = _ := r.count_raise_all t.token
      rw [hstep]
      change _ = _ + List.countP _ (if (r.raise t.token .all).1 then _ else _)
      cases (r.raise t.token .all).1 with
      | true =>
        rw [if_pos rfl, if_pos rfl, List.countP_cons_of_pos (by rfl)]
        omega
      | false => simp
    | member t m =>
      have hstep : (r.write (Order.member t m).write).2.count .all = _ :=
        r.count_keep t.token m.token
      rw [hstep]
      split <;> simp

/-- The orders to retain methods that changed something are as many as there are
    new methods. -/
theorem keptCount_obey (r : Retention) (os : List Order) :
    (r.obey os).2.keptCount =
      r.keptCount + (r.obey os).1.countP (fun o => o matches .member _ _) := by
  induction os generalizing r with
  | nil => simp [obey]
  | cons o os ih =>
    have hsnd : (r.obey (o :: os)).2 = ((r.write o.write).2.obey os).2 := rfl
    rw [hsnd, ih, obey_cons_fst]
    cases o with
    | whole t =>
      have hstep : (r.write (Order.whole t).write).2.keptCount = _ :=
        r.keptCount_raise t.token .all
      rw [hstep]
      split <;> simp
    | member t m =>
      have hstep : (r.write (Order.member t m).write).2.keptCount = _ :=
        r.keptCount_keep t.token m.token
      rw [hstep]
      change _ = _ + List.countP _ (if (r.keep t.token m.token).1 then _ else _)
      cases (r.keep t.token m.token).1 with
      | true =>
        rw [if_pos rfl, if_pos rfl, List.countP_cons_of_pos (by rfl)]
        omega
      | false => simp

end Retention

end TrimGuard
