/-
  TrimGuard/Proofs/WriteHistory.lean
  ==================================
  **What a store holds after a history of writes.**

  A store is only ever written to, so everything that can be looked at in it is a
  function of the writes so far and of what was there before:

    * a type is at `all` if it was, or if some write raised it there
      (`level_writeAll_eq_all`), and its level altogether is the highest of what
      it was, what it was raised to, and `members` if a method was retained under
      it (`level_writeAll`);
    * a method is retained if it was, or if some write retained it
      (`isKept_writeAll`);
    * the list of a type grows by the methods that the writes retain under it and
      that were not retained before, each once, in the order of the writes
      (`keptUnder_writeAll`).

  The last holds as long as no method is retained under two types.  A program
  gives every method one owner, so the writes of a pass are of this kind.
-/
import TrimGuard.Retention
import Mathlib.Data.List.Induction

namespace TrimGuard

/-! ### The order of levels -/

namespace Level

theorem max_comm (a b : Level) : max a b = max b a := by
  cases a <;> cases b <;> rfl

theorem max_assoc (a b c : Level) : max (max a b) c = max a (max b c) := by
  cases a <;> cases b <;> cases c <;> rfl

theorem max_right_comm (a b c : Level) : max (max a b) c = max (max a c) b := by
  rw [max_assoc, max_comm b c, ← max_assoc]

@[simp] theorem max_none (a : Level) : max a .none = a := by
  cases a <;> rfl

@[simp] theorem none_max (a : Level) : max .none a = a := by
  cases a <;> rfl

@[simp] theorem max_self (a : Level) : max a a = a := by
  cases a <;> rfl

theorem max_eq_all_iff (a b : Level) : max a b = .all ↔ a = .all ∨ b = .all := by
  cases a <;> cases b <;> decide

theorem le_antisymm {a b : Level} (h : a ≤ b) (h' : b ≤ a) : a = b := by
  revert h h'
  cases a <;> cases b <;> decide

theorem max_ne_none {a : Level} (h : a ≠ .none) (b : Level) : max a b ≠ .none := by
  revert h
  cases a <;> cases b <;> decide

/-- A type that has a level is not raised by adding `members`. -/
theorem max_members_of_ne_none {a : Level} (h : a ≠ .none) : max a .members = a := by
  revert h
  cases a <;> decide

/-- Below `all`, adding `members` never leads to `all`. -/
theorem max_members_eq_all_iff (a : Level) : max a .members = .all ↔ a = .all := by
  cases a <;> decide

end Level

namespace Retention

/-! ### Entries

A raise concerns a single entry of the table of levels, and nothing else.  Raises of
one type add up to a single one. -/

@[simp] theorem kept_raise (r : Retention) (t : Token) (level : Level) :
    (r.raise t level).2.kept = r.kept := by
  unfold raise
  split <;> rfl

@[simp] theorem members_raise (r : Retention) (t : Token) (level : Level) :
    (r.raise t level).2.members = r.members := by
  unfold raise
  split <;> rfl

/-- What a raise does to the entry of its type. -/
def raiseEntry (level : Level) (entry : Option Level) : Option Level :=
  if entry.getD .none < level then some level else entry

theorem levels_raise (r : Retention) (t : Token) (level : Level) (u : Token) :
    (r.raise t level).2.levels[u]? =
      if t = u then raiseEntry level r.levels[u]? else r.levels[u]? := by
  have hlevel : r.level t = (r.levels[t]?).getD .none := Std.ExtTreeMap.getD_eq_getD_getElem?
  simp only [raise, raiseEntry]
  by_cases hraise : r.level t < level
  · rw [if_pos hraise, Std.ExtTreeMap.getElem?_insert]
    by_cases hu : t = u
    · subst hu
      rw [hlevel] at hraise
      simp [hraise]
    · simp [hu]
  · rw [if_neg hraise]
    by_cases hu : t = u
    · subst hu
      rw [hlevel] at hraise
      simp [hraise]
    · simp [hu]

theorem levels_keep (r : Retention) (owner method u : Token) :
    (r.keep owner method).2.levels[u]? =
      if r.isKept method = false ∧ owner = u then raiseEntry .members r.levels[u]?
      else r.levels[u]? := by
  unfold keep
  cases h : r.isKept method with
  | true => simp
  | false => simp only [Bool.false_eq_true, if_false, levels_raise, true_and]

@[simp] theorem raiseEntry_none (entry : Option Level) : raiseEntry .none entry = entry := by
  rcases entry with _ | _ | _ | _ <;> rfl

theorem raiseEntry_raiseEntry (a b : Level) (entry : Option Level) :
    raiseEntry b (raiseEntry a entry) = raiseEntry (max a b) entry := by
  rcases entry with _ | _ | _ | _ <;> cases a <;> cases b <;> rfl

theorem getD_raiseEntry (level : Level) (entry : Option Level) :
    (raiseEntry level entry).getD .none = max (entry.getD .none) level := by
  rcases entry with _ | _ | _ | _ <;> cases level <;> rfl

/-! ### Histories -/

@[simp] theorem writeAll_nil (r : Retention) : r.writeAll [] = r := rfl

@[simp] theorem writeAll_cons (r : Retention) (w : Write) (ws : List Write) :
    r.writeAll (w :: ws) = (r.write w).2.writeAll ws := rfl

theorem writeAll_append (r : Retention) (ws ws' : List Write) :
    r.writeAll (ws ++ ws') = (r.writeAll ws).writeAll ws' := by
  simp [writeAll]

theorem writeAll_concat (r : Retention) (ws : List Write) (w : Write) :
    r.writeAll (ws ++ [w]) = ((r.writeAll ws).write w).2 := by
  rw [writeAll_append, writeAll_cons, writeAll_nil]

/-- What a write retains under the type `t`. -/
def Write.keptFor (t : Token) : Write → Option Token
  | .raise _ _ => none
  | .keep owner method => if owner = t then some method else none

/-- The level that a write raises the type `t` to. -/
def Write.raisedFor (t : Token) : Write → Level
  | .raise u level => if u = t then level else .none
  | .keep _ _ => .none

/-- The highest level that the writes raise the type `t` to. -/
def raisedBy (t : Token) (ws : List Write) : Level :=
  ws.foldl (fun level w => max level (w.raisedFor t)) .none

theorem raisedBy_concat (t : Token) (ws : List Write) (w : Write) :
    raisedBy t (ws ++ [w]) = max (raisedBy t ws) (w.raisedFor t) := by
  simp [raisedBy]

/-- No method is retained under two types. -/
def SingleOwner (ws : List Write) : Prop :=
  ∀ owner owner' method,
    Write.keep owner method ∈ ws → Write.keep owner' method ∈ ws → owner = owner'

theorem SingleOwner.of_subset {ws ws' : List Write} (h : SingleOwner ws') (hsub : ws ⊆ ws') :
    SingleOwner ws :=
  fun owner owner' method hm hm' => h owner owner' method (hsub hm) (hsub hm')

theorem mem_filterMap_keptFor_iff (t m : Token) (ws : List Write) :
    m ∈ ws.filterMap (Write.keptFor t) ↔ Write.keep t m ∈ ws := by
  rw [List.mem_filterMap]
  constructor
  · rintro ⟨w, hw, hkept⟩
    cases w with
    | raise u level => cases hkept
    | keep owner method =>
      simp only [Write.keptFor] at hkept
      by_cases h : owner = t
      · rw [if_pos h] at hkept
        cases hkept
        rw [← h]
        exact hw
      · rw [if_neg h] at hkept
        cases hkept
  · intro hw
    exact ⟨_, hw, by simp [Write.keptFor]⟩

/-! ### Whole types -/

theorem level_write_eq_all (r : Retention) (w : Write) (t : Token) :
    (r.write w).2.level t = .all ↔ r.level t = .all ∨ w = .raise t .all := by
  cases w with
  | raise u level =>
    simp only [write, level_raise, Write.raise.injEq]
    by_cases h : u = t
    · rw [if_pos h, Level.max_eq_all_iff]
      simp [h]
    · rw [if_neg h]
      simp [h]
  | keep owner method =>
    simp only [write, level_keep, reduceCtorEq, or_false]
    split
    · exact Level.max_members_eq_all_iff _
    · rfl

/-- **A type is at `all` exactly if it was, or was raised there.** -/
theorem level_writeAll_eq_all (r : Retention) (ws : List Write) (t : Token) :
    (r.writeAll ws).level t = .all ↔ r.level t = .all ∨ Write.raise t .all ∈ ws := by
  induction ws generalizing r with
  | nil => simp
  | cons w ws ih =>
    rw [writeAll_cons, ih, level_write_eq_all, List.mem_cons, or_assoc, eq_comm (a := w)]

/-! ### Methods -/

/-- **A method is retained exactly if it was, or if a write retained it.** -/
theorem isKept_writeAll (r : Retention) (ws : List Write) (m : Token) :
    (r.writeAll ws).isKept m = true ↔
      r.isKept m = true ∨ ∃ owner, Write.keep owner m ∈ ws := by
  induction ws generalizing r with
  | nil => simp
  | cons w ws ih =>
    rw [writeAll_cons, ih]
    cases w with
    | raise u level => simp [write]
    | keep owner method =>
      simp only [write, isKept_keep, Bool.or_eq_true, decide_eq_true_eq, List.mem_cons,
        Write.keep.injEq]
      constructor
      · rintro ((rfl | h) | ⟨o, ho⟩)
        · exact Or.inr ⟨owner, Or.inl ⟨rfl, rfl⟩⟩
        · exact Or.inl h
        · exact Or.inr ⟨o, Or.inr ho⟩
      · rintro (h | ⟨o, ⟨-, rfl⟩ | ho⟩)
        · exact Or.inl (Or.inr h)
        · exact Or.inl (Or.inl rfl)
        · exact Or.inr ⟨o, ho⟩

/-- **The list of a type grows by what is newly retained under it, each method
    once, in the order of the writes.** -/
theorem keptUnder_writeAll (r : Retention) {ws : List Write} (hown : SingleOwner ws) (t : Token) :
    (r.writeAll ws).keptUnder t =
      r.keptUnder t ++
        ((ws.filterMap (Write.keptFor t)).filter fun m => !r.isKept m).eraseDups := by
  induction ws generalizing r with
  | nil => simp
  | cons w ws ih =>
    have hown' : SingleOwner ws := hown.of_subset (List.subset_cons_self _ _)
    rw [writeAll_cons, ih _ hown']
    cases w with
    | raise u level =>
      rw [List.filterMap_cons_none (by rfl)]
      simp [write]
    | keep owner method =>
      simp only [write, keptUnder_keep, isKept_keep, List.filterMap_cons, Write.keptFor]
      cases hkept : r.isKept method with
      | true =>
        -- the write does nothing, and its method is not counted
        have hsame : ∀ m, (decide (m = method) || r.isKept m) = r.isKept m := by
          intro m
          by_cases hm : m = method
          · simp [hm, hkept]
          · simp [hm]
        simp only [hsame, Bool.true_eq_false, false_and, if_false]
        by_cases ho : owner = t
        · simp [ho, hkept]
        · simp [ho]
      | false =>
        by_cases ho : owner = t
        · -- the method comes first, and never again
          simp only [ho, and_self, if_true, List.filter_cons, hkept, Bool.not_false,
            List.eraseDups_cons, List.filter_filter, List.append_assoc, List.cons_append,
            List.nil_append]
          congr 4
          funext m
          by_cases hm : m = method <;> simp [hm]
        · -- no later write retains the method under `t`
          simp only [ho, and_false, if_false]
          congr 2
          apply List.filter_congr
          intro m hm
          have hne : m ≠ method := by
            rintro rfl
            have hlater := (mem_filterMap_keptFor_iff t m ws).mp hm
            exact ho (hown owner t m List.mem_cons_self (List.mem_cons_of_mem _ hlater))
          simp [hne]

theorem keptUnder_prefix (r : Retention) (ws : List Write) (t : Token) :
    r.keptUnder t <+: (r.writeAll ws).keptUnder t := by
  induction ws generalizing r with
  | nil => exact List.prefix_refl _
  | cons w ws ih =>
    refine List.IsPrefix.trans ?_ (ih _)
    cases w with
    | raise u level => simp [write]
    | keep owner method =>
      simp only [write, keptUnder_keep]
      split
      · exact List.prefix_append _ _
      · exact List.prefix_refl _

/-! ### Levels -/

/-- What a history raises a type by: the highest level that a write raised it to, and
    `members` if a method was newly retained under it. -/
def raisedIn (r : Retention) (ws : List Write) (t : Token) : Level :=
  max (raisedBy t ws) (if (r.writeAll ws).keptUnder t = r.keptUnder t then .none else .members)

theorem levels_writeAll (r : Retention) (ws : List Write) (t : Token) :
    (r.writeAll ws).levels[t]? = raiseEntry (r.raisedIn ws t) r.levels[t]? := by
  induction ws using List.reverseRecOn with
  | nil => simp [raisedIn, raisedBy]
  | append_singleton ws w ih =>
    rw [raisedIn, raisedBy_concat, writeAll_concat]
    cases w with
    | raise u level =>
      simp only [write, levels_raise, keptUnder_raise, Write.raisedFor]
      by_cases hu : u = t
      · rw [if_pos hu, if_pos hu, ih, raiseEntry_raiseEntry, raisedIn, Level.max_right_comm]
      · rw [if_neg hu, if_neg hu, ih, Level.max_none, raisedIn]
    | keep owner method =>
      simp only [write, levels_keep, keptUnder_keep, Write.raisedFor, Level.max_none]
      by_cases hnew : (r.writeAll ws).isKept method = false ∧ owner = t
      · -- the list has grown, whatever it was before this write
        have hlonger : (r.writeAll ws).keptUnder t ++ [method] ≠ r.keptUnder t := by
          intro heq
          have hle := (r.keptUnder_prefix ws t).length_le
          rw [← heq, List.length_append, List.length_singleton] at hle
          omega
        rw [if_pos hnew, if_pos hnew, if_neg hlonger, ih, raiseEntry_raiseEntry, raisedIn]
        split
        · rw [Level.max_none]
        · rw [Level.max_assoc, Level.max_self]
      · rw [if_neg hnew, if_neg hnew, ih, raisedIn]

/-- **The level of a type is the highest of what it was, what it was raised to,
    and `members` if a method was newly retained under it.** -/
theorem level_writeAll (r : Retention) (ws : List Write) (t : Token) :
    (r.writeAll ws).level t =
      max (max (r.level t) (raisedBy t ws))
        (if (r.writeAll ws).keptUnder t = r.keptUnder t then .none else .members) := by
  have hlevel : ∀ s : Retention, s.level t = (s.levels[t]?).getD .none :=
    fun _ => Std.ExtTreeMap.getD_eq_getD_getElem?
  rw [hlevel, levels_writeAll, getD_raiseEntry, ← hlevel, raisedIn, Level.max_assoc]

/-! A history that raises types to nothing but `all` leaves `members` to the
retention of methods. -/

theorem raisedBy_cases {ws : List Write} (hall : ∀ x level, Write.raise x level ∈ ws → level = .all)
    (t : Token) : raisedBy t ws = .none ∨ raisedBy t ws = .all := by
  induction ws using List.reverseRecOn with
  | nil => exact Or.inl rfl
  | append_singleton ws w ih =>
    have hlast : w.raisedFor t = .none ∨ w.raisedFor t = .all := by
      cases w with
      | keep owner method => exact Or.inl rfl
      | raise u level =>
        have hlevel := hall u level (by simp)
        by_cases hu : u = t
        · exact Or.inr (by rw [Write.raisedFor, if_pos hu, hlevel])
        · exact Or.inl (by rw [Write.raisedFor, if_neg hu])
    rw [raisedBy_concat]
    rcases ih fun x level hx => hall x level (List.mem_append_left _ hx) with h | h <;>
      rcases hlast with h' | h' <;> rw [h, h'] <;> decide

theorem level_writeAll_empty_eq_members_iff {ws : List Write}
    (hall : ∀ x level, Write.raise x level ∈ ws → level = .all) (t : Token) :
    (empty.writeAll ws).level t = .members ↔
      (empty.writeAll ws).keptUnder t ≠ [] ∧ (empty.writeAll ws).level t ≠ .all := by
  rw [level_writeAll, level_empty, Level.none_max, keptUnder_empty]
  rcases raisedBy_cases hall t with hraised | hraised <;> rw [hraised] <;>
    by_cases hnew : (empty.writeAll ws).keptUnder t = [] <;> simp [hnew]
  all_goals decide

end Retention

end TrimGuard
