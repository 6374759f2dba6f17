/-
  TrimGuard/Proofs/StoreMeaning.lean
  ==================================
  **A store means the history of its writes.**

  A history may be anything: it may name a method under several types, raise a type
  and then raise it to less, and say the same thing over and over.  Of a store that
  began empty, all that can be looked at is still told by the history alone.  The
  first write that names a method decides under which type the method is listed
  (`firstOwner?`), so the lists of the types share no method (`firstKept`), and each
  list is in the order in which its methods were first named.

  A store keeps what it knows in three places: the levels, the methods, and the
  lists of the types.  The questions about a store are answered from one place or
  another, and `Tells` says that the answers agree.  What holds the places together
  is that a type with a list has a level, and that the level `none` is never
  written down.
-/
import TrimGuard.Proofs.FirstOccurrences
import TrimGuard.Proofs.WriteHistory
import Mathlib.Algebra.GroupWithZero.Nat
import Mathlib.Data.List.Nodup

namespace TrimGuard

namespace Retention

/-! ### The first owner of a method -/

/-- The method that a write retains. -/
def Write.method? : Write → Option Token
  | .raise _ _ => none
  | .keep _ method => some method

/-- The type that a write names with the method `m`. -/
def Write.ownerOf? (m : Token) : Write → Option Token
  | .raise _ _ => none
  | .keep owner method => if method = m then some owner else none

/-- The type that was named with the method `m` first. -/
def firstOwner? (ws : List Write) (m : Token) : Option Token := ws.findSome? (Write.ownerOf? m)

/-- The methods that were named with the type `t` first, in the order in which they
    were first named. -/
def firstKept (ws : List Write) (t : Token) : List Token :=
  (ws.filterMap Write.method?).eraseDups.filter fun m => firstOwner? ws m = some t

theorem ownerOf?_eq_none_iff (m : Token) (w : Write) :
    w.ownerOf? m = none ↔ ∀ owner, w ≠ .keep owner m := by
  cases w with
  | raise t level => simp [Write.ownerOf?]
  | keep owner method => simp [Write.ownerOf?]

/-- A method has a first owner as soon as any write names it. -/
theorem firstOwner?_eq_none_iff (ws : List Write) (m : Token) :
    firstOwner? ws m = none ↔ ∀ owner, Write.keep owner m ∉ ws := by
  rw [firstOwner?, List.findSome?_eq_none_iff]
  simp only [ownerOf?_eq_none_iff]
  constructor
  · intro h owner hw
    exact h _ hw owner rfl
  · rintro h w hw owner rfl
    exact h owner hw

theorem mem_filterMap_method_iff (ws : List Write) (m : Token) :
    m ∈ ws.filterMap Write.method? ↔ firstOwner? ws m ≠ none := by
  rw [List.mem_filterMap, ne_eq, firstOwner?_eq_none_iff, not_forall]
  constructor
  · rintro ⟨_ | ⟨owner, method⟩, hw, hmethod⟩
    · cases hmethod
    · cases hmethod
      exact ⟨owner, not_not.mpr hw⟩
  · rintro ⟨owner, hw⟩
    exact ⟨_, not_not.mp hw, rfl⟩

theorem firstOwner?_concat (ws : List Write) (w : Write) (m : Token) :
    firstOwner? (ws ++ [w]) m = (firstOwner? ws m).or (w.ownerOf? m) := by
  simp [firstOwner?, List.findSome?_append]

theorem mem_firstKept_iff (ws : List Write) (t m : Token) :
    m ∈ firstKept ws t ↔ firstOwner? ws m = some t := by
  rw [firstKept, List.mem_filter, List.mem_eraseDups, mem_filterMap_method_iff, decide_eq_true_eq,
    and_iff_right_iff_imp]
  intro h
  simp [h]

theorem nodup_firstKept (ws : List Write) (t : Token) : (firstKept ws t).Nodup :=
  (nodup_eraseDups _).filter _

theorem filterMap_method_concat (ws : List Write) (w : Write) :
    (ws ++ [w]).filterMap Write.method? = ws.filterMap Write.method? ++ w.method?.toList := by
  cases w <;> simp [List.filterMap_cons, Write.method?]

theorem firstKept_concat_raise (ws : List Write) (u : Token) (level : Level) (t : Token) :
    firstKept (ws ++ [.raise u level]) t = firstKept ws t := by
  rw [firstKept, filterMap_method_concat, Write.method?, Option.toList_none, List.append_nil]
  simp only [firstOwner?_concat, Write.ownerOf?, Option.or_none]
  rfl

/-- A further write adds its method to the list of its type if it is the first one to
    name the method, and otherwise leaves the lists as they are. -/
theorem firstKept_concat_keep (ws : List Write) (owner method t : Token) :
    firstKept (ws ++ [.keep owner method]) t =
      if firstOwner? ws method = none ∧ owner = t then firstKept ws t ++ [method]
      else firstKept ws t := by
  -- the methods named before keep their first owner
  have hold : (ws.filterMap Write.method?).eraseDups.filter
      (fun m => firstOwner? (ws ++ [.keep owner method]) m = some t) = firstKept ws t := by
    apply List.filter_congr
    intro m hm
    obtain ⟨first, hfirst⟩ := Option.ne_none_iff_exists'.mp
      ((mem_filterMap_method_iff ws m).mp (List.mem_eraseDups.mp hm))
    rw [firstOwner?_concat, hfirst, Option.some_or]
  rw [firstKept, filterMap_method_concat, Write.method?, Option.toList_some]
  by_cases hnew : firstOwner? ws method = none
  · have howner : firstOwner? (ws ++ [.keep owner method]) method = some owner := by
      simp [firstOwner?_concat, hnew, Write.ownerOf?]
    have hnotMem : method ∉ ws.filterMap Write.method? := fun hm =>
      (mem_filterMap_method_iff ws method).mp hm hnew
    rw [eraseDups_concat_of_notMem hnotMem, List.filter_append, hold]
    by_cases ho : owner = t
    · subst ho
      simp [hnew, howner]
    · simp [howner, ho]
  · have hmem := (mem_filterMap_method_iff ws method).mpr hnew
    rw [eraseDups_concat_of_mem hmem, hold, if_neg (fun h => hnew h.1)]

/-! ### Lists -/

theorem isKept_history_eq_false_iff (ws : List Write) (m : Token) :
    (empty.writeAll ws).isKept m = false ↔ firstOwner? ws m = none := by
  rw [firstOwner?_eq_none_iff, ← Bool.not_eq_true, isKept_writeAll, isKept_empty]
  simp

/-- **Under each type a store lists the methods that were named with it first.** -/
theorem keptUnder_history (ws : List Write) (t : Token) :
    (empty.writeAll ws).keptUnder t = firstKept ws t := by
  induction ws using List.reverseRecOn with
  | nil => simp [firstKept]
  | append_singleton ws w ih =>
    rw [writeAll_concat]
    cases w with
    | raise u level => rw [write, keptUnder_raise, firstKept_concat_raise, ih]
    | keep owner method =>
      simp only [write, keptUnder_keep, firstKept_concat_keep, isKept_history_eq_false_iff, ih]

theorem isKept_history_iff_mem_keptUnder (ws : List Write) (m : Token) :
    (empty.writeAll ws).isKept m = true ↔ ∃ t, m ∈ (empty.writeAll ws).keptUnder t := by
  simp only [keptUnder_history, mem_firstKept_iff, ← Option.isSome_iff_exists,
    Option.isSome_iff_ne_none, ne_eq, ← isKept_history_eq_false_iff, Bool.not_eq_false]

theorem level_history (ws : List Write) (t : Token) :
    (empty.writeAll ws).level t =
      max (raisedBy t ws) (if (empty.writeAll ws).keptUnder t = [] then .none else .members) := by
  rw [level_writeAll, level_empty, Level.none_max, keptUnder_empty]

/-! ### Levels -/

/-- No level `none` is written down. -/
def NothingIdle (r : Retention) : Prop := ∀ t : Token, r.levels[t]? ≠ some Level.none

theorem nothingIdle_raise {r : Retention} (h : r.NothingIdle) (t : Token) (level : Level) :
    (r.raise t level).2.NothingIdle := by
  intro u
  have hu := h u
  rw [levels_raise]
  split
  · revert hu
    rcases r.levels[u]? with _ | _ | _ | _ <;> cases level <;> decide
  · exact hu

theorem nothingIdle_write {r : Retention} (h : r.NothingIdle) (w : Write) :
    (r.write w).2.NothingIdle := by
  cases w with
  | raise t level => exact nothingIdle_raise h t level
  | keep owner method =>
    simp only [write, keep]
    split
    · exact h
    · exact nothingIdle_raise (r := { r with
        kept := r.kept.insert method, members := r.members.file owner method }) h owner .members

theorem nothingIdle_history (ws : List Write) : (empty.writeAll ws).NothingIdle := by
  induction ws using List.reverseRecOn with
  | nil => intro t; simp [empty]
  | append_singleton ws w ih =>
    rw [writeAll_concat]
    exact nothingIdle_write ih w

theorem raise_fst_iff (r : Retention) (t : Token) (level : Level) :
    (r.raise t level).1 = true ↔ r.level t < (r.raise t level).2.level t := by
  have hanswer : (r.raise t level).1 = decide (r.level t < level) := by
    unfold raise
    by_cases h : r.level t < level <;> simp [h]
  rw [hanswer, level_raise, if_pos rfl, decide_eq_true_eq]
  cases r.level t <;> cases level <;> decide

/-! ### Snapshots -/

theorem mem_snapshot_types_iff (r : Retention) (t : Token) (level : Level) :
    (t, level) ∈ r.snapshot.types ↔ r.level t = level ∧ level ≠ .none := by
  have hlevel : r.level t = (r.levels[t]?).getD .none := Std.ExtTreeMap.getD_eq_getD_getElem?
  rw [snapshot, List.mem_filter, Std.ExtTreeMap.mem_toList_iff_getElem?_eq_some, decide_eq_true_eq,
    hlevel]
  rcases r.levels[t]? with _ | found
  · simp only [reduceCtorEq, false_and, Option.getD_none, false_iff, not_and, not_not]
    exact Eq.symm
  · simp

/-- Each type is listed once, in the order of the tokens. -/
theorem pairwise_snapshot_types (r : Retention) :
    r.snapshot.types.Pairwise fun a b => compare a.1 b.1 = .lt :=
  Std.ExtTreeMap.ordered_keys_toList.filter _

theorem mem_snapshot_methods_iff (r : Retention) (m : Token) :
    m ∈ r.snapshot.methods ↔ r.isKept m = true := Std.ExtTreeSet.mem_toList

theorem nodup_snapshot_methods (r : Retention) : r.snapshot.methods.Nodup := by
  refine Std.ExtTreeSet.distinct_toList.imp ?_
  rintro m _ hdistinct rfl
  exact hdistinct Std.ReflOrd.compare_self

theorem snapshot_types_eq {r : Retention} (h : r.NothingIdle) :
    r.snapshot.types = r.levels.toList := by
  apply List.filter_eq_self.mpr
  rintro ⟨t, level⟩ he
  have hentry := Std.ExtTreeMap.mem_toList_iff_getElem?_eq_some.mp he
  rw [decide_eq_true_eq]
  rintro rfl
  exact h t hentry

theorem count_eq_countP_snapshot {r : Retention} (h : r.NothingIdle) (level : Level) :
    r.count level = r.snapshot.types.countP fun e => e.2 = level := by
  rw [count, snapshot_types_eq h]

theorem isEmpty_iff_snapshot {r : Retention} (h : r.NothingIdle) :
    r.isEmpty = true ↔ r.snapshot.types = [] ∧ r.snapshot.methods = [] := by
  rw [isEmpty, Bool.and_eq_true, snapshot_types_eq h, snapshot, ← Std.ExtTreeMap.isEmpty_toList,
    ← Std.ExtTreeSet.isEmpty_toList, List.isEmpty_iff, List.isEmpty_iff]

/-! ### All questions at once -/

theorem level_ne_none_of_keptUnder (ws : List Write) {t : Token}
    (h : (empty.writeAll ws).keptUnder t ≠ []) : (empty.writeAll ws).level t ≠ .none := by
  rw [level_history, if_neg h]
  cases raisedBy t ws <;> decide

theorem keptUnder_disjoint (ws : List Write) {t u : Token} (h : t ≠ u) :
    ((empty.writeAll ws).keptUnder t).Disjoint ((empty.writeAll ws).keptUnder u) := by
  intro m ht hu
  rw [keptUnder_history, mem_firstKept_iff] at ht hu
  rw [ht] at hu
  exact h (Option.some.inj hu)

/-- **The lists of the types in a snapshot make up its methods.** -/
theorem perm_lists_history (ws : List Write) :
    ((empty.writeAll ws).snapshot.types.flatMap fun e => (empty.writeAll ws).keptUnder e.1).Perm
      (empty.writeAll ws).snapshot.methods := by
  refine (List.perm_ext_iff_of_nodup ?_ (nodup_snapshot_methods _)).mpr ?_
  · refine List.nodup_flatMap.mpr ⟨?_, ?_⟩
    · intro e _
      rw [keptUnder_history]
      exact nodup_firstKept ws e.1
    · refine (pairwise_snapshot_types _).imp ?_
      intro e f hlt
      apply keptUnder_disjoint ws
      intro heq
      rw [heq, Std.ReflOrd.compare_self] at hlt
      cases hlt
  · intro m
    rw [List.mem_flatMap, mem_snapshot_methods_iff, isKept_history_iff_mem_keptUnder]
    constructor
    · rintro ⟨e, -, hm⟩
      exact ⟨e.1, hm⟩
    · rintro ⟨t, hm⟩
      -- the type is in the snapshot, because its list is not empty
      have hlevel := level_ne_none_of_keptUnder ws (List.ne_nil_of_mem hm)
      exact ⟨(t, _), (mem_snapshot_types_iff _ _ _).mpr ⟨rfl, hlevel⟩, hm⟩

/-- What the store answers is what the history `ws` says. -/
structure Tells (r : Retention) (ws : List Write) : Prop where
  /-- The methods retained are those that were ever named. -/
  kept : ∀ m, r.isKept m = true ↔ ∃ owner, Write.keep owner m ∈ ws
  /-- A type lists the methods that were named with it first. -/
  lists : ∀ t, r.keptUnder t = firstKept ws t
  lists_nodup : ∀ t, (r.keptUnder t).Nodup
  lists_disjoint : ∀ t u, t ≠ u → (r.keptUnder t).Disjoint (r.keptUnder u)
  lists_cover : ∀ m, r.isKept m = true ↔ ∃ t, m ∈ r.keptUnder t
  /-- The level of a type is the highest that it was raised to, and at least `members`
      if it has a list. -/
  level : ∀ t, r.level t =
    max (raisedBy t ws) (if r.keptUnder t = [] then .none else .members)
  /-- The next raise answers whether it is one. -/
  raised : ∀ t level, (r.raise t level).1 = true ↔ r.level t < (r.raise t level).2.level t
  /-- The next retention answers whether it is the first one of its method. -/
  added : ∀ owner m, (r.keep owner m).1 = true ↔ ∀ owner', Write.keep owner' m ∉ ws
  /-- A snapshot shows each type that has a level, once and in the order of the tokens. -/
  types : ∀ t level, (t, level) ∈ r.snapshot.types ↔ r.level t = level ∧ level ≠ .none
  types_sorted : r.snapshot.types.Pairwise fun a b => compare a.1 b.1 = .lt
  methods : ∀ m, m ∈ r.snapshot.methods ↔ r.isKept m = true
  methods_nodup : r.snapshot.methods.Nodup
  /-- Nothing is counted at the level `none`. -/
  count_none : r.count .none = 0
  count : ∀ level, r.count level = r.snapshot.types.countP fun e => e.2 = level
  keptCount : r.keptCount = r.snapshot.methods.length
  /-- No method is listed for a type that the snapshot does not show, and what is listed
      for those it shows adds up to the methods retained. -/
  unlisted : ∀ t, r.level t = .none → r.keptUnder t = []
  listed : (r.snapshot.types.map fun e => (r.keptUnder e.1).length).sum = r.keptCount
  isEmpty : r.isEmpty = true ↔ r.snapshot.types = [] ∧ r.snapshot.methods = []

theorem keep_fst_iff (ws : List Write) (owner m : Token) :
    ((empty.writeAll ws).keep owner m).1 = true ↔ ∀ owner', Write.keep owner' m ∉ ws := by
  have hanswer : ((empty.writeAll ws).keep owner m).1 = !(empty.writeAll ws).isKept m := by
    unfold keep
    cases (empty.writeAll ws).isKept m <;> rfl
  rw [hanswer, Bool.not_eq_true', isKept_history_eq_false_iff, firstOwner?_eq_none_iff]

/-- **Whatever is written to an empty store, in whatever order, the store tells it.** -/
theorem store_tells_history (ws : List Write) : (empty.writeAll ws).Tells ws where
  kept m := by simp [isKept_writeAll]
  lists := keptUnder_history ws
  lists_nodup t := by
    rw [keptUnder_history]
    exact nodup_firstKept ws t
  lists_disjoint _ _ := keptUnder_disjoint ws
  lists_cover := isKept_history_iff_mem_keptUnder ws
  level := level_history ws
  raised := raise_fst_iff _
  added := keep_fst_iff ws
  types := mem_snapshot_types_iff _
  types_sorted := pairwise_snapshot_types _
  methods := mem_snapshot_methods_iff _
  methods_nodup := nodup_snapshot_methods _
  count_none := by
    rw [count_eq_countP_snapshot (nothingIdle_history ws), List.countP_eq_zero]
    rintro ⟨t, level⟩ he
    simpa using ((mem_snapshot_types_iff _ _ _).mp he).2
  count := count_eq_countP_snapshot (nothingIdle_history ws)
  keptCount := Std.ExtTreeSet.length_toList.symm
  unlisted t hlevel := by
    by_contra hlist
    exact level_ne_none_of_keptUnder ws hlist hlevel
  listed := by
    rw [← List.length_flatMap, (perm_lists_history ws).length_eq]
    exact Std.ExtTreeSet.length_toList
  isEmpty := isEmpty_iff_snapshot (nothingIdle_history ws)

/-- Of two types named with one method, the first has it. -/
example :
    let r := empty.writeAll
      [.raise (.ofTypeIndex 1) .all, .keep (.ofTypeIndex 0) (.ofMethodIndex 0),
       .keep (.ofTypeIndex 1) (.ofMethodIndex 0), .raise (.ofTypeIndex 1) .members]
    r.snapshot = ⟨[(.ofTypeIndex 0, .members), (.ofTypeIndex 1, .all)], [.ofMethodIndex 0]⟩ ∧
      r.keptUnder (.ofTypeIndex 1) = [] := by
  decide +kernel

end Retention

end TrimGuard
