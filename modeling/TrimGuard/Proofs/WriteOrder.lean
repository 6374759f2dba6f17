/-
  TrimGuard/Proofs/WriteOrder.lean
  ================================
  **Writes in any order.**

  Two writes can trade places unless they retain methods under one type, where the
  order of the list would show it, or retain one method under two types, where the
  first would win.  All other pairs commute on the store as a whole, not only on
  what can be looked at (`write_comm`).

  Sequences of writes that are independent of one another may therefore be carried
  out at the same time.  `Interleaving` says what that means when single writes
  are atomic, and `writeAll_interleaving` that all interleavings lead to the same
  store as the sequences one after the other.
-/
import TrimGuard.Proofs.WriteHistory

namespace TrimGuard

/-! ### Two writes -/

namespace Retention

/-- The two writes concern different types and different methods, as far as they
    retain methods at all. -/
def Write.Independent : Write → Write → Prop
  | .keep owner method, .keep owner' method' => owner ≠ owner' ∧ method ≠ method'
  | _, _ => True

theorem Write.Independent.symm {v w : Write} (h : v.Independent w) : w.Independent v := by
  cases v with
  | raise t level => cases w <;> exact trivial
  | keep owner method =>
    cases w with
    | raise t level => exact trivial
    | keep owner' method' => exact ⟨Ne.symm h.1, Ne.symm h.2⟩

/-! Two stores are equal if every entry of their tables is. -/

theorem raiseEntry_comm (a b : Level) (entry : Option Level) :
    raiseEntry a (raiseEntry b entry) = raiseEntry b (raiseEntry a entry) := by
  rcases entry with _ | _ | _ | _ <;> cases a <;> cases b <;> rfl

theorem raise_comm (r : Retention) (t u : Token) (a b : Level) :
    ((r.raise t a).2.raise u b).2 = ((r.raise u b).2.raise t a).2 := by
  apply Retention.ext
  · apply Std.ExtTreeMap.ext_getElem?
    intro v
    simp only [levels_raise]
    by_cases ht : t = v <;> by_cases hu : u = v <;> simp [ht, hu, raiseEntry_comm a b]
  · simp only [kept_raise]
  · simp only [members_raise]

/-- The store with a method put down under a type, whose level is yet to be raised. -/
def note (r : Retention) (owner method : Token) : Retention :=
  { r with kept := r.kept.insert method, members := r.members.file owner method }

theorem keep_eq (r : Retention) (owner method : Token) :
    (r.keep owner method).2 =
      if r.isKept method then r else ((r.note owner method).raise owner .members).2 := by
  unfold keep
  split <;> rfl

theorem raise_note (r : Retention) (owner method t : Token) (level : Level) :
    ((r.note owner method).raise t level).2 = (r.raise t level).2.note owner method := by
  have hlevel : (r.note owner method).level t = r.level t := rfl
  unfold raise
  rw [hlevel]
  split <;> rfl

theorem note_comm (r : Retention) {owner owner' : Token} (method method' : Token)
    (h : owner ≠ owner') :
    (r.note owner method).note owner' method' = (r.note owner' method').note owner method := by
  apply Retention.ext
  · rfl
  · apply Std.ExtTreeSet.ext_mem
    intro m
    simp only [note, Std.ExtTreeSet.mem_insert]
    tauto
  · apply Std.ExtTreeMap.ext_getElem?
    intro u
    simp only [note, Token.Index.file, Std.ExtTreeMap.getElem?_alter]
    by_cases ho : owner = u
    · have ho' : owner' ≠ u := fun hu => h (ho.trans hu.symm)
      simp [ho, ho']
    · simp [ho, h]

theorem raise_keep_comm (r : Retention) (t : Token) (level : Level) (owner method : Token) :
    ((r.raise t level).2.keep owner method).2 = ((r.keep owner method).2.raise t level).2 := by
  rw [keep_eq, keep_eq, isKept_raise]
  cases r.isKept method with
  | true => rfl
  | false =>
    simp only [Bool.false_eq_true, if_false]
    rw [← raise_note, raise_comm]

theorem keep_comm (r : Retention) {owner owner' method method' : Token}
    (howner : owner ≠ owner') (hmethod : method ≠ method') :
    ((r.keep owner method).2.keep owner' method').2 =
      ((r.keep owner' method').2.keep owner method).2 := by
  have hkept : (r.keep owner method).2.isKept method' = r.isKept method' := by
    rw [isKept_keep]
    simp [Ne.symm hmethod]
  have hkept' : (r.keep owner' method').2.isKept method = r.isKept method := by
    rw [isKept_keep]
    simp [hmethod]
  rw [keep_eq (r.keep owner method).2, keep_eq (r.keep owner' method').2, hkept, hkept',
    keep_eq r, keep_eq r]
  cases r.isKept method <;> cases r.isKept method' <;>
    simp only [Bool.false_eq_true, if_false, if_true]
  -- both methods are new
  rw [← raise_note, ← raise_note, note_comm r method method' howner, raise_comm]

/-- **Independent writes commute on the store as a whole.** -/
theorem write_comm (r : Retention) {v w : Write} (h : v.Independent w) :
    ((r.write v).2.write w).2 = ((r.write w).2.write v).2 := by
  cases v with
  | raise t level =>
    cases w with
    | raise u level' => exact raise_comm r t u level level'
    | keep owner method => exact raise_keep_comm r t level owner method
  | keep owner method =>
    cases w with
    | raise t level => exact (raise_keep_comm r t level owner method).symm
    | keep owner' method' => exact keep_comm r h.1 h.2

/-- A write that is independent of all others may as well come last. -/
theorem writeAll_write_comm (r : Retention) (w : Write) {ws : List Write}
    (h : ∀ v ∈ ws, w.Independent v) :
    (r.write w).2.writeAll ws = ((r.writeAll ws).write w).2 := by
  induction ws generalizing r with
  | nil => rfl
  | cons v ws ih =>
    have hhead : w.Independent v := h v List.mem_cons_self
    have htail : ∀ u ∈ ws, w.Independent u := fun u hu => h u (List.mem_cons_of_mem _ hu)
    calc (r.write w).2.writeAll (v :: ws)
        = ((r.write w).2.write v).2.writeAll ws := writeAll_cons _ _ _
      _ = ((r.write v).2.write w).2.writeAll ws := by rw [write_comm r hhead]
      _ = (((r.write v).2.writeAll ws).write w).2 := ih _ htail
      _ = ((r.writeAll (v :: ws)).write w).2 := by rw [writeAll_cons]

end Retention

/-! ### Many sequences at once -/

/-- The list is made up of the given sequences, each taken in its own order and
    one element at a time. -/
inductive Interleaving {α : Type} : List (List α) → List α → Prop where
  | done {seqs : List (List α)} : (∀ seq ∈ seqs, seq = []) → Interleaving seqs []
  | next {before after : List (List α)} {a : α} {rest as : List α} :
      Interleaving (before ++ rest :: after) as →
      Interleaving (before ++ (a :: rest) :: after) (a :: as)

namespace Interleaving

variable {α : Type}

/-- One sequence after the other is an interleaving. -/
theorem flatten (seqs : List (List α)) : Interleaving seqs seqs.flatten := by
  suffices h : ∀ before : List (List α), (∀ seq ∈ before, seq = []) →
      Interleaving (before ++ seqs) seqs.flatten from h [] (by simp)
  induction seqs with
  | nil =>
    intro before hbefore
    rw [List.append_nil]
    exact Interleaving.done hbefore
  | cons seq seqs ih =>
    intro before hbefore
    induction seq with
    | nil =>
      have hempty : ∀ seq ∈ before ++ [[]], seq = [] := by
        intro seq hseq
        rcases List.mem_append.mp hseq with hseq | hseq
        · exact hbefore seq hseq
        · exact List.mem_singleton.mp hseq
      have hrest := ih (before ++ [[]]) hempty
      rw [List.append_assoc] at hrest
      exact hrest
    | cons a rest hrest => exact Interleaving.next hrest

/-- The order in which the sequences are listed does not matter. -/
theorem perm {seqs seqs' : List (List α)} {as : List α} (h : Interleaving seqs as)
    (hperm : seqs.Perm seqs') : Interleaving seqs' as := by
  induction h generalizing seqs' with
  | done hempty => exact Interleaving.done fun seq hseq => hempty seq (hperm.mem_iff.mpr hseq)
  | @next before after a rest as _ ih =>
    have hmem : a :: rest ∈ seqs' := hperm.mem_iff.mp (by simp)
    obtain ⟨before', after', rfl⟩ := List.append_of_mem hmem
    refine Interleaving.next (ih ?_)
    have hothers : (before ++ after).Perm (before' ++ after') := by
      apply (List.perm_cons (a :: rest)).mp
      exact (List.perm_middle.symm.trans hperm).trans List.perm_middle
    exact (List.perm_middle.trans (hothers.cons rest)).trans List.perm_middle.symm

end Interleaving

/-- **Sequences of writes that are independent of one another lead to the same
    store in whatever way they are interleaved.** -/
theorem Retention.writeAll_interleaving (r : Retention) {seqs : List (List Write)}
    {ws : List Write} (h : Interleaving seqs ws)
    (hind : seqs.Pairwise fun seq seq' => ∀ v ∈ seq, ∀ w ∈ seq', v.Independent w) :
    r.writeAll ws = r.writeAll seqs.flatten := by
  induction h generalizing r with
  | @done seqs hempty =>
    have hflatten : seqs.flatten = [] := List.flatten_eq_nil_iff.mpr hempty
    rw [hflatten]
  | @next before after w rest ws _ ih =>
    -- the write comes from a sequence that is independent of those before it
    obtain ⟨hbefore, hafter, hcross⟩ := List.pairwise_append.mp hind
    have hearlier : ∀ v ∈ before.flatten, w.Independent v := by
      intro v hv
      obtain ⟨seq, hseq, hv⟩ := List.mem_flatten.mp hv
      exact (hcross seq hseq (w :: rest) List.mem_cons_self v hv w List.mem_cons_self).symm
    have hrest : (before ++ rest :: after).Pairwise
        fun seq seq' => ∀ v ∈ seq, ∀ w ∈ seq', v.Independent w := by
      refine List.pairwise_append.mpr ⟨hbefore, ?_, ?_⟩
      · obtain ⟨hhead, htail⟩ := List.pairwise_cons.mp hafter
        exact List.pairwise_cons.mpr
          ⟨fun seq hseq v hv => hhead seq hseq v (List.mem_cons_of_mem _ hv), htail⟩
      · intro seq hseq seq' hseq' v hv u hu
        rcases List.mem_cons.mp hseq' with rfl | hseq'
        · exact hcross seq hseq _ List.mem_cons_self v hv u (List.mem_cons_of_mem _ hu)
        · exact hcross seq hseq seq' (List.mem_cons_of_mem _ hseq') v hv u hu
    rw [writeAll_cons, ih _ hrest]
    simp only [List.flatten_append, List.flatten_cons, List.cons_append, writeAll_append,
      writeAll_cons]
    rw [writeAll_write_comm r w hearlier]

end TrimGuard
