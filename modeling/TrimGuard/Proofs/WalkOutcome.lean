/-
  TrimGuard/Proofs/WalkOutcome.lean
  =================================
  **Which of its outcomes a bounded walk has.**

  The types above a type are a sequence: its zeroth type is the type itself, and `up`
  leads from each type to the next (`nthUp`).  Where nothing that `up` leads to is
  missing, the sequence either ends (`EndsAt`) or comes to a type for the second time
  (`ReturnsAt`), which need not be the type that it began with.  Both are facts about
  the program, without a limit and without a list of types met.

  The limit is compared with where that happens, and the comparisons are not the same.
  A type is known to come for the second time before a step of the limit is taken
  for it, so a sequence that returns at `j` is recognised if `j - 1` types may be
  passed.  `Stops` lists the ways in which a walk can stop.  At most one of them is
  open to it (`Stops.unique`), and the walk takes it (`stops_ascend`), so each outcome
  is met under exactly the condition that the list gives for it.

  A walk never passes a type twice, hence fewer types than the program has, whatever
  its limit is (`length_passed_walk_lt`).
-/
import TrimGuard.Proofs.BoundedClimb

namespace TrimGuard

namespace TypeTable

variable {types : TypeTable} {up : TypeDef → Option Token} {t : TypeDef}

/-! ### The sequence of types above a type -/

/-- The type that `n` steps of `up` lead to from `t`, if it has as many types above it. -/
def nthUp (types : TypeTable) (up : TypeDef → Option Token) (t : TypeDef) : Nat → Option TypeDef
  | 0 => some t
  | n + 1 => (types.nthUp up t n).bind fun d => (up d).bind types.find?

/-- The `k`-th type of the sequence has nothing above it. -/
def EndsAt (types : TypeTable) (up : TypeDef → Option Token) (t : TypeDef) (k : Nat) : Prop :=
  ∃ d, types.nthUp up t k = some d ∧ up d = none

/-- No type comes twice among the first `n` of the sequence. -/
def DistinctBefore (types : TypeTable) (up : TypeDef → Option Token) (t : TypeDef) (n : Nat) :
    Prop :=
  ∀ k < n, ∀ i < k, types.nthUp up t i ≠ types.nthUp up t k

/-- The `j`-th type of the sequence is `u`, which has come before, and it is the first
    type for which this is so. -/
structure ReturnsAt (types : TypeTable) (up : TypeDef → Option Token) (t : TypeDef) (j : Nat)
    (u : TypeDef) : Prop where
  reached : types.nthUp up t j = some u
  before : ∃ i < j, types.nthUp up t i = some u
  first : types.DistinctBefore up t j

@[simp] theorem nthUp_zero : types.nthUp up t 0 = some t := rfl

theorem nthUp_succ {n : Nat} {d : TypeDef} (h : types.nthUp up t n = some d) :
    types.nthUp up t (n + 1) = (up d).bind types.find? := by
  simp [nthUp, h]

/-- From equal types the sequence goes on in the same way. -/
theorem nthUp_add_eq {i j : Nat} (h : types.nthUp up t i = types.nthUp up t j) (n : Nat) :
    types.nthUp up t (i + n) = types.nthUp up t (j + n) := by
  induction n with
  | zero => exact h
  | succ n ih => rw [← Nat.add_assoc, ← Nat.add_assoc, nthUp, nthUp, ih]

theorem nthUp_eq_none_of_le {m n : Nat} (hle : m ≤ n) (h : types.nthUp up t m = none) :
    types.nthUp up t n = none := by
  induction hle with
  | refl => exact h
  | step _ ih => simp [nthUp, ih]

theorem distinctBefore_succ {n : Nat} (h : types.DistinctBefore up t n)
    (hnew : ∀ i < n, types.nthUp up t i ≠ types.nthUp up t n) :
    types.DistinctBefore up t (n + 1) := by
  intro k hk i hi
  rcases Nat.lt_succ_iff_lt_or_eq.mp hk with hk | rfl
  · exact h k hk i hi
  · exact hnew i hi

theorem DistinctBefore.mono {m n : Nat} (h : types.DistinctBefore up t n) (hle : m ≤ n) :
    types.DistinctBefore up t m :=
  fun k hk => h k (Nat.lt_of_lt_of_le hk hle)

/-! ### Sequences that end and sequences that return -/

namespace EndsAt

variable {k : Nat} (h : types.EndsAt up t k)
include h

theorem succ_eq_none : types.nthUp up t (k + 1) = none := by
  obtain ⟨d, hd, htop⟩ := h
  rw [nthUp_succ hd, htop]
  rfl

theorem le_of_isSome {n : Nat} (hn : (types.nthUp up t n).isSome) : n ≤ k := by
  by_contra hlong
  rw [nthUp_eq_none_of_le (Nat.not_le.mp hlong) h.succ_eq_none] at hn
  cases hn

theorem isSome_of_le {n : Nat} (hn : n ≤ k) : (types.nthUp up t n).isSome := by
  obtain ⟨d, hd, -⟩ := h
  by_contra hnone
  rw [nthUp_eq_none_of_le hn (by simpa using hnone)] at hd
  cases hd

theorem unique {k' : Nat} (h' : types.EndsAt up t k') : k = k' :=
  Nat.le_antisymm (h'.le_of_isSome (h.isSome_of_le (Nat.le_refl k)))
    (h.le_of_isSome (h'.isSome_of_le (Nat.le_refl k')))

/-- **A sequence that ends does not come to a type twice**: after the second time it
    would go on as after the first. -/
theorem distinctBefore : types.DistinctBefore up t (k + 1) := by
  intro j hj i hi heq
  have hlast := nthUp_add_eq heq (k + 1 - j)
  rw [Nat.add_sub_cancel' (Nat.le_of_lt hj), h.succ_eq_none] at hlast
  have hsome := h.isSome_of_le (n := i + (k + 1 - j)) (by omega)
  rw [hlast] at hsome
  cases hsome

theorem not_returnsAt {j : Nat} {u : TypeDef} (hreturns : types.ReturnsAt up t j u) : False := by
  obtain ⟨i, hi, hbefore⟩ := hreturns.before
  have hle : j ≤ k := h.le_of_isSome (by simp [hreturns.reached])
  exact h.distinctBefore j (Nat.lt_succ_of_le hle) i hi (hbefore.trans hreturns.reached.symm)

end EndsAt

namespace ReturnsAt

variable {j : Nat} {u : TypeDef} (h : types.ReturnsAt up t j u)
include h

theorem le_of_distinctBefore {n : Nat} (hdistinct : types.DistinctBefore up t n) : n ≤ j := by
  obtain ⟨i, hi, hbefore⟩ := h.before
  by_contra hlt
  exact hdistinct j (Nat.not_le.mp hlt) i hi (hbefore.trans h.reached.symm)

theorem unique {j' : Nat} {u' : TypeDef} (h' : types.ReturnsAt up t j' u') : j = j' ∧ u = u' := by
  have hj : j = j' :=
    Nat.le_antisymm (h'.le_of_distinctBefore h.first) (h.le_of_distinctBefore h'.first)
  subst hj
  exact ⟨rfl, Option.some_inj.mp (h.reached.symm.trans h'.reached)⟩

end ReturnsAt

/-! ### The ways in which a walk can stop -/

/-- A walk that may pass `limit` types stops after it has passed `m`. -/
inductive Stops (types : TypeTable) (up : TypeDef → Option Token) (t : TypeDef) (limit : Nat) :
    Nat → Ascent.End → Prop where
  | top {m : Nat} : m ≤ limit → types.EndsAt up t m → Stops types up t limit m .top
  | repeats {m : Nat} {u : TypeDef} : m ≤ limit → types.ReturnsAt up t (m + 1) u →
      Stops types up t limit m (.repeats u.token)
  | tooHigh : (types.nthUp up t (limit + 1)).isSome → types.DistinctBefore up t (limit + 2) →
      Stops types up t limit limit .tooHigh

namespace Stops

variable {limit m m' : Nat} {finish finish' : Ascent.End}

theorem distinctBefore (h : types.Stops up t limit m finish) :
    types.DistinctBefore up t (m + 1) := by
  cases h with
  | top _ hends => exact hends.distinctBefore
  | repeats _ hreturns => exact hreturns.first
  | tooHigh _ hdistinct => exact hdistinct.mono (Nat.le_succ _)

/-- **At most one way to stop is open to a walk.** -/
theorem unique (h : types.Stops up t limit m finish) (h' : types.Stops up t limit m' finish') :
    m = m' ∧ finish = finish' := by
  cases h with
  | top hle hends =>
    cases h' with
    | top _ hends' => exact ⟨hends.unique hends', rfl⟩
    | repeats _ hreturns => exact (hends.not_returnsAt hreturns).elim
    | tooHigh hmore => exact absurd (hends.le_of_isSome hmore) (by omega)
  | repeats hle hreturns =>
    cases h' with
    | top _ hends => exact (hends.not_returnsAt hreturns).elim
    | repeats _ hreturns' =>
      obtain ⟨hm, rfl⟩ := hreturns.unique hreturns'
      exact ⟨Nat.succ.inj hm, rfl⟩
    | tooHigh _ hdistinct => exact absurd (hreturns.le_of_distinctBefore hdistinct) (by omega)
  | tooHigh hmore hdistinct =>
    cases h' with
    | top hle hends => exact absurd (hends.le_of_isSome hmore) (by omega)
    | repeats hle hreturns => exact absurd (hreturns.le_of_distinctBefore hdistinct) (by omega)
    | tooHigh => exact ⟨rfl, rfl⟩

end Stops

/-! ### Walks -/

/-- The walk that begins at `t` and may pass `limit` types. -/
abbrev walk (types : TypeTable) (up : TypeDef → Option Token) (limit : Nat) (t : TypeDef) :
    Ascent :=
  types.ascend up limit [t.token] (up t)

/-- A walk passes the types of the sequence in their order. -/
theorem getElem?_passed_ascend (steps : Nat) (met : List Token) (start : Option Token) {n i : Nat}
    (hstart : types.nthUp up t n = start.bind types.find?)
    (hi : i < (types.ascend up steps met start).passed.length) :
    (types.ascend up steps met start).passed[i]? = types.nthUp up t (n + i) := by
  fun_induction types.ascend up steps met start generalizing n i
  case case5 d hfind _ ih =>
    have hd : types.nthUp up t n = some d := by rw [hstart, Option.bind_some, hfind]
    rcases i with _ | i
    · exact hd.symm
    · rw [List.getElem?_cons_succ, ih (nthUp_succ hd) (Nat.lt_of_succ_lt_succ hi),
        Nat.add_right_comm, Nat.add_assoc]
  all_goals cases hi

theorem getElem?_walk {limit i : Nat} (hi : i ≤ (types.walk up limit t).passed.length) :
    (t :: (types.walk up limit t).passed)[i]? = types.nthUp up t i := by
  rcases i with _ | i
  · rfl
  · rw [List.getElem?_cons_succ, getElem?_passed_ascend limit [t.token] (up t)
      (nthUp_succ nthUp_zero) hi, Nat.zero_add, Nat.add_comm]

/-- The types of the table whose token is listed in `met` are the first `n` of the
    sequence. -/
def Meets (types : TypeTable) (up : TypeDef → Option Token) (t : TypeDef) (n : Nat)
    (met : List Token) : Prop :=
  ∀ e, types.find? e.token = some e → (e.token ∈ met ↔ ∃ i < n, types.nthUp up t i = some e)

theorem meets_cons {n : Nat} {met : List Token} {d : TypeDef} (h : types.Meets up t n met)
    (hd : types.nthUp up t n = some d) (hfind : types.find? d.token = some d) :
    types.Meets up t (n + 1) (d.token :: met) := by
  intro e he
  rw [List.mem_cons, h e he, Nat.exists_lt_succ_right, or_comm, hd, Option.some_inj]
  refine or_congr_right ⟨?_, fun heq => heq ▸ rfl⟩
  intro htoken
  rw [htoken, hfind] at he
  exact Option.some_inj.mp he

theorem distinctBefore_of_not_mem {n : Nat} {met : List Token} {d : TypeDef}
    (hmet : types.Meets up t n met) (hdistinct : types.DistinctBefore up t n)
    (hd : types.nthUp up t n = some d) (hfind : types.find? d.token = some d)
    (hnew : d.token ∉ met) : types.DistinctBefore up t (n + 1) := by
  refine distinctBefore_succ hdistinct ?_
  intro i hi heq
  exact hnew ((hmet d hfind).mpr ⟨i, hi, heq.trans hd⟩)

section Closed

variable (hnamed : types.SelfNamed) (hup : types.ClosedUnder up)
  (ht : types.find? t.token = some t)

include hnamed ht in
theorem find?_token_of_nthUp {n : Nat} {d : TypeDef} (h : types.nthUp up t n = some d) :
    types.find? d.token = some d := by
  rcases n with _ | n
  · cases h
    exact ht
  · obtain ⟨e, -, he⟩ := Option.bind_eq_some_iff.mp h
    obtain ⟨r, -, hr⟩ := Option.bind_eq_some_iff.mp he
    rw [hnamed r d hr, hr]

include hnamed ht in
theorem find?_token_of_mem_walk {limit : Nat} {d : TypeDef}
    (hd : d ∈ t :: (types.walk up limit t).passed) :
    types.find? d.token = some d := by
  obtain ⟨i, hi, hget⟩ := List.mem_iff_getElem.mp hd
  apply find?_token_of_nthUp hnamed ht (n := i)
  rw [← getElem?_walk (Nat.le_of_lt_succ hi), List.getElem?_eq_getElem hi, hget]

include hnamed hup ht

/-- What `up` leads to from a type of the sequence comes next in it. -/
theorem exists_next {n : Nat} {d : TypeDef} (hd : types.nthUp up t n = some d) {r : Token}
    (hr : up d = some r) :
    ∃ e, types.find? r = some e ∧ e.token = r ∧ types.nthUp up t (n + 1) = some e := by
  obtain ⟨e, he⟩ := hup d (mem_toList_of_find? (find?_token_of_nthUp hnamed ht hd)) r hr
  exact ⟨e, he, hnamed r e he, by rw [nthUp_succ hd, hr, Option.bind_some, he]⟩

/-- **A walk stops in one of the ways that are open to it.**  Before its next step it has
    met the first types of the sequence, and they are different. -/
theorem stops_ascend (steps : Nat) (met : List Token) {start : Option Token} {limit n : Nat}
    {d : TypeDef} (hd : types.nthUp up t n = some d) (hstart : up d = start)
    (hlimit : n + steps = limit) (hmet : types.Meets up t (n + 1) met)
    (hdistinct : types.DistinctBefore up t (n + 1)) :
    types.Stops up t limit (n + (types.ascend up steps met start).passed.length)
      (types.ascend up steps met start).finish := by
  fun_induction types.ascend up steps met start generalizing n d
  case case1 => exact .top (Nat.le.intro hlimit) ⟨d, hd, hstart⟩
  case case2 hmem =>
    obtain ⟨e, hfind, rfl, hnext⟩ := exists_next hnamed hup ht hd hstart
    exact .repeats (Nat.le.intro hlimit) ⟨hnext, (hmet e hfind).mp hmem, hdistinct⟩
  case case3 hmem =>
    obtain ⟨e, hfind, rfl, hnext⟩ := exists_next hnamed hup ht hd hstart
    subst hlimit
    exact .tooHigh (by simp [hnext]) (distinctBefore_of_not_mem hmet hdistinct hnext hfind hmem)
  case case4 houtside =>
    obtain ⟨e, hfind, rfl, -⟩ := exists_next hnamed hup ht hd hstart
    rw [houtside] at hfind
    cases hfind
  case case5 hmem _ u hu above ih =>
    obtain ⟨e, hfind, rfl, hnext⟩ := exists_next hnamed hup ht hd hstart
    rw [hu] at hfind
    cases hfind
    rw [List.length_cons, Nat.add_comm _ 1, ← Nat.add_assoc]
    exact ih hnext rfl (by omega) (meets_cons hmet hnext hu)
      (distinctBefore_of_not_mem hmet hdistinct hnext hu hmem)

variable (limit : Nat)

theorem stops_walk :
    types.Stops up t limit (types.walk up limit t).passed.length
      (types.walk up limit t).finish := by
  have hstart : types.Meets up t 1 [t.token] := meets_cons (by simp [Meets]) nthUp_zero ht
  have hstops := stops_ascend hnamed hup ht limit [t.token] nthUp_zero rfl (Nat.zero_add limit)
    hstart (by simp [DistinctBefore])
  rwa [Nat.zero_add] at hstops

/-- A walk never comes by a type twice, nor by the type that it began with. -/
theorem nodup_walk : ((t :: (types.walk up limit t).passed).map fun d => d.token).Nodup := by
  have hdistinct := (stops_walk hnamed hup ht limit).distinctBefore
  apply List.Nodup.map_on
  · intro d hd e he htoken
    have hfind := find?_token_of_mem_walk hnamed ht hd
    rw [htoken, find?_token_of_mem_walk hnamed ht he] at hfind
    exact (Option.some_inj.mp hfind).symm
  · rw [List.nodup_iff_getElem?_ne_getElem?]
    intro i k hi hk
    rw [List.length_cons] at hk
    rw [getElem?_walk (by omega), getElem?_walk (by omega)]
    exact hdistinct k hk i hi

/-- **A walk passes fewer types than the program has**, whatever its limit is. -/
theorem length_passed_walk_lt : (types.walk up limit t).passed.length < types.size := by
  have hsubset : t :: (types.walk up limit t).passed ⊆ types.toList := by
    intro d hd
    exact mem_toList_of_find? (find?_token_of_mem_walk hnamed ht hd)
  exact (nodup_walk hnamed hup ht limit).of_map.length_le_of_subset hsubset

/-- **Every sequence ends or returns**, and does so among as many types as the program
    has. -/
theorem endsAt_or_returnsAt :
    (∃ k < types.size, types.EndsAt up t k) ∨
      ∃ j ≤ types.size, ∃ u, types.ReturnsAt up t j u := by
  -- a walk whose limit is not used up stops for one of the other reasons
  have hshort := length_passed_walk_lt hnamed hup ht types.size
  have hstops := stops_walk hnamed hup ht types.size
  generalize (types.walk up types.size t).passed.length = m at hshort hstops
  generalize (types.walk up types.size t).finish = finish at hstops
  cases hstops with
  | top _ hends => exact .inl ⟨m, hshort, hends⟩
  | repeats _ hreturns => exact .inr ⟨m + 1, hshort, _, hreturns⟩
  | tooHigh => exact absurd hshort (Nat.lt_irrefl _)

end Closed

/-! ### The types around a type -/

theorem enclosing_eq_walk (limit : Nat) : types.enclosing limit t =
    match (types.walk (fun d => d.enclosing) limit t).finish with
    | .top => .ok (types.walk (fun d => d.enclosing) limit t).passed
    | .repeats q => .error (.nestingCycle q)
    | .tooHigh => .error (.depthExceeded limit)
    | .outside q => .error (.unknownType q) := rfl

section Nesting

variable (hnamed : types.SelfNamed) (hup : types.ClosedUnder fun d => d.enclosing)
  (ht : types.find? t.token = some t)
include hnamed hup ht

theorem enclosing_of_endsAt {limit k : Nat} (hle : k ≤ limit)
    (h : types.EndsAt (fun d => d.enclosing) t k) :
    ∃ around, types.enclosing limit t = .ok around ∧ around.length = k ∧
      (∀ i < k, around[i]? = types.nthUp (fun d => d.enclosing) t (i + 1)) ∧
      ((t :: around).map fun d => d.token).Nodup := by
  obtain ⟨hlength, htop⟩ := (stops_walk hnamed hup ht limit).unique (.top hle h)
  refine ⟨_, ?_, hlength, ?_, nodup_walk hnamed hup ht limit⟩
  · rw [enclosing_eq_walk, htop]
  · intro i hi
    rw [← getElem?_walk (hlength.symm ▸ hi), List.getElem?_cons_succ]

theorem enclosing_of_returnsAt {limit j : Nat} {u : TypeDef} (hle : j - 1 ≤ limit)
    (h : types.ReturnsAt (fun d => d.enclosing) t j u) :
    types.enclosing limit t = .error (.nestingCycle u.token) := by
  obtain ⟨m, rfl⟩ : ∃ m, j = m + 1 := by
    obtain ⟨i, hi, -⟩ := h.before
    exact ⟨j - 1, by omega⟩
  obtain ⟨-, hrepeats⟩ := (stops_walk hnamed hup ht limit).unique (.repeats hle h)
  rw [enclosing_eq_walk, hrepeats]

theorem enclosing_eq_depthExceeded {limit : Nat}
    (hends : ∀ k ≤ limit, ¬ types.EndsAt (fun d => d.enclosing) t k)
    (hreturns : ∀ j u, types.ReturnsAt (fun d => d.enclosing) t j u → limit < j - 1) :
    types.enclosing limit t = .error (.depthExceeded limit) := by
  have hstops := stops_walk hnamed hup ht limit
  rw [enclosing_eq_walk]
  generalize (types.walk (fun d => d.enclosing) limit t).passed.length = m at hstops
  generalize (types.walk (fun d => d.enclosing) limit t).finish = finish at hstops ⊢
  cases hstops with
  | top hle h => exact absurd h (hends m hle)
  | repeats hle h => exact absurd (hreturns (m + 1) _ h) (Nat.not_lt.mpr hle)
  | tooHigh => rfl

omit hnamed in
theorem enclosing_ne_unknownType (limit : Nat) (q : Token) :
    types.enclosing limit t ≠ .error (.unknownType q) := by
  intro hunknown
  rw [enclosing_eq_walk] at hunknown
  split at hunknown <;> cases hunknown
  next hend =>
    exact ascend_finish_ne_outside limit [t.token] hup (hup t (mem_toList_of_find? ht)) q hend

end Nesting

end TypeTable

/-- **Each outcome of the walk around a type, and when it is met.**  The enclosing types
    are listed if their sequence ends within the limit.  If it returns instead, the type
    that comes for the second time is named if one type less than its place is within the
    limit.  In all other cases the limit is reported, and no type is ever missing.  The
    walk is over after fewer rounds than the program has types. -/
theorem Program.enclosing_exact {d : Draft} {p : Program} (hbuild : d.toProgram = .ok p)
    {t : TypeDef} (ht : t ∈ p.types.toList) (limit : Nat) :
    (∀ k ≤ limit, p.types.EndsAt (fun d => d.enclosing) t k →
        ∃ around, p.types.enclosing limit t = .ok around ∧ around.length = k ∧
          (∀ i < k, around[i]? = p.types.nthUp (fun d => d.enclosing) t (i + 1)) ∧
          ((t :: around).map fun d => d.token).Nodup) ∧
      (∀ j u, p.types.ReturnsAt (fun d => d.enclosing) t j u →
        (p.types.enclosing limit t = .error (.nestingCycle u.token) ↔ j - 1 ≤ limit)) ∧
      ((∀ k ≤ limit, ¬ p.types.EndsAt (fun d => d.enclosing) t k) →
        (∀ j u, p.types.ReturnsAt (fun d => d.enclosing) t j u → limit < j - 1) →
        p.types.enclosing limit t = .error (.depthExceeded limit)) ∧
      (∀ q, p.types.enclosing limit t ≠ .error (.unknownType q)) ∧
      (p.types.ascend (fun d => d.enclosing) limit [t.token] t.enclosing).passed.length <
        p.types.size ∧
      ((∃ k < p.types.size, p.types.EndsAt (fun d => d.enclosing) t k) ∨
        ∃ j ≤ p.types.size, ∃ u, p.types.ReturnsAt (fun d => d.enclosing) t j u) := by
  have hnamed := (d.sealed_of_toProgram hbuild).selfNamed
  have hup := (d.linked_of_toProgram hbuild).closedUnder_enclosing
  have hfind := (d.sealed_of_toProgram hbuild).find?_token ht
  refine ⟨?_, ?_, TypeTable.enclosing_eq_depthExceeded hnamed hup hfind,
    TypeTable.enclosing_ne_unknownType hup hfind limit,
    TypeTable.length_passed_walk_lt hnamed hup hfind limit,
    TypeTable.endsAt_or_returnsAt hnamed hup hfind⟩
  · intro k hle hends
    exact TypeTable.enclosing_of_endsAt hnamed hup hfind hle hends
  · intro j u hreturns
    refine ⟨?_, fun hle => TypeTable.enclosing_of_returnsAt hnamed hup hfind hle hreturns⟩
    intro hcycle
    by_contra hlong
    have hdeep : p.types.enclosing limit t = .error (.depthExceeded limit) := by
      apply TypeTable.enclosing_eq_depthExceeded hnamed hup hfind
      · intro k _ hends
        exact hends.not_returnsAt hreturns
      · intro j' u' hreturns'
        rw [(hreturns'.unique hreturns).1]
        exact Nat.not_le.mp hlong
    rw [hdeep] at hcycle
    cases hcycle

/-! A type nested in one of two types that are nested in each other, and a type nested in
one that is nested in nothing. -/

def whirlDraft : Draft :=
  let app : Assembly := ⟨"App", .unknown, none⟩
  Draft.empty.registerAll [
    .type { assembly := app, name := ⟨"App", "Leaf"⟩, enclosing := some (.ofTypeIndex 1) },
    .type { assembly := app, name := ⟨"App", "Inner"⟩, enclosing := some (.ofTypeIndex 2) },
    .type { assembly := app, name := ⟨"App", "Outer"⟩, enclosing := some (.ofTypeIndex 1) },
    .type { assembly := app, name := ⟨"App", "Cell"⟩, enclosing := some (.ofTypeIndex 4) },
    .type { assembly := app, name := ⟨"App", "Table"⟩ }]

def whirl : Program := whirlDraft.toProgram.toOption.get (by decide +kernel)

theorem toProgram_whirlDraft : whirlDraft.toProgram = .ok whirl :=
  Draft.toProgram_of_isSome (by decide +kernel)

theorem Program.enclosing_exact_whirl :
    (∃ leaf ∈ whirl.types.toList, ∃ inner,
        whirl.types.ReturnsAt (fun d => d.enclosing) leaf 3 inner ∧
        whirl.types.enclosing 2 leaf = .error (.nestingCycle inner.token) ∧
        whirl.types.enclosing 1 leaf = .error (.depthExceeded 1)) ∧
      ∃ cell ∈ whirl.types.toList, whirl.types.EndsAt (fun d => d.enclosing) cell 1 ∧
        (∃ around, whirl.types.enclosing 1 cell = .ok around ∧ around.length = 1) ∧
        whirl.types.enclosing 0 cell = .error (.depthExceeded 0) := by
  constructor
  · have hreturning : ∃ leaf ∈ whirl.types.toList, ∃ inner ∈ whirl.types.toList,
        whirl.types.nthUp (fun d => d.enclosing) leaf 3 = some inner ∧
        (∃ i < 3, whirl.types.nthUp (fun d => d.enclosing) leaf i = some inner) ∧
        ∀ k < 3, ∀ i < k, whirl.types.nthUp (fun d => d.enclosing) leaf i ≠
          whirl.types.nthUp (fun d => d.enclosing) leaf k := by
      decide +kernel
    obtain ⟨leaf, hleaf, inner, -, hreached, hbefore, hfirst⟩ := hreturning
    have hreturns : whirl.types.ReturnsAt (fun d => d.enclosing) leaf 3 inner :=
      ⟨hreached, hbefore, hfirst⟩
    refine ⟨leaf, hleaf, inner, hreturns, ?_, ?_⟩
    · exact ((enclosing_exact toProgram_whirlDraft hleaf 2).2.1 3 inner hreturns).mpr (by decide)
    · apply (enclosing_exact toProgram_whirlDraft hleaf 1).2.2.1
      · intro k _ hends
        exact hends.not_returnsAt hreturns
      · intro j u hreturns'
        rw [(hreturns'.unique hreturns).1]
        decide
  · have hending : ∃ cell ∈ whirl.types.toList, ∃ table ∈ whirl.types.toList,
        whirl.types.nthUp (fun d => d.enclosing) cell 1 = some table ∧ table.enclosing = none := by
      decide +kernel
    obtain ⟨cell, hcell, table, -, hreached, htop⟩ := hending
    have hends : whirl.types.EndsAt (fun d => d.enclosing) cell 1 := ⟨table, hreached, htop⟩
    refine ⟨cell, hcell, hends, ?_, ?_⟩
    · obtain ⟨around, haround, hlength, -⟩ :=
        (enclosing_exact toProgram_whirlDraft hcell 1).1 1 (Nat.le_refl 1) hends
      exact ⟨around, haround, hlength⟩
    · apply (enclosing_exact toProgram_whirlDraft hcell 0).2.2.1
      · intro k hle hends'
        rw [hends'.unique hends] at hle
        cases hle
      · intro j u hreturns
        exact (hends.not_returnsAt hreturns).elim

end TrimGuard
