/-
  TrimGuard/Proofs/PassRun.lean
  =============================
  **A pass over a sealed program.**

  With the plan of a type settled once and for all, so are the writes it orders
  (`Pass.writes`).  Processing a type carries out its writes, whatever is in the
  store and in the memory (`process_spec`).  Processing a list of types succeeds
  if every one of them has a plan, and then carries out the writes of all, one
  type after the other (`processAll_spec`); its tally accounts for the difference
  between the store before and after (`Accounts`).
-/
import TrimGuard.Proofs.ChangeCount
import TrimGuard.Proofs.SettledPlan

namespace TrimGuard

namespace Pass

/-! ### The writes of a type -/

/-- The writes that the settled plan of a type orders; none if it has no plan. -/
def writes (pass : Pass) (t : TypeDef) : List Retention.Write :=
  match pass.settled t with
  | .ok plan => plan.orders.map Order.write
  | .error _ => []

variable {pass : Pass}

/-- A plan orders nothing, or members of the type, or the type and all those
    around it, according to the role of the type and where it comes from. -/
theorem settled_cases {t : TypeDef} {plan : Plan} (h : pass.settled t = .ok plan) :
    pass.profile.roleOf pass.program.types t = .ok plan.role ∧
      ((plan.role.isBridged = false ∧ plan.orders = []) ∨
       (plan.role.isBridged = true ∧ (pass.profile.provenance t.assembly).isProduct = true ∧
          plan.orders = (pass.settledSurface plan.role t).map (.member t)) ∨
       (plan.role.isBridged = true ∧ (pass.profile.provenance t.assembly).isProduct = false ∧
          ∃ around, pass.program.types.NestingChain t around ∧
            plan.orders = (t :: around).map .whole)) := by
  unfold settled at h
  cases hrole : pass.profile.roleOf pass.program.types t with
  | error fault => rw [hrole] at h; cases h
  | ok role =>
    simp only [hrole, Except.bind] at h
    cases hbridged : role.isBridged with
    | false =>
      simp only [hbridged, Bool.not_false, if_true] at h
      cases h
      exact ⟨rfl, Or.inl ⟨hbridged, rfl⟩⟩
    | true =>
      simp only [hbridged, Bool.not_true, Bool.false_eq_true, if_false] at h
      cases hproduct : (pass.profile.provenance t.assembly).isProduct with
      | true =>
        simp only [hproduct, if_true] at h
        cases h
        exact ⟨rfl, Or.inr (Or.inl ⟨hbridged, rfl, rfl⟩)⟩
      | false =>
        simp only [hproduct, Bool.false_eq_true, if_false] at h
        cases haround : pass.program.types.enclosing pass.profile.maxNesting t with
        | error fault => rw [haround] at h; cases h
        | ok around =>
          rw [haround] at h
          cases h
          have hchain := TypeTable.nestingChain_of_enclosing haround
          exact ⟨rfl, Or.inr (Or.inr ⟨hbridged, rfl, around, hchain, rfl⟩)⟩

/-! ### Processing a type -/

section Process

variable (hp : pass.program.Sealed) {s : Progress} (hs : s.memo.Sound pass.profile)
include hp hs

/-- **Processing a type carries out its settled plan.** -/
theorem process_spec (t : TypeDef) :
    (pass.process t s).1 =
        (pass.settled t).map (fun plan =>
          Tally.ofType plan.role (s.retention.obey plan.orders).1) ∧
      (pass.process t s).2.retention = s.retention.writeAll (pass.writes t) ∧
      (pass.process t s).2.memo.Sound pass.profile := by
  obtain ⟨hplan, hsound⟩ := answers_plan hp t s.memo hs
  unfold process writes
  rw [← hplan]
  cases hrun : (pass.plan t).run s.memo with
  | mk outcome memo =>
    rw [hrun] at hsound
    cases outcome with
    | error fault => exact ⟨rfl, rfl, hsound⟩
    | ok plan => exact ⟨rfl, Retention.obey_snd _ _, hsound⟩

theorem sound_process (t : TypeDef) : (pass.process t s).2.memo.Sound pass.profile :=
  (process_spec hp hs t).2.2

theorem retention_process (t : TypeDef) :
    (pass.process t s).2.retention = s.retention.writeAll (pass.writes t) :=
  (process_spec hp hs t).2.1

theorem process_eq_ok_iff (t : TypeDef) (tally : Tally) :
    (pass.process t s).1 = .ok tally ↔
      ∃ plan, pass.settled t = .ok plan ∧
        tally = Tally.ofType plan.role (s.retention.obey plan.orders).1 := by
  rw [(process_spec hp hs t).1]
  cases pass.settled t with
  | error fault => simp [Except.map]
  | ok plan => simp [Except.map, eq_comm]

end Process

/-! ### Processing many types -/

/-- What every processing of a single type preserves, the processing of many
    preserves, whether or not it comes to the end. -/
theorem processAll_preserves {P : Progress → Prop} {ts : List TypeDef}
    (hstep : ∀ t ∈ ts, ∀ s, P s → P (pass.process t s).2) (sum : Tally) {s : Progress} (h : P s) :
    P (pass.processAll sum ts s).2 := by
  induction ts generalizing sum s with
  | nil => exact h
  | cons t ts ih =>
    have hhead := hstep t List.mem_cons_self s h
    have htail : ∀ u ∈ ts, ∀ s, P s → P (pass.process u s).2 :=
      fun u hu => hstep u (List.mem_cons_of_mem _ hu)
    unfold processAll
    cases hprocess : pass.process t s with
    | mk outcome s' =>
      rw [hprocess] at hhead
      cases outcome with
      | error fault => exact hhead
      | ok tally => exact ih htail (sum + tally) hhead

end Pass

/-! ### Tallies -/

namespace Tally

theorem ext_fields {a b : Tally} (htypes : a.types = b.types)
    (hbridge : a.bridgeObjects = b.bridgeObjects) (hwrap : a.handleWrappers = b.handleWrappers)
    (hwhole : a.wholeTypes = b.wholeTypes) (hmethods : a.methods = b.methods) : a = b := by
  cases a
  cases b
  simp only at htypes hbridge hwrap hwhole hmethods
  subst htypes hbridge hwrap hwhole hmethods
  rfl

theorem add_assoc (a b c : Tally) : a + b + c = a + (b + c) :=
  ext_fields (Nat.add_assoc _ _ _) (Nat.add_assoc _ _ _) (Nat.add_assoc _ _ _)
    (Nat.add_assoc _ _ _) (Nat.add_assoc _ _ _)

theorem zero_add (a : Tally) : 0 + a = a :=
  ext_fields (Nat.zero_add _) (Nat.zero_add _) (Nat.zero_add _) (Nat.zero_add _) (Nat.zero_add _)

theorem add_zero (a : Tally) : a + 0 = a :=
  ext_fields (Nat.add_zero _) (Nat.add_zero _) (Nat.add_zero _) (Nat.add_zero _) (Nat.add_zero _)

end Tally

namespace Pass

variable {pass : Pass}

/-- The role of a type, if it has one. -/
def role? (pass : Pass) (t : TypeDef) : Option Role :=
  (pass.profile.roleOf pass.program.types t).toOption

theorem role?_eq_some_iff (pass : Pass) (t : TypeDef) (role : Role) :
    pass.role? t = some role ↔ pass.profile.roleOf pass.program.types t = .ok role := by
  unfold role?
  cases pass.profile.roleOf pass.program.types t with
  | error fault => simp [Except.toOption]
  | ok role' => simp [Except.toOption]

/-- The tally counts the given types by their role, and what the store has gained
    on the way from `r` to `r'`. -/
structure Accounts (pass : Pass) (ts : List TypeDef) (r r' : Retention) (tally : Tally) :
    Prop where
  types : tally.types = ts.length
  bridgeObjects : tally.bridgeObjects = ts.countP fun t => pass.role? t = some .bridgeObject
  handleWrappers : tally.handleWrappers = ts.countP fun t => pass.role? t = some .handleWrapper
  wholeTypes : r'.count .all = r.count .all + tally.wholeTypes
  methods : r'.keptCount = r.keptCount + tally.methods

namespace Accounts

variable {ts ts' : List TypeDef} {r r' r'' : Retention} {tally tally' : Tally}

theorem nil (r : Retention) : Accounts pass [] r r 0 := ⟨rfl, rfl, rfl, rfl, rfl⟩

theorem append (h : Accounts pass ts r r' tally) (h' : Accounts pass ts' r' r'' tally') :
    Accounts pass (ts ++ ts') r r'' (tally + tally') where
  types := by
    rw [List.length_append, ← h.types, ← h'.types]
    rfl
  bridgeObjects := by
    rw [List.countP_append, ← h.bridgeObjects, ← h'.bridgeObjects]
    rfl
  handleWrappers := by
    rw [List.countP_append, ← h.handleWrappers, ← h'.handleWrappers]
    rfl
  wholeTypes := by
    rw [h'.wholeTypes, h.wholeTypes, Nat.add_assoc]
    rfl
  methods := by
    rw [h'.methods, h.methods, Nat.add_assoc]
    rfl

/-- There is one tally for each difference of two stores, in whatever order the
    types are counted. -/
theorem unique (h : Accounts pass ts r r' tally) (h' : Accounts pass ts' r r' tally')
    (hperm : ts.Perm ts') : tally = tally' := by
  refine Tally.ext_fields ?_ ?_ ?_ ?_ ?_
  · rw [h.types, h'.types, hperm.length_eq]
  · rw [h.bridgeObjects, h'.bridgeObjects, hperm.countP_eq]
  · rw [h.handleWrappers, h'.handleWrappers, hperm.countP_eq]
  · exact Nat.add_left_cancel (h.wholeTypes.symm.trans h'.wholeTypes)
  · exact Nat.add_left_cancel (h.methods.symm.trans h'.methods)

end Accounts

section ProcessAll

variable (hp : pass.program.Sealed)
include hp

theorem accounts_process {s : Progress} (hs : s.memo.Sound pass.profile) {t : TypeDef}
    {tally : Tally} (h : (pass.process t s).1 = .ok tally) :
    Accounts pass [t] s.retention (pass.process t s).2.retention tally := by
  obtain ⟨plan, hplan, rfl⟩ := (process_eq_ok_iff hp hs t tally).mp h
  have hretention : (pass.process t s).2.retention = (s.retention.obey plan.orders).2 := by
    rw [retention_process hp hs, Retention.obey_snd, writes, hplan]
  have hrole : pass.role? t = some plan.role :=
    (role?_eq_some_iff pass t plan.role).mpr (settled_cases hplan).1
  rw [hretention]
  constructor
  case types => rfl
  case bridgeObjects => cases hr : plan.role <;> simp [Tally.ofType, hrole, hr]
  case handleWrappers => cases hr : plan.role <;> simp [Tally.ofType, hrole, hr]
  case wholeTypes => exact Retention.count_obey _ _
  case methods => exact Retention.keptCount_obey _ _

/-- **Types that all have a plan are processed to the end.**  The writes of all are
    carried out in order, and the tally grows by what they changed. -/
theorem processAll_spec {ts : List TypeDef} (hts : ∀ t ∈ ts, ∃ plan, pass.settled t = .ok plan)
    (sum : Tally) {s : Progress} (hs : s.memo.Sound pass.profile) :
    ∃ tally, (pass.processAll sum ts s).1 = .ok (sum + tally) ∧
      (pass.processAll sum ts s).2.retention = s.retention.writeAll (ts.flatMap pass.writes) ∧
      Accounts pass ts s.retention (pass.processAll sum ts s).2.retention tally := by
  induction ts generalizing sum s with
  | nil => exact ⟨0, by rw [Tally.add_zero]; rfl, rfl, Accounts.nil _⟩
  | cons t ts ih =>
    obtain ⟨plan, hplan⟩ := hts t List.mem_cons_self
    have hhead := (process_eq_ok_iff hp hs t _).mpr ⟨plan, hplan, rfl⟩
    have haccounts := accounts_process hp hs hhead
    have hwrites := retention_process hp hs t
    have hsound := sound_process hp hs t
    unfold processAll
    cases hprocess : pass.process t s with
    | mk outcome s' =>
      rw [hprocess] at hhead haccounts hwrites hsound
      subst hhead
      obtain ⟨tally, hok, hretention, hrest⟩ :=
        ih (fun u hu => hts u (List.mem_cons_of_mem _ hu)) (sum + _) hsound
      refine ⟨_ + tally, ?_, ?_, haccounts.append hrest⟩
      · rw [← Tally.add_assoc]
        exact hok
      · rw [hretention, hwrites, List.flatMap_cons, Retention.writeAll_append]

/-- Types that are processed to the end all have a plan. -/
theorem settled_of_processAll {ts : List TypeDef} {sum tally : Tally} {s : Progress}
    (hs : s.memo.Sound pass.profile) (h : (pass.processAll sum ts s).1 = .ok tally) :
    ∀ t ∈ ts, ∃ plan, pass.settled t = .ok plan := by
  induction ts generalizing sum s with
  | nil =>
    intro t ht
    cases ht
  | cons t ts ih =>
    have hsound := sound_process hp hs t
    have hhead := process_eq_ok_iff hp hs t
    unfold processAll at h
    cases hprocess : pass.process t s with
    | mk outcome s' =>
      rw [hprocess] at h hsound hhead
      cases outcome with
      | error fault => cases h
      | ok first =>
        intro u hu
        rcases List.mem_cons.mp hu with rfl | hu
        · obtain ⟨plan, hplan, -⟩ := (hhead first).mp rfl
          exact ⟨plan, hplan⟩
        · exact ih hsound h u hu

theorem processAll_ok_iff {ts : List TypeDef} {s : Progress} (hs : s.memo.Sound pass.profile) :
    (∃ tally, (pass.processAll 0 ts s).1 = .ok tally) ↔
      ∀ t ∈ ts, ∃ plan, pass.settled t = .ok plan := by
  constructor
  · rintro ⟨tally, htally⟩
    exact settled_of_processAll hp hs htally
  · intro hplans
    obtain ⟨tally, htally, -⟩ := processAll_spec hp hplans 0 hs
    exact ⟨0 + tally, htally⟩

end ProcessAll

/-! ### Runs -/

theorem run_fst (s : Progress) :
    (pass.run s).1 = (pass.processAll 0 pass.program.types.toList s).1 := by
  unfold run
  split <;> simp [*]

theorem run_retention (s : Progress) :
    (pass.run s).2.retention = (pass.processAll 0 pass.program.types.toList s).2.retention := by
  unfold run
  split <;> simp [*, Progress.note]

theorem run_memo (s : Progress) :
    (pass.run s).2.memo = (pass.processAll 0 pass.program.types.toList s).2.memo := by
  unfold run
  split <;> simp [*, Progress.note]

/-- **A run that succeeds carries out the writes of all types.** -/
theorem run_ok (hp : pass.program.Sealed) {s : Progress} (hs : s.memo.Sound pass.profile)
    {tally : Tally} (h : (pass.run s).1 = .ok tally) :
    (∀ t ∈ pass.program.types.toList, ∃ plan, pass.settled t = .ok plan) ∧
      (pass.run s).2.retention =
        s.retention.writeAll (pass.program.types.toList.flatMap pass.writes) ∧
      Accounts pass pass.program.types.toList s.retention (pass.run s).2.retention tally := by
  rw [run_fst] at h
  have hall := settled_of_processAll hp hs h
  obtain ⟨sum, hsum, hretention, haccounts⟩ := processAll_spec hp hall 0 hs
  rw [h, Tally.zero_add] at hsum
  cases hsum
  rw [run_retention]
  exact ⟨hall, hretention, haccounts⟩

end Pass

end TrimGuard
