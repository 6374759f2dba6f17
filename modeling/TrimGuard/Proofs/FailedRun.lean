/-
  TrimGuard/Proofs/FailedRun.lean
  ===============================
  **What a fault leaves behind.**

  A plan is complete before the first of its writes, so a type whose plan cannot
  be made leaves the store as it was (`process_error`), whichever step of the plan
  the fault comes from and whether or not the type belongs to the program.

  A pass stops at the first such type.  Over a sealed program it can be told
  without running which one that is: whether a type has a plan depends neither on
  the store nor on the types before it (`exists_first_unplanned`).  What a failed
  run leaves is therefore what the types in front of that one would have left on
  their own (`run_error`).
-/
import TrimGuard.Proofs.PassRun
import TrimGuard.Draft.Seal

namespace TrimGuard

namespace Pass

variable {pass : Pass}

/-! ### One type -/

/-- A type whose plan cannot be made changes nothing but what is remembered. -/
theorem process_error {t : TypeDef} {s : Progress} {fault : Fault}
    (h : (pass.process t s).1 = .error fault) :
    ∃ memo, (pass.process t s).2 = { s with memo } := by
  unfold process at h ⊢
  rcases hplan : (pass.plan t).run s.memo with ⟨_ | plan, memo⟩
  · exact ⟨memo, rfl⟩
  · rw [hplan] at h
    cases h

theorem process_eq_error_iff (hp : pass.program.Sealed) {s : Progress}
    (hs : s.memo.Sound pass.profile) (t : TypeDef) (fault : Fault) :
    (pass.process t s).1 = .error fault ↔ pass.settled t = .error fault := by
  rw [(process_spec hp hs t).1]
  rcases pass.settled t with fault' | plan <;> simp [Except.map]

/-! ### Many types -/

theorem processAll_append (sum : Tally) (ts us : List TypeDef) (s : Progress) :
    pass.processAll sum (ts ++ us) s =
      match pass.processAll sum ts s with
      | (.error fault, s) => (.error fault, s)
      | (.ok sum, s) => pass.processAll sum us s := by
  induction ts generalizing sum s with
  | nil => rfl
  | cons t ts ih =>
    simp only [List.cons_append, processAll]
    rcases pass.process t s with ⟨fault | tally, s'⟩
    · rfl
    · exact ih (sum + tally) s'

/-- Either all of the types have a plan, or there is a first one that has none. -/
theorem exists_first_unplanned (pass : Pass) (ts : List TypeDef) :
    (∀ t ∈ ts, ∃ plan, pass.settled t = .ok plan) ∨
      ∃ before t after fault, ts = before ++ t :: after ∧
        (∀ u ∈ before, ∃ plan, pass.settled u = .ok plan) ∧ pass.settled t = .error fault := by
  induction ts with
  | nil =>
    left
    intro t ht
    cases ht
  | cons t ts ih =>
    rcases hsettled : pass.settled t with fault | plan
    · right
      refine ⟨[], t, ts, fault, rfl, ?_, hsettled⟩
      intro u hu
      cases hu
    · have hhead : ∃ plan, pass.settled t = .ok plan := ⟨plan, hsettled⟩
      rcases ih with hall | ⟨before, u, after, fault, rfl, hbefore, hu⟩
      · left
        exact List.forall_mem_cons.mpr ⟨hhead, hall⟩
      · right
        exact ⟨t :: before, u, after, fault, rfl, List.forall_mem_cons.mpr ⟨hhead, hbefore⟩, hu⟩

section Sealed

variable (hp : pass.program.Sealed) {s : Progress} (hs : s.memo.Sound pass.profile)
include hp hs

theorem sound_processAll (sum : Tally) (ts : List TypeDef) :
    (pass.processAll sum ts s).2.memo.Sound pass.profile := by
  apply processAll_preserves (P := fun s => s.memo.Sound pass.profile) _ sum hs
  intro t _ s hs
  exact sound_process hp hs t

/-- **Processing ends at the first type without a plan.**  The writes of the types
    before it have been carried out, and no others. -/
theorem processAll_fault {before : List TypeDef} {t : TypeDef} {fault : Fault}
    (hbefore : ∀ u ∈ before, ∃ plan, pass.settled u = .ok plan)
    (ht : pass.settled t = .error fault) (sum : Tally) (after : List TypeDef) :
    (pass.processAll sum (before ++ t :: after) s).1 = .error fault ∧
      (pass.processAll sum (before ++ t :: after) s).2.retention =
        s.retention.writeAll (before.flatMap pass.writes) := by
  obtain ⟨tally, hok, hretention, -⟩ := processAll_spec hp hbefore sum hs
  have hsound := sound_processAll hp hs sum before
  rw [processAll_append]
  rcases hrun : pass.processAll sum before s with ⟨outcome, s'⟩
  rw [hrun] at hok hretention hsound
  subst hok
  have hfault := (process_eq_error_iff hp hsound t fault).mpr ht
  obtain ⟨memo, hsame⟩ := process_error hfault
  rcases hprocess : pass.process t s' with ⟨outcome', s''⟩
  rw [hprocess] at hfault hsame
  subst hfault hsame
  simp only [processAll, hprocess, true_and]
  exact hretention

/-- A run that fails leaves the writes of the types before the first one without a
    plan, whose fault is that of the run. -/
theorem run_error {fault : Fault} (h : (pass.run s).1 = .error fault) :
    ∃ before t after, pass.program.types.toList = before ++ t :: after ∧
      (∀ u ∈ before, ∃ plan, pass.settled u = .ok plan) ∧ pass.settled t = .error fault ∧
      (pass.run s).2.retention = s.retention.writeAll (before.flatMap pass.writes) := by
  rw [run_fst] at h
  rw [run_retention]
  rcases pass.exists_first_unplanned pass.program.types.toList with
    hall | ⟨before, t, after, fault', hsplit, hbefore, ht⟩
  · obtain ⟨tally, hok, -⟩ := processAll_spec hp hall 0 hs
    rw [hok] at h
    cases h
  · obtain ⟨herror, hretention⟩ := processAll_fault hp hs hbefore ht 0 after
    rw [hsplit, herror] at h
    cases h
    refine ⟨before, t, after, hsplit, hbefore, ht, ?_⟩
    rw [hsplit]
    exact hretention

end Sealed

/-! ### A program that fails half-way

Three bridged consumer types, the second of which is nested in itself. -/

def knottedDraft : Draft :=
  let ios : Assembly := ⟨"Xamarin.iOS", .unknown, none⟩
  let app : Assembly := ⟨"App", .unknown, none⟩
  { types := #[
      { assembly := ios, name := ⟨"Foundation", "NSObject"⟩ },
      { assembly := app, name := ⟨"App", "Widget"⟩, base := some (.ofTypeIndex 0) },
      { assembly := app, name := ⟨"App", "Knot"⟩, enclosing := some (.ofTypeIndex 2),
        base := some (.ofTypeIndex 0) },
      { assembly := app, name := ⟨"App", "Late"⟩, base := some (.ofTypeIndex 0) }] }

def knotted : Pass where
  program := knottedDraft.toProgram.toOption.get (by decide +kernel)
  profile := .iOS

theorem toProgram_knottedDraft : knottedDraft.toProgram = .ok knotted.program :=
  knottedDraft.toProgram_of_isSome (by decide +kernel)

theorem run_knotted : (knotted.run {}).1 = .error (.nestingCycle (.ofTypeIndex 2)) := by
  decide +kernel

/-! ### The outcome -/

/-- **Faults leave nothing half done.**  A type that fails leaves the store and the
    log as they were, in any program and for any type.  A run that fails does so at
    the first type that fails by itself, with the fault of that type, and leaves the
    store that results from processing the types before it. -/
theorem store_after_fault :
    (∀ (t : TypeDef) (s : Progress) (fault : Fault), (pass.process t s).1 = .error fault →
        (pass.process t s).2.retention = s.retention ∧
          (pass.process t s).2.notices = s.notices) ∧
      ∀ (d : Draft) (s : Progress) (fault : Fault), d.toProgram = .ok pass.program →
        s.memo.Sound pass.profile → (pass.run s).1 = .error fault →
        ∃ before t after, pass.program.types.toList = before ++ t :: after ∧
          (∀ u ∈ before, ∀ s' : Progress, s'.memo.Sound pass.profile →
            ∃ tally, (pass.process u s').1 = .ok tally) ∧
          (∀ s' : Progress, s'.memo.Sound pass.profile →
            (pass.process t s').1 = .error fault) ∧
          (∃ tally, (pass.processAll 0 before s).1 = .ok tally) ∧
          (pass.run s).2.retention = (pass.processAll 0 before s).2.retention := by
  constructor
  · intro t s fault h
    obtain ⟨memo, hsame⟩ := process_error h
    rw [hsame]
    exact ⟨rfl, rfl⟩
  · intro d s fault hbuild hs hrun
    have hp := d.sealed_of_toProgram hbuild
    obtain ⟨before, t, after, hsplit, hbefore, ht, hretention⟩ := run_error hp hs hrun
    obtain ⟨tally, hok, hprefix, -⟩ := processAll_spec hp hbefore 0 hs
    refine ⟨before, t, after, hsplit, ?_, ?_, ⟨_, hok⟩, hretention.trans hprefix.symm⟩
    · intro u hu s' hs'
      obtain ⟨plan, hplan⟩ := hbefore u hu
      exact ⟨_, (process_eq_ok_iff hp hs' u _).mpr ⟨plan, hplan, rfl⟩⟩
    · intro s' hs'
      exact (process_eq_error_iff hp hs' t fault).mpr ht

theorem store_after_fault_knotted :
    (knotted.run {}).1 = .error (.nestingCycle (.ofTypeIndex 2)) ∧
      ∃ before t after, knotted.program.types.toList = before ++ t :: after ∧
        (knotted.process t {}).1 = .error (.nestingCycle (.ofTypeIndex 2)) ∧
        (knotted.process t {}).2.retention = .empty ∧
        (knotted.run {}).2.retention = (knotted.processAll 0 before {}).2.retention ∧
        (knotted.run {}).2.retention.level (.ofTypeIndex 1) = .all ∧
        (knotted.run {}).2.retention.level (.ofTypeIndex 3) = .none := by
  have hmemo := Provenance.Memo.sound_empty knotted.profile
  obtain ⟨before, t, after, hsplit, -, ht, -, hretention⟩ :=
    store_after_fault.2 _ {} _ toProgram_knottedDraft hmemo run_knotted
  have hfault := ht {} hmemo
  have hempty := (store_after_fault.1 t {} _ hfault).1
  have hwidget : (knotted.run {}).2.retention.level (.ofTypeIndex 1) = .all := by decide +kernel
  have hlate : (knotted.run {}).2.retention.level (.ofTypeIndex 3) = .none := by decide +kernel
  exact ⟨run_knotted, before, t, after, hsplit, hfault, hempty, hretention, hwidget, hlate⟩

end Pass

end TrimGuard
