/-
  TrimGuard/Proofs/RepeatedRun.lean
  =================================
  **A second run finds nothing left to do.**

  A write that has been carried out is done, and whatever is written afterwards
  does not undo it (`Done.write`): levels only rise, and a retained method stays
  retained, under whichever type it was put down.  Writes that are all done leave
  the store as it is.

  Since plans do not look at the store, a second run plans what the first one did.
  It comes as far as the first one did, too.  So all of its writes are done, also
  where the first run failed half-way and whatever the store held before it.
-/
import TrimGuard.Proofs.FailedRun
import TrimGuard.Proofs.PassOutcome

namespace TrimGuard

/-! ### Writes that are done -/

namespace Level

theorem not_max_lt {a c : Level} (h : ¬ a < c) (b : Level) : ¬ max a b < c := by
  revert h
  cases a <;> cases b <;> cases c <;> decide

theorem not_lt_self (a : Level) : ¬ a < a := by
  cases a <;> decide

end Level

namespace Retention

/-- Carrying out the write changes nothing. -/
def Done (r : Retention) (w : Write) : Prop := r.write w = (false, r)

variable {r : Retention}

theorem done_raise_iff (t : Token) (level : Level) :
    r.Done (.raise t level) ↔ ¬ r.level t < level := by
  simp only [Done, write, raise]
  split <;> simp_all

theorem done_keep_iff (owner method : Token) :
    r.Done (.keep owner method) ↔ r.isKept method = true := by
  simp only [Done, write, keep]
  split <;> simp_all

theorem done_write (r : Retention) (w : Write) : (r.write w).2.Done w := by
  rcases w with ⟨t, level⟩ | ⟨owner, method⟩
  · rw [done_raise_iff, write, level_raise, if_pos rfl, Level.max_comm]
    exact Level.not_max_lt (Level.not_lt_self level) _
  · rw [done_keep_iff, write, isKept_keep]
    simp

theorem Done.write {w : Write} (h : r.Done w) (v : Write) : (r.write v).2.Done w := by
  rcases w with ⟨t, level⟩ | ⟨owner, method⟩
  · rw [done_raise_iff] at h ⊢
    rcases v with ⟨u, level'⟩ | ⟨owner', method'⟩
    · rw [Retention.write, level_raise]
      split
      · exact Level.not_max_lt h _
      · exact h
    · rw [Retention.write, level_keep]
      split
      · exact Level.not_max_lt h _
      · exact h
  · rw [done_keep_iff] at h ⊢
    rcases v with ⟨u, level'⟩ | ⟨owner', method'⟩
    · rw [Retention.write, isKept_raise]
      exact h
    · rw [Retention.write, isKept_keep, h, Bool.or_true]

theorem Done.writeAll {w : Write} (h : r.Done w) (ws : List Write) : (r.writeAll ws).Done w := by
  induction ws generalizing r with
  | nil => exact h
  | cons v ws ih => exact ih (h.write v)

theorem done_writeAll (r : Retention) {w : Write} {ws : List Write} (hw : w ∈ ws) :
    (r.writeAll ws).Done w := by
  induction ws generalizing r with
  | nil => cases hw
  | cons v ws ih =>
    rcases List.mem_cons.mp hw with rfl | hw
    · exact (r.done_write w).writeAll ws
    · exact ih _ hw

theorem writeAll_of_done {ws : List Write} (h : ∀ w ∈ ws, r.Done w) : r.writeAll ws = r := by
  induction ws with
  | nil => rfl
  | cons w ws ih =>
    obtain ⟨hhead, htail⟩ := List.forall_mem_cons.mp h
    rw [writeAll_cons, hhead]
    exact ih htail

/-- **Carrying out the same writes again changes nothing.** -/
theorem writeAll_writeAll (r : Retention) (ws : List Write) :
    (r.writeAll ws).writeAll ws = r.writeAll ws :=
  writeAll_of_done fun _ hw => r.done_writeAll hw

theorem obey_of_done {os : List Order} (h : ∀ o ∈ os, r.Done o.write) : r.obey os = ([], r) := by
  induction os with
  | nil => rfl
  | cons o os ih =>
    obtain ⟨hhead, htail⟩ := List.forall_mem_cons.mp h
    have hwrite : r.write o.write = (false, r) := hhead
    simp only [obey, hwrite, ih htail, Bool.false_eq_true, if_false]

end Retention

namespace Pass

variable {pass : Pass}

section Sealed

variable (hp : pass.program.Sealed) {s : Progress} (hs : s.memo.Sound pass.profile)
include hp hs

theorem process_of_done {t : TypeDef} (h : ∀ w ∈ pass.writes t, s.retention.Done w) :
    (pass.process t s).1 = (pass.settled t).map (fun plan => Tally.ofType plan.role []) ∧
      (pass.process t s).2.retention = s.retention := by
  obtain ⟨hresult, hretention, -⟩ := process_spec hp hs t
  rw [hresult, hretention, Retention.writeAll_of_done h]
  refine ⟨?_, rfl⟩
  unfold writes at h
  rcases hplan : pass.settled t with fault | plan
  · rfl
  · rw [hplan] at h
    have horders : ∀ o ∈ plan.orders, s.retention.Done o.write := by
      intro o ho
      exact h _ (List.mem_map_of_mem ho)
    simp only [Except.map, Retention.obey_of_done horders]

/-- Types whose writes are done are processed to the end, without effect on the store. -/
theorem processAll_of_done {ts : List TypeDef}
    (hplans : ∀ t ∈ ts, ∃ plan, pass.settled t = .ok plan)
    (h : ∀ t ∈ ts, ∀ w ∈ pass.writes t, s.retention.Done w) :
    ∃ tally, (pass.processAll 0 ts s).1 = .ok tally ∧
      (pass.processAll 0 ts s).2.retention = s.retention ∧
      Accounts pass ts s.retention s.retention tally := by
  obtain ⟨tally, hok, hretention, haccounts⟩ := processAll_spec hp hplans 0 hs
  have hdone : ∀ w ∈ ts.flatMap pass.writes, s.retention.Done w := by
    intro w hw
    obtain ⟨t, ht, hw⟩ := List.mem_flatMap.mp hw
    exact h t ht w hw
  rw [Retention.writeAll_of_done hdone] at hretention
  rw [hretention] at haccounts
  rw [Tally.zero_add] at hok
  exact ⟨tally, hok, hretention, haccounts⟩

end Sealed

/-- The same types, counted again without any gain for the store. -/
theorem Accounts.without_gains {ts : List TypeDef} {r r' r'' : Retention} {tally tally' : Tally}
    (h : Accounts pass ts r r' tally) (h' : Accounts pass ts r'' r'' tally') :
    tally' = { tally with wholeTypes := 0, methods := 0 } := by
  refine Tally.ext_fields ?_ ?_ ?_ ?_ ?_
  · exact h'.types.trans h.types.symm
  · exact h'.bridgeObjects.trans h.bridgeObjects.symm
  · exact h'.handleWrappers.trans h.handleWrappers.symm
  · exact Nat.left_eq_add.mp h'.wholeTypes
  · exact Nat.left_eq_add.mp h'.methods

/-! ### The outcome -/

/-- **A second run changes nothing and ends like the first.**  The store may hold
    anything before the first run, and the first run may fail.  If it does, the
    second fails in the same way; if it does not, the second tells the same but for
    its gains, of which there are none, and no type changes anything any more when
    it is processed by itself. -/
theorem run_after_run {d : Draft} (hbuild : d.toProgram = .ok pass.program) {s s' : Progress}
    (hmemo : s.memo.Sound pass.profile) (hmemo' : s'.memo.Sound pass.profile)
    (hstore : s'.retention = (pass.run s).2.retention) :
    (pass.run s').2.retention = s'.retention ∧
      (∀ fault, (pass.run s).1 = .error fault → (pass.run s').1 = .error fault) ∧
      ∀ tally, (pass.run s).1 = .ok tally →
        (pass.run s').1 = .ok { tally with wholeTypes := 0, methods := 0 } ∧
          ∀ t ∈ pass.program.types.toList, (pass.process t s').2.retention = s'.retention ∧
            ∃ single, (pass.process t s').1 = .ok single ∧
              single.wholeTypes = 0 ∧ single.methods = 0 := by
  have hp := d.sealed_of_toProgram hbuild
  rw [run_fst s', run_retention s']
  rcases hrun : (pass.run s).1 with fault | tally
  · -- both runs end at the same type, and the writes before it are done
    obtain ⟨before, t, after, hsplit, hbefore, ht, hretention⟩ := run_error hp hmemo hrun
    obtain ⟨hfault, hagain⟩ := processAll_fault hp hmemo' hbefore ht 0 after
    rw [hstore, hretention, Retention.writeAll_writeAll] at hagain
    rw [hsplit, hstore, hretention]
    refine ⟨hagain, ?_, ?_⟩
    · intro fault' heq
      cases heq
      exact hfault
    · intro tally heq
      cases heq
  · obtain ⟨hplans, hretention, haccounts⟩ := run_ok hp hmemo hrun
    have hdone : ∀ t ∈ pass.program.types.toList, ∀ w ∈ pass.writes t, s'.retention.Done w := by
      intro t ht w hw
      rw [hstore, hretention]
      exact Retention.done_writeAll _ (List.mem_flatMap.mpr ⟨t, ht, hw⟩)
    obtain ⟨tally', hok, hagain, haccounts'⟩ := processAll_of_done hp hmemo' hplans hdone
    refine ⟨hagain, ?_, ?_⟩
    · intro fault heq
      cases heq
    · intro tally'' heq
      cases heq
      refine ⟨?_, ?_⟩
      · rw [hok, haccounts.without_gains haccounts']
      · intro t ht
        obtain ⟨plan, hplan⟩ := hplans t ht
        obtain ⟨hsingle, hsame⟩ := process_of_done hp hmemo' (hdone t ht)
        rw [hplan] at hsingle
        exact ⟨hsame, _, hsingle, rfl, rfl⟩

/-- A store in which the exported method of the platform view is put down under the
    consumer type that overrides it. -/
def misfiled : Progress where
  retention := (Retention.empty.keep (.ofTypeIndex 4) (.ofMethodIndex 1)).2

theorem run_after_run_misfiled :
    let s : Progress := { retention := (sample.run misfiled).2.retention }
    let failed : Progress := { retention := (knotted.run {}).2.retention }
    (sample.run misfiled).1 = .ok ⟨5, 3, 0, 2, 1⟩ ∧
      (sample.run s).1 = .ok ⟨5, 3, 0, 0, 0⟩ ∧ (sample.run s).2.retention = s.retention ∧
      s.retention.keptUnder (.ofTypeIndex 4) = [.ofMethodIndex 1] ∧
      (knotted.run failed).1 = .error (.nestingCycle (.ofTypeIndex 2)) := by
  intro s failed
  have hmemo : misfiled.memo.Sound sample.profile := Provenance.Memo.sound_empty _
  have hmemo' : s.memo.Sound sample.profile := Provenance.Memo.sound_empty _
  have hstore : s.retention = (sample.run misfiled).2.retention := rfl
  have hfirst : (sample.run misfiled).1 = .ok ⟨5, 3, 0, 2, 1⟩ := by decide +kernel
  have hlist : s.retention.keptUnder (.ofTypeIndex 4) = [.ofMethodIndex 1] := by decide +kernel
  obtain ⟨hsame, -, hok⟩ := run_after_run toProgram_sampleDraft hmemo hmemo' hstore
  have hempty := Provenance.Memo.sound_empty knotted.profile
  have hstore' : failed.retention = (knotted.run {}).2.retention := rfl
  have hfails := (run_after_run toProgram_knottedDraft hempty hempty hstore').2.1 _ run_knotted
  exact ⟨hfirst, (hok _ hfirst).1, hsame, hlist, hfails⟩

end Pass

end TrimGuard
