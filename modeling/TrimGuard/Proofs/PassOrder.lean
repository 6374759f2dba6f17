/-
  TrimGuard/Proofs/PassOrder.lean
  ===============================
  **Types can be processed in any order, and at the same time.**

  The plan of a type is made without looking at the store, so it is the same in
  whatever order the types come.  What remains of the order are the writes.  Two
  types may well write to the same entry: a type is raised on its own account and
  for the types nested in it, and nested types share the types around them.  But
  those are raises, which commute.  The writes that retain methods keep to the
  list of their own type.  Writes for different types are therefore independent,
  and neither a permutation of the types nor an interleaving of their writes can
  be told from a run in token order.
-/
import TrimGuard.Proofs.PassOutcome
import TrimGuard.Proofs.WriteOrder

namespace TrimGuard

namespace Pass

variable {pass : Pass}

/-! ### Issued writes -/

/-- Processing the type issues these writes, one after the other.  The memory that
    the plan is made with is any that may be found while other types are being
    processed. -/
def Issues (pass : Pass) (t : TypeDef) (ws : List Retention.Write) : Prop :=
  ∃ memo plan, Provenance.Memo.Sound pass.profile memo ∧ ((pass.plan t).run memo).1 = .ok plan ∧
    ws = plan.orders.map Order.write

section Sealed

variable (hp : pass.program.Sealed)
include hp

theorem issues_iff (t : TypeDef) (ws : List Retention.Write) :
    pass.Issues t ws ↔ ws = pass.writes t ∧ ∃ plan, pass.settled t = .ok plan := by
  constructor
  · rintro ⟨memo, plan, hmemo, hplan, rfl⟩
    rw [(answers_plan hp t memo hmemo).1] at hplan
    exact ⟨by rw [writes, hplan], plan, hplan⟩
  · rintro ⟨rfl, plan, hplan⟩
    have hempty := Provenance.Memo.sound_empty pass.profile
    refine ⟨{}, plan, hempty, ?_, ?_⟩
    · rw [(answers_plan hp t {} hempty).1, hplan]
    · rw [writes, hplan]

theorem eq_writes_of_issues {ts : List TypeDef} {seqs : List (List Retention.Write)}
    (h : List.Forall₂ pass.Issues ts seqs) : seqs = ts.map pass.writes := by
  induction h with
  | nil => rfl
  | @cons t seq ts seqs hseq _ ih => rw [List.map_cons, ((issues_iff hp t seq).mp hseq).1, ih]

theorem issues_writes {ts : List TypeDef} (hts : ∀ t ∈ ts, ∃ plan, pass.settled t = .ok plan) :
    List.Forall₂ pass.Issues ts (ts.map pass.writes) := by
  rw [List.forall₂_map_right_iff, List.forall₂_same]
  intro t ht
  exact (issues_iff hp t _).mpr ⟨rfl, hts t ht⟩

/-! ### Independence -/

theorem writes_independent {t u : TypeDef} (ht : t ∈ pass.program.types.toList)
    (hu : u ∈ pass.program.types.toList) (hne : t ≠ u) {v w : Retention.Write}
    (hv : v ∈ pass.writes t) (hw : w ∈ pass.writes u) : v.Independent w := by
  cases v with
  | raise x level => exact trivial
  | keep owner method =>
    cases w with
    | raise x level => exact trivial
    | keep owner' method' =>
      obtain ⟨hown, m, hm, hmowner, hmtoken⟩ := keep_mem_writes hp ht hv
      obtain ⟨hown', m', hm', hmowner', hmtoken'⟩ := keep_mem_writes hp hu hw
      have howner : owner ≠ owner' := by
        intro heq
        exact hne (hp.type_ext ht hu (by rw [← hown, ← hown', heq]))
      refine ⟨howner, ?_⟩
      -- a method that both types declare has one owner
      intro heq
      have hsame : m = m' := hp.method_ext hm hm' (by rw [hmtoken, hmtoken', heq])
      exact howner (by rw [← hmowner, ← hmowner', hsame])

theorem pairwise_writes {ts : List TypeDef} (hperm : ts.Perm pass.program.types.toList) :
    (ts.map pass.writes).Pairwise fun seq seq' => ∀ v ∈ seq, ∀ w ∈ seq', v.Independent w := by
  rw [List.pairwise_map]
  apply (hperm.nodup_iff.mpr hp.nodup_types).imp_of_mem
  intro t u ht hu hne v hv w hw
  exact writes_independent hp (hperm.mem_iff.mp ht) (hperm.mem_iff.mp hu) hne hv hw

/-- All interleavings of the writes for all types lead to one store. -/
theorem writeAll_interleaved_writes (r : Retention) {ts : List TypeDef}
    (hperm : ts.Perm pass.program.types.toList) {ws : List Retention.Write}
    (h : Interleaving (ts.map pass.writes) ws) :
    r.writeAll ws = r.writeAll (pass.program.types.toList.flatMap pass.writes) := by
  have hindependent := pairwise_writes hp hperm
  have htoken : Interleaving (ts.map pass.writes)
      (pass.program.types.toList.map pass.writes).flatten :=
    (Interleaving.flatten _).perm (hperm.symm.map pass.writes)
  calc r.writeAll ws
      = r.writeAll (ts.map pass.writes).flatten := r.writeAll_interleaving h hindependent
    _ = r.writeAll (pass.program.types.toList.map pass.writes).flatten :=
        (r.writeAll_interleaving htoken hindependent).symm
    _ = r.writeAll (pass.program.types.toList.flatMap pass.writes) := by rw [List.flatMap_def]

end Sealed

/-! ### Permutations -/

/-- **The order in which the types are processed cannot be observed.**  The types
    in any order are processed to the end if and only if the run is through.  The
    tally is then that of the run, and so is the store, down to the order of every
    list; and the store is the same for all interleavings of the single writes. -/
theorem order_of_processing {d : Draft} (hbuild : d.toProgram = .ok pass.program)
    {s s' : Progress} (hstore : s'.retention = s.retention) (hmemo : s.memo.Sound pass.profile)
    (hmemo' : s'.memo.Sound pass.profile) {ts : List TypeDef}
    (hperm : ts.Perm pass.program.types.toList) :
    ((∃ tally, (pass.processAll 0 ts s').1 = .ok tally) ↔ ∃ tally, (pass.run s).1 = .ok tally) ∧
      ∀ tally, (pass.run s).1 = .ok tally →
        (pass.processAll 0 ts s').1 = .ok tally ∧
          (pass.processAll 0 ts s').2.retention = (pass.run s).2.retention ∧
          ∀ seqs ws, List.Forall₂ pass.Issues ts seqs → Interleaving seqs ws →
            s.retention.writeAll ws = (pass.run s).2.retention := by
  have hp := d.sealed_of_toProgram hbuild
  have hplans_iff : (∀ t ∈ ts, ∃ plan, pass.settled t = .ok plan) ↔
      ∀ t ∈ pass.program.types.toList, ∃ plan, pass.settled t = .ok plan :=
    ⟨fun h t ht => h t (hperm.mem_iff.mpr ht), fun h t ht => h t (hperm.mem_iff.mp ht)⟩
  refine ⟨?_, ?_⟩
  · rw [run_fst, processAll_ok_iff hp hmemo', processAll_ok_iff hp hmemo]
    exact hplans_iff
  · intro tally hrun
    obtain ⟨hplans, hretention, haccounts⟩ := run_ok hp hmemo hrun
    obtain ⟨tally', htally, hretention', haccounts'⟩ :=
      processAll_spec hp (hplans_iff.mpr hplans) 0 hmemo'
    have hsame : (pass.processAll 0 ts s').2.retention = (pass.run s).2.retention := by
      rw [hretention', hretention, hstore, List.flatMap_def]
      exact writeAll_interleaved_writes hp _ hperm (Interleaving.flatten _)
    rw [hstore, hsame] at haccounts'
    refine ⟨?_, hsame, ?_⟩
    · rw [htally, Tally.zero_add, haccounts'.unique haccounts hperm]
    · intro seqs ws hissued hws
      rw [eq_writes_of_issues hp hissued] at hws
      rw [hretention]
      exact writeAll_interleaved_writes hp _ hperm hws

theorem order_of_processing_reversed :
    sample.program.types.toList.reverse.Perm sample.program.types.toList ∧
      (sample.run {}).1 = .ok ⟨5, 3, 0, 2, 2⟩ ∧
      (sample.processAll 0 sample.program.types.toList.reverse {}).1 = .ok ⟨5, 3, 0, 2, 2⟩ ∧
      ∃ ws, Interleaving (sample.program.types.toList.reverse.map sample.writes) ws ∧
        Retention.empty.writeAll ws = (sample.run {}).2.retention := by
  have hmemo := Provenance.Memo.sound_empty sample.profile
  have hperm := List.reverse_perm sample.program.types.toList
  have hp := sampleDraft.sealed_of_toProgram toProgram_sampleDraft
  have hplans := (run_ok hp (s := {}) hmemo run_sample).1
  have hissued := issues_writes hp fun t ht => hplans t (hperm.mem_iff.mp ht)
  have hsame : ({} : Progress).retention = ({} : Progress).retention := rfl
  have horder := order_of_processing toProgram_sampleDraft hsame hmemo hmemo hperm
  obtain ⟨htally, -, hstore⟩ := horder.2 _ run_sample
  have hinterleaved := hstore _ _ hissued (Interleaving.flatten _)
  exact ⟨hperm, run_sample, htally, _, Interleaving.flatten _, hinterleaved⟩

end Pass

end TrimGuard
