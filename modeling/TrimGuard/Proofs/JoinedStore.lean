/-
  TrimGuard/Proofs/JoinedStore.lean
  =================================
  **Processing a type adds the same to every store.**

  A plan does not look at the store, so what the processing of a type has to add is
  the same whatever is retained already: it is what the processing leaves in an empty
  store.  Any other store is joined with it.  Levels become the higher of two, methods
  are those of both, and each list goes on with what it did not have
  (`Retention.Joined`).

  There is one way in which a store could take less.  A method that is retained under a
  wrong type is not retained again, and then its own type is not raised for it either
  (`level_join`).  Nothing else that a store may hold, and nothing that the pass
  remembers, gets in between.
-/
import TrimGuard.Proofs.FailedRun
import TrimGuard.Proofs.PassOutcome
import TrimGuard.Proofs.StoreMeaning

namespace TrimGuard

namespace Retention

/-! ### Joined stores -/

/-- The store `r'` holds what `r` holds and what `gain` holds besides. -/
structure Joined (r gain r' : Retention) : Prop where
  level : ∀ t, r'.level t = max (r.level t) (gain.level t)
  kept : ∀ m, r'.isKept m = (r.isKept m || gain.isKept m)
  /-- What is new under a type comes after what was there. -/
  lists : ∀ t, r'.keptUnder t = r.keptUnder t ++ (gain.keptUnder t).filter fun m => !r.isKept m

section Joined

variable {ws : List Write}

theorem isKept_join (r : Retention) (ws : List Write) (m : Token) :
    (r.writeAll ws).isKept m = (r.isKept m || (empty.writeAll ws).isKept m) := by
  rw [Bool.eq_iff_iff, Bool.or_eq_true, isKept_writeAll, isKept_writeAll, isKept_empty]
  simp

theorem keptUnder_join (r : Retention) (hown : SingleOwner ws) (t : Token) :
    (r.writeAll ws).keptUnder t =
      r.keptUnder t ++ ((empty.writeAll ws).keptUnder t).filter fun m => !r.isKept m := by
  have hall : ∀ ms : List Token, (ms.filter fun m => !empty.isKept m) = ms := by
    intro ms
    simp
  rw [keptUnder_writeAll r hown, keptUnder_writeAll empty hown, keptUnder_empty, List.nil_append,
    hall, eraseDups_filter]

variable {us : List Write}

/-- The list of a type raises its level in the joined store whenever it does in the
    gain: what is not new to the list was in it before. -/
theorem level_join (hown : SingleOwner ws)
    (hfiled : ∀ owner m, Write.keep owner m ∈ ws → (empty.writeAll us).isKept m = true →
      m ∈ (empty.writeAll us).keptUnder owner) (t : Token) :
    ((empty.writeAll us).writeAll ws).level t =
      max ((empty.writeAll us).level t) ((empty.writeAll ws).level t) := by
  have hlist := keptUnder_join (empty.writeAll us) hown t
  rw [level_writeAll, level_history ws, ← Level.max_assoc]
  by_cases hgain : (empty.writeAll ws).keptUnder t = []
  · rw [hgain, List.filter_nil, List.append_nil] at hlist
    rw [if_pos hlist, if_pos hgain]
  · rw [if_neg hgain]
    by_cases hsame : ((empty.writeAll us).writeAll ws).keptUnder t = (empty.writeAll us).keptUnder t
    · -- every method of the gain was retained, and so it was in the list
      obtain ⟨m, hm⟩ := List.exists_mem_of_ne_nil _ hgain
      have hnone : ((empty.writeAll ws).keptUnder t).filter
          (fun m => !(empty.writeAll us).isKept m) = [] :=
        List.append_right_eq_self.mp (hlist.symm.trans hsame)
      have hkept : (empty.writeAll us).isKept m = true := by
        simpa using List.filter_eq_nil_iff.mp hnone m hm
      have hwrite : Write.keep t m ∈ ws := by
        rw [keptUnder_writeAll empty hown, keptUnder_empty, List.nil_append, List.mem_eraseDups,
          List.mem_filter] at hm
        exact (mem_filterMap_keptFor_iff t m ws).mp hm.1
      have hlevel := level_ne_none_of_keptUnder us (List.ne_nil_of_mem (hfiled t m hwrite hkept))
      rw [if_pos hsame, Level.max_none, Level.max_members_of_ne_none (Level.max_ne_none hlevel _)]
    · rw [if_neg hsame]

/-- **Writes join any store with what they leave in an empty one**, unless one of
    their methods is retained under another type than they name. -/
theorem joined_writeAll (hown : SingleOwner ws)
    (hfiled : ∀ owner m, Write.keep owner m ∈ ws → (empty.writeAll us).isKept m = true →
      m ∈ (empty.writeAll us).keptUnder owner) :
    (empty.writeAll us).Joined (empty.writeAll ws) ((empty.writeAll us).writeAll ws) where
  level := level_join hown hfiled
  kept := isKept_join _ ws
  lists := keptUnder_join _ hown

end Joined

/-! ### What writes do not touch -/

/-- The write raises the type, or retains a method under it. -/
def Write.Concerns (t : Token) : Write → Prop
  | .raise u _ => u = t
  | .keep owner _ => owner = t

theorem level_write_of_not_concerns (r : Retention) {w : Write} {t : Token}
    (h : ¬ w.Concerns t) : (r.write w).2.level t = r.level t := by
  rcases w with ⟨u, level⟩ | ⟨owner, method⟩
  · have hother : ¬ u = t := h
    rw [write, level_raise, if_neg hother]
  · have hother : ¬ owner = t := h
    rw [write, level_keep, if_neg fun hnew => hother hnew.2]

theorem level_writeAll_of_not_concerns (r : Retention) {ws : List Write} {t : Token}
    (h : ∀ w ∈ ws, ¬ w.Concerns t) : (r.writeAll ws).level t = r.level t := by
  induction ws generalizing r with
  | nil => rfl
  | cons w ws ih =>
    obtain ⟨hhead, htail⟩ := List.forall_mem_cons.mp h
    rw [writeAll_cons, ih _ htail, level_write_of_not_concerns r hhead]

end Retention

/-! ### Processing a type -/

namespace Pass

variable {pass : Pass}

theorem singleOwner_writes (hp : pass.program.Sealed) {t : TypeDef}
    (ht : t ∈ pass.program.types.toList) : Retention.SingleOwner (pass.writes t) := by
  intro owner owner' method h h'
  rw [(keep_mem_writes hp ht h).1, (keep_mem_writes hp ht h').1]

/-- The writes for a type concern the type and those around it. -/
theorem encloses_of_concerns (hp : pass.program.Sealed) {t : TypeDef}
    (ht : t ∈ pass.program.types.toList) {plan : Plan} (hplan : pass.settled t = .ok plan)
    {w : Retention.Write} (hw : w ∈ pass.writes t) {x : Token} (h : w.Concerns x) :
    pass.program.types.Encloses t.token x := by
  rcases w with ⟨u, level⟩ | ⟨owner, method⟩
  · obtain rfl : u = x := h
    exact ((raise_mem_writes_iff hp ht hplan u level).mp hw).2.2
  · obtain rfl : owner = x := h
    rw [(keep_mem_writes hp ht hw).1]
    exact .refl

/-- **Processing a type joins the store with what it leaves in an empty one.**  The
    store may hold anything that was ever written to it, as long as the methods of the
    program are retained under their own types, and what is remembered does not
    matter.  Faults are the same, and so is the role that is counted.  Levels change
    of no types but the one processed and those around it, and no methods are added
    but those that it declares. -/
theorem join_of_process {d : Draft} (hbuild : d.toProgram = .ok pass.program) {t : TypeDef}
    (ht : t ∈ pass.program.types.toList) {s₀ s : Progress} (hempty : s₀.retention = .empty)
    (hmemo₀ : s₀.memo.Sound pass.profile) (hmemo : s.memo.Sound pass.profile)
    {us : List Retention.Write} (hstore : s.retention = Retention.empty.writeAll us)
    (hfiled : ∀ m ∈ pass.program.methods.toList, s.retention.isKept m.token = true →
      m.token ∈ s.retention.keptUnder m.owner) :
    (∀ fault, (pass.process t s).1 = .error fault ↔ (pass.process t s₀).1 = .error fault) ∧
      ∀ tally₀, (pass.process t s₀).1 = .ok tally₀ →
        (∃ tally, (pass.process t s).1 = .ok tally ∧
          tally.bridgeObjects = tally₀.bridgeObjects ∧
          tally.handleWrappers = tally₀.handleWrappers) ∧
        s.retention.Joined (pass.process t s₀).2.retention (pass.process t s).2.retention ∧
        (∀ x, (pass.process t s).2.retention.level x ≠ s.retention.level x →
          pass.program.types.Encloses t.token x) ∧
        ∀ m, (pass.process t s).2.retention.isKept m = true → s.retention.isKept m = false →
          ∃ n ∈ pass.program.methods.toList, n.owner = t.token ∧ n.token = m := by
  have hp := d.sealed_of_toProgram hbuild
  refine ⟨?_, ?_⟩
  · intro fault
    rw [process_eq_error_iff hp hmemo, process_eq_error_iff hp hmemo₀]
  · intro tally₀ hok
    obtain ⟨plan, hplan, rfl⟩ := (process_eq_ok_iff hp hmemo₀ t _).mp hok
    rw [retention_process hp hmemo, retention_process hp hmemo₀, hempty]
    refine ⟨⟨_, (process_eq_ok_iff hp hmemo t _).mpr ⟨plan, hplan, rfl⟩, rfl, rfl⟩, ?_, ?_, ?_⟩
    · rw [hstore] at hfiled ⊢
      apply Retention.joined_writeAll (singleOwner_writes hp ht)
      intro owner method hw hkept
      obtain ⟨-, m, hm, howner, htoken⟩ := keep_mem_writes hp ht hw
      rw [← htoken] at hkept ⊢
      rw [← howner]
      exact hfiled m hm hkept
    · intro x hchanged
      by_contra houtside
      apply hchanged
      apply Retention.level_writeAll_of_not_concerns
      intro w hw hconcerns
      exact houtside (encloses_of_concerns hp ht hplan hw hconcerns)
    · intro m hkept hnew
      rcases (Retention.isKept_writeAll _ _ m).mp hkept with hold | ⟨owner, hw⟩
      · rw [hold] at hnew
        cases hnew
      · obtain ⟨rfl, n, hn, howner, htoken⟩ := keep_mem_writes hp ht hw
        exact ⟨n, hn, howner, htoken⟩

/-- The view has its exported method already, the host is at a level of its own, and
    the provenance of all assemblies has been asked for. -/
def underWay : Progress :=
  { (sample.resolve {}).2 with
    retention := Retention.empty.writeAll
      [.raise (.ofTypeIndex 3) .members, .keep (.ofTypeIndex 2) (.ofMethodIndex 1)] }

theorem join_of_process_view :
    ∃ t ∈ sample.program.types.toList,
      underWay.retention.Joined (sample.process t {}).2.retention
          (sample.process t underWay).2.retention ∧
        (sample.process t {}).2.retention.keptUnder t.token =
          [.ofMethodIndex 0, .ofMethodIndex 1] ∧
        (sample.process t underWay).2.retention.keptUnder t.token =
          [.ofMethodIndex 1, .ofMethodIndex 0] := by
  have hview : ∃ t ∈ sample.program.types.toList,
      (sample.process t {}).1 = .ok ⟨1, 1, 0, 0, 2⟩ ∧
        (sample.process t {}).2.retention.keptUnder t.token =
          [.ofMethodIndex 0, .ofMethodIndex 1] ∧
        (sample.process t underWay).2.retention.keptUnder t.token =
          [.ofMethodIndex 1, .ofMethodIndex 0] := by decide +kernel
  have hfiled : ∀ m ∈ sample.program.methods.toList, underWay.retention.isKept m.token = true →
      m.token ∈ underWay.retention.keptUnder m.owner := by decide +kernel
  have hempty := Provenance.Memo.sound_empty sample.profile
  have hmemo : underWay.memo.Sound sample.profile :=
    Provenance.Memo.sound_resolve sample.program.types.assemblies hempty
  obtain ⟨t, ht, hok, hlists⟩ := hview
  have hstart : ({} : Progress).retention = .empty := rfl
  have hjoin := join_of_process toProgram_sampleDraft ht hstart hempty hmemo rfl hfiled
  exact ⟨t, ht, (hjoin.2 _ hok).2.1, hlists⟩

end Pass

end TrimGuard
