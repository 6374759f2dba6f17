/-
  TrimGuard/Proofs/NestingClosure.lean
  ====================================
  **What is retained as a whole keeps the types around it.**

  Removing a type removes the types nested in it, so a type that is retained as a
  whole is safe only if all types around it are.  A single write can break this:
  the writes for a nested type start with the type itself.  The writes of one type
  taken together cannot, and a call either carries out all of them or none.

  So the property holds between calls, whatever the calls are: passes under
  different profiles may work on one store, they may fail, be repeated, or be
  confined to single types, and the program may have malformed nesting where it
  is not retained.
-/
import TrimGuard.Proofs.PassOutcome

namespace TrimGuard

/-! ### Calls on a shared store

A pass can be run, run with all provenance settled in advance, or asked to process
a type of its program.  Passes that share a store share nothing else but the
program: each has its profile and its memory. -/

/-- What can be asked of a pass over the program. -/
inductive Call (p : Program) where
  | run
  | runResolved
  | process (t : TypeDef) (ht : t ∈ p.types.toList)

/-- Carry out a call by the pass under the given profile. -/
def Call.perform {p : Program} (profile : Profile) (c : Call p) (s : Pass.Progress) :
    Except Fault Tally × Pass.Progress :=
  let pass : Pass := ⟨p, profile⟩
  match c with
  | .run => pass.run s
  | .runResolved => pass.runResolved s
  | .process t _ => pass.process t s

/-- A store shared by passes, one for each index, and the memory of each of them. -/
structure Session (ι : Type) where
  memos : ι → Provenance.Memo := fun _ => {}
  retention : Retention := .empty
  notices : Array Notice := #[]

namespace Session

variable {ι : Type} [DecidableEq ι] {p : Program}

/-- One call by the pass of index `i`.  The session goes on whether or not the call
    succeeds. -/
def call (profiles : ι → Profile) (x : Session ι) (i : ι) (c : Call p) :
    Except Fault Tally × Session ι :=
  let (outcome, s) := c.perform (profiles i) ⟨x.memos i, x.retention, x.notices⟩
  (outcome, ⟨Function.update x.memos i s.memo, s.retention, s.notices⟩)

/-- Calls one after the other, each by the pass of its index. -/
def calls (profiles : ι → Profile) (x : Session ι) (cs : List (ι × Call p)) : Session ι :=
  cs.foldl (fun x ic => (x.call profiles ic.1 ic.2).2) x

end Session

/-! ### The invariant -/

/-- Every type that is retained as a whole has finitely many types around it, all
    of which are retained as a whole as well. -/
def NestingClosed (types : TypeTable) (r : Retention) : Prop :=
  ∀ t ∈ types.toList, r.level t.token = .all →
    ∃ around, types.NestingChain t around ∧ ∀ u ∈ around, r.level u.token = .all

theorem nestingClosed_empty (types : TypeTable) : NestingClosed types .empty := by
  intro t _ hall
  rw [Retention.level_empty] at hall
  cases hall

namespace Pass

variable {pass : Pass} (hp : pass.program.Sealed)
include hp

/-- **The writes for a type leave what is retained as a whole closed.** -/
theorem nestingClosed_writeAll_writes {r : Retention} (hr : NestingClosed pass.program.types r)
    {t : TypeDef} (ht : t ∈ pass.program.types.toList) :
    NestingClosed pass.program.types (r.writeAll (pass.writes t)) := by
  intro x hx hall
  rcases (Retention.level_writeAll_eq_all r _ _).mp hall with hold | hraise
  · -- what was there before is still there
    obtain ⟨around, hchain, hclosed⟩ := hr x hx hold
    refine ⟨around, hchain, ?_⟩
    intro u hu
    exact (Retention.level_writeAll_eq_all r _ _).mpr (Or.inl (hclosed u hu))
  · cases hplan : pass.settled t with
    | error fault =>
      rw [writes, hplan] at hraise
      cases hraise
    | ok plan =>
      -- the chain of `x` is part of that of `t`, all of which is raised
      obtain ⟨-, hconsumer, hencloses⟩ := (raise_mem_writes_iff hp ht hplan _ _).mp hraise
      obtain ⟨around, hchain⟩ := nestingChain_of_settled hplan hconsumer
      have hraised : ∀ u ∈ t :: around, (r.writeAll (pass.writes t)).level u.token = .all := by
        intro u hu
        have hencloses := (hp.mem_nestingChain_iff ht hchain u.token).mp ⟨u, hu, rfl⟩
        have hwrite := (raise_mem_writes_iff hp ht hplan u.token .all).mpr
          ⟨rfl, hconsumer, hencloses⟩
        exact (Retention.level_writeAll_eq_all r _ _).mpr (Or.inr hwrite)
      obtain ⟨d, hd, htoken⟩ := (hp.mem_nestingChain_iff ht hchain x.token).mpr hencloses
      rcases List.mem_cons.mp hd with rfl | hd
      · rw [hp.type_ext hx ht htoken.symm]
        exact ⟨around, hchain, fun u hu => hraised u (List.mem_cons_of_mem _ hu)⟩
      · rw [hp.type_ext hx (hchain.mem_toList hd) htoken.symm]
        obtain ⟨rest, hrest, hsub⟩ := hchain.of_mem hd
        exact ⟨rest, hrest, fun u hu => hraised u (List.mem_cons_of_mem _ (hsub hu))⟩

/-- What a pass finds and leaves: a closed store, and a memory of its own that
    holds right answers. -/
def Orderly (pass : Pass) (s : Progress) : Prop :=
  NestingClosed pass.program.types s.retention ∧ s.memo.Sound pass.profile

theorem orderly_process {t : TypeDef} (ht : t ∈ pass.program.types.toList) {s : Progress}
    (hs : pass.Orderly s) : pass.Orderly (pass.process t s).2 := by
  obtain ⟨hclosed, hmemo⟩ := hs
  refine ⟨?_, sound_process hp hmemo t⟩
  rw [retention_process hp hmemo]
  exact nestingClosed_writeAll_writes hp hclosed ht

theorem orderly_run {s : Progress} (hs : pass.Orderly s) : pass.Orderly (pass.run s).2 := by
  have hall := processAll_preserves (fun t ht _ => orderly_process hp ht) 0 hs
  unfold Orderly
  rw [run_retention, run_memo]
  exact hall

theorem orderly_runResolved {s : Progress} (hs : pass.Orderly s) :
    pass.Orderly (pass.runResolved s).2 :=
  orderly_run hp ⟨hs.1, Provenance.Memo.sound_resolve _ hs.2⟩

end Pass

theorem Call.orderly_perform {p : Program} (hp : p.Sealed) (profile : Profile) (c : Call p)
    {s : Pass.Progress} (hs : Pass.Orderly ⟨p, profile⟩ s) :
    Pass.Orderly ⟨p, profile⟩ (c.perform profile s).2 := by
  cases c with
  | run => exact Pass.orderly_run hp hs
  | runResolved => exact Pass.orderly_runResolved hp hs
  | process t ht => exact Pass.orderly_process hp ht hs

/-! ### Sessions -/

namespace Session

variable {ι : Type} [DecidableEq ι] {p : Program} {profiles : ι → Profile}

/-- The store is closed, and every pass remembers right answers. -/
def Orderly (p : Program) (profiles : ι → Profile) (x : Session ι) : Prop :=
  NestingClosed p.types x.retention ∧ ∀ i, (x.memos i).Sound (profiles i)

omit [DecidableEq ι] in
theorem orderly_empty (p : Program) (profiles : ι → Profile) :
    Orderly p profiles ({} : Session ι) :=
  ⟨nestingClosed_empty p.types, fun i => Provenance.Memo.sound_empty (profiles i)⟩

theorem orderly_call (hp : p.Sealed) {x : Session ι} (hx : x.Orderly p profiles) (i : ι)
    (c : Call p) : (x.call profiles i c).2.Orderly p profiles := by
  have hbefore : Pass.Orderly ⟨p, profiles i⟩ ⟨x.memos i, x.retention, x.notices⟩ :=
    ⟨hx.1, hx.2 i⟩
  obtain ⟨hclosed, hmemo⟩ := c.orderly_perform hp (profiles i) hbefore
  refine ⟨hclosed, ?_⟩
  intro j
  by_cases hj : j = i
  · subst hj
    simpa [call] using hmemo
  · simpa [call, hj] using hx.2 j

theorem orderly_calls (hp : p.Sealed) {x : Session ι} (hx : x.Orderly p profiles)
    (cs : List (ι × Call p)) : (x.calls profiles cs).Orderly p profiles := by
  induction cs generalizing x with
  | nil => exact hx
  | cons ic cs ih => exact ih (orderly_call hp hx ic.1 ic.2)

/-- **Whatever has been asked of passes that share a store, the types around a
    whole type are whole.**  This goes for the type it is nested in and for all
    types further out, of which there are finitely many. -/
theorem nesting_closed_after_calls {d : Draft} (hbuild : d.toProgram = .ok p)
    (profiles : ι → Profile) (cs : List (ι × Call p)) {t : TypeDef} (ht : t ∈ p.types.toList)
    (hall : (calls profiles {} cs).retention.level t.token = .all) :
    (∀ outer, t.enclosing = some outer →
        (calls profiles {} cs).retention.level outer = .all) ∧
      ∃ around, p.types.NestingChain t around ∧
        ∀ u ∈ around, (calls profiles {} cs).retention.level u.token = .all := by
  have hp := d.sealed_of_toProgram hbuild
  obtain ⟨around, hchain, hwhole⟩ :=
    (orderly_calls hp (orderly_empty p profiles) cs).1 t ht hall
  refine ⟨?_, around, hchain, hwhole⟩
  intro outer houter
  unfold TypeTable.NestingChain at hchain
  rw [houter] at hchain
  cases hchain with
  | @step _ u above hfind hrest =>
    obtain ⟨-, htoken⟩ := (hp.find?_eq_some_iff outer u).mp hfind
    rw [← htoken]
    exact hwhole u List.mem_cons_self

/-- Two passes under different profiles, for which different assemblies are the
    product. -/
def sampleCalls : List (Bool × Call Pass.sample.program) := [(true, .run), (false, .runResolved)]

theorem nesting_closed_after_two_runs :
    let x := calls (fun mac => if mac then Profile.macOS else Profile.iOS) {} sampleCalls
    x.retention.level (.ofTypeIndex 4) = .all ∧ x.retention.level (.ofTypeIndex 3) = .all := by
  intro x
  have hcanvas : x.retention.level (.ofTypeIndex 4) = .all := by decide +kernel
  have hmember : ∃ t ∈ Pass.sample.program.types.toList,
      t.token = .ofTypeIndex 4 ∧ t.enclosing = some (.ofTypeIndex 3) := by decide +kernel
  obtain ⟨t, ht, htoken, houter⟩ := hmember
  rw [← htoken] at hcanvas
  have hclosed := nesting_closed_after_calls Pass.toProgram_sampleDraft _ sampleCalls ht hcanvas
  exact ⟨htoken ▸ hcanvas, hclosed.1 _ houter⟩

end Session

end TrimGuard
