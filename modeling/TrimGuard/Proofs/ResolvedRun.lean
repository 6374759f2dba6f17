/-
  TrimGuard/Proofs/ResolvedRun.lean
  =================================
  **Settling all provenance in advance.**

  Before the types are shared out among workers, the provenance of every assembly
  is asked for once.  Every decision of the pass then reads a memory that holds
  more than it would have held.  This makes no difference: what a memory answers
  (`answer`) is the same before and after any question, so two memories that
  answer alike lead to the same plans, the same writes and the same faults
  (`Alike`).  Nothing is assumed about what a memory holds to begin with, right
  or wrong.

  What does differ is what the memory knows.  A pass asks about the assemblies of
  the types it processes and of the types that declare overriders, all of which
  are assemblies of the program (`Confined`).
-/
import TrimGuard.Proofs.PassRun

namespace TrimGuard

/-! ### What a memory answers, and what it knows

The answer to a question is what is remembered, or else what the profile says.  An
assembly is known once it has been asked about. -/

namespace Provenance.Memo

def answer (p : Profile) (memo : Memo) (a : Assembly) : Provenance :=
  (memo.known.lookup a).getD (p.provenance a)

def Knows (memo : Memo) (a : Assembly) : Prop := a ∈ memo.known.map Prod.fst

/-- The second memory knows what the first one does, and some of the given
    assemblies besides. -/
def Extends (as : List Assembly) (memo memo' : Memo) : Prop :=
  ∃ asked, asked ⊆ as ∧ ∀ a, memo'.Knows a ↔ memo.Knows a ∨ a ∈ asked

variable (p : Profile) (memo : Memo)

theorem ask_fst (a : Assembly) : (ask p a memo).1 = memo.answer p a := by
  unfold ask answer
  rcases memo.known.lookup a with _ | v <;> rfl

theorem answer_ask (a : Assembly) : (ask p a memo).2.answer p = memo.answer p := by
  funext b
  unfold ask answer
  rcases hlookup : memo.known.lookup a with _ | v
  · by_cases hb : b = a
    · subst hb
      simp [hlookup]
    · have hne : (b == a) = false := beq_false_of_ne hb
      simp [List.lookup_cons, hne]
  · rfl

/-- An answer is found for what is known, and for nothing else. -/
theorem lookup_eq_none_iff (a : Assembly) : memo.known.lookup a = none ↔ ¬ memo.Knows a := by
  rw [List.lookup_eq_none_iff, Knows, List.mem_map, not_exists]
  refine forall_congr' fun e => ?_
  rw [bne_iff_ne, not_and, eq_comm]

theorem knows_ask (a b : Assembly) : (ask p a memo).2.Knows b ↔ memo.Knows b ∨ b = a := by
  unfold ask
  rcases hlookup : memo.known.lookup a with _ | v
  · simp only [Knows, List.map_cons, List.mem_cons]
    exact or_comm
  · have hknows : memo.Knows a := by
      by_contra hnew
      rw [(memo.lookup_eq_none_iff a).mpr hnew] at hlookup
      cases hlookup
    constructor
    · exact Or.inl
    · rintro (hb | rfl)
      · exact hb
      · exact hknows

theorem answer_resolve (as : List Assembly) : (resolve p as memo).2.answer p = memo.answer p := by
  induction as generalizing memo with
  | nil => rfl
  | cons a as ih => exact (ih _).trans (answer_ask p memo a)

theorem knows_resolve (as : List Assembly) (b : Assembly) :
    (resolve p as memo).2.Knows b ↔ memo.Knows b ∨ b ∈ as := by
  induction as generalizing memo with
  | nil =>
    have hsame : (resolve p [] memo).2 = memo := rfl
    simp [hsame]
  | cons a as ih =>
    have hrest : (resolve p (a :: as) memo).2 = (resolve p as (ask p a memo).2).2 := rfl
    rw [hrest, ih, knows_ask, List.mem_cons, or_assoc]

variable {memo}

theorem Extends.refl (as : List Assembly) (memo : Memo) : memo.Extends as memo :=
  ⟨[], List.nil_subset as, by simp⟩

theorem Extends.trans {as : List Assembly} {memo' memo'' : Memo} (h : memo.Extends as memo')
    (h' : memo'.Extends as memo'') : memo.Extends as memo'' := by
  obtain ⟨asked, hsub, hknows⟩ := h
  obtain ⟨asked', hsub', hknows'⟩ := h'
  refine ⟨asked ++ asked', List.append_subset.mpr ⟨hsub, hsub'⟩, ?_⟩
  intro a
  rw [hknows', hknows, List.mem_append, or_assoc]

theorem extends_ask {as : List Assembly} {a : Assembly} (ha : a ∈ as) :
    memo.Extends as (ask p a memo).2 := by
  refine ⟨[a], List.cons_subset.mpr ⟨ha, List.nil_subset as⟩, ?_⟩
  intro b
  rw [knows_ask, List.mem_singleton]

end Provenance.Memo

/-! ### Inquiries that do not tell memories apart -/

namespace Pass.Inquiry

/-- Memories that answer alike lead to one result, no answer changes on the way,
    and only the given assemblies are asked about. -/
structure Confined {α : Type} (p : Profile) (as : List Assembly) (x : Inquiry α) : Prop where
  outcome : ∀ memo memo' : Provenance.Memo, memo.answer p = memo'.answer p →
    (x.run memo).1 = (x.run memo').1
  answer : ∀ memo : Provenance.Memo, (x.run memo).2.answer p = memo.answer p
  knows : ∀ memo : Provenance.Memo, memo.Extends as (x.run memo).2

variable {p : Profile} {as : List Assembly} {α β : Type}

theorem confined_of_run {x : Inquiry α} (result : Except Fault α)
    (h : ∀ memo, x.run memo = (result, memo)) : x.Confined p as where
  outcome memo memo' _ := by rw [h, h]
  answer memo := by rw [h]
  knows memo := by
    rw [h]
    exact Provenance.Memo.Extends.refl as memo

theorem confined_pure (a : α) : (pure a : Inquiry α).Confined p as :=
  confined_of_run _ (run_pure a)

theorem confined_throw (fault : Fault) : (throw fault : Inquiry α).Confined p as :=
  confined_of_run _ (run_throw fault)

/-- A step that asks nothing goes on with its result, or ends with its fault. -/
theorem confined_liftM_bind {x : Except Fault α} {f : α → Inquiry β}
    (hf : ∀ a, x = .ok a → (f a).Confined p as) : (liftM x >>= f : Inquiry β).Confined p as := by
  rcases x with fault | a
  · apply confined_of_run (.error fault)
    intro memo
    rw [run_bind, run_liftM]
  · have hsame : ∀ memo, (liftM (Except.ok a : Except Fault α) >>= f : Inquiry β).run memo =
        (f a).run memo := by
      intro memo
      rw [run_bind, run_liftM]
    have ha := hf a rfl
    constructor
    · intro memo memo' h
      rw [hsame, hsame]
      exact ha.outcome memo memo' h
    · intro memo
      rw [hsame]
      exact ha.answer memo
    · intro memo
      rw [hsame]
      exact ha.knows memo

theorem Confined.bind {x : Inquiry α} {f : α → Inquiry β} (hx : x.Confined p as)
    (hf : ∀ a, (f a).Confined p as) : (x >>= f).Confined p as := by
  constructor
  · intro memo memo' h
    have hresult := hx.outcome memo memo' h
    have hanswer := hx.answer memo
    have hanswer' := hx.answer memo'
    rw [run_bind, run_bind]
    rcases hrun : x.run memo with ⟨outcome, between⟩
    rcases hrun' : x.run memo' with ⟨outcome', between'⟩
    rw [hrun] at hresult hanswer
    rw [hrun'] at hresult hanswer'
    subst hresult
    rcases outcome with fault | a
    · rfl
    · exact (hf a).outcome between between' (hanswer.trans (h.trans hanswer'.symm))
  · intro memo
    have hanswer := hx.answer memo
    rw [run_bind]
    rcases hrun : x.run memo with ⟨fault | a, between⟩ <;> rw [hrun] at hanswer
    · exact hanswer
    · exact ((hf a).answer between).trans hanswer
  · intro memo
    have hknows := hx.knows memo
    rw [run_bind]
    rcases hrun : x.run memo with ⟨fault | a, between⟩ <;> rw [hrun] at hknows
    · exact hknows
    · exact hknows.trans ((hf a).knows between)

end Pass.Inquiry

/-! ### Plans -/

theorem TypeTable.mem_assemblies {types : TypeTable} {t : TypeDef} (ht : t ∈ types.toList) :
    t.assembly ∈ types.assemblies :=
  List.mem_eraseDups.mpr (List.mem_map.mpr ⟨t, ht, rfl⟩)

namespace Pass

open Inquiry

variable (pass : Pass)

theorem confined_ask {a : Assembly} (ha : a ∈ pass.program.types.assemblies) :
    (pass.ask a).Confined pass.profile pass.program.types.assemblies where
  outcome memo memo' h := by
    rw [run_ask, run_ask, Provenance.Memo.ask_fst, Provenance.Memo.ask_fst, h]
  answer memo := Provenance.Memo.answer_ask _ memo a
  knows _ := Provenance.Memo.extends_ask _ ha

theorem confined_anyOutsidePlatform (ms : List Token) :
    (pass.anyOutsidePlatform ms).Confined pass.profile pass.program.types.assemblies := by
  induction ms with
  | nil => exact confined_pure false
  | cons m ms ih =>
    unfold anyOutsidePlatform
    rcases pass.program.method? m with _ | d
    · exact confined_throw _
    · apply confined_liftM_bind
      intro owner howner
      -- the owner was looked up in the program, so its assembly is listed
      have hmem : owner ∈ pass.program.types.toList := by
        unfold Program.ownerOf at howner
        rcases hfind : pass.program.type? d.owner with _ | t
        · rw [hfind] at howner
          cases howner
        · rw [hfind] at howner
          cases howner
          exact TypeTable.mem_toList_of_find? hfind
      apply (pass.confined_ask (TypeTable.mem_assemblies hmem)).bind
      intro v
      split
      · exact ih
      · exact confined_pure true

theorem confined_isDispatchedInto (m : MethodDef) :
    (pass.isDispatchedInto m).Confined pass.profile pass.program.types.assemblies := by
  unfold isDispatchedInto
  split
  · exact pass.confined_anyOutsidePlatform _
  · exact confined_pure false

theorem confined_dispatchedInto (ms : List MethodDef) :
    (pass.dispatchedInto ms).Confined pass.profile pass.program.types.assemblies := by
  induction ms with
  | nil => exact confined_pure []
  | cons m ms ih =>
    apply (pass.confined_isDispatchedInto m).bind
    intro reached
    apply ih.bind
    intro others
    exact confined_pure _

theorem confined_nativeSurface (role : Role) (t : TypeDef) :
    (pass.nativeSurface role t).Confined pass.profile pass.program.types.assemblies := by
  unfold nativeSurface
  split
  · apply (pass.confined_dispatchedInto _).bind
    intro methods
    exact confined_pure _
  · exact confined_pure _

/-- **The plan for a type of the program is made without telling memories apart.** -/
theorem confined_plan {t : TypeDef} (ht : t ∈ pass.program.types.toList) :
    (pass.plan t).Confined pass.profile pass.program.types.assemblies := by
  unfold plan
  apply confined_liftM_bind
  intro role _
  split
  · exact confined_pure _
  · apply (pass.confined_ask (TypeTable.mem_assemblies ht)).bind
    intro v
    split
    · apply (pass.confined_nativeSurface role t).bind
      intro methods
      exact confined_pure _
    · apply confined_liftM_bind
      intro around _
      exact confined_pure _

/-! ### Two runs side by side -/

/-- What tells the two states apart is what their memories know, and what the log
    had in it at first. -/
structure Progress.Alike (p : Profile) (log log' : Array Notice) (s s' : Progress) : Prop where
  answer : s.memo.answer p = s'.memo.answer p
  retention : s.retention = s'.retention
  notices : ∃ lines, s.notices = log ++ lines ∧ s'.notices = log' ++ lines

theorem Progress.note_notices_eq {s : Progress} {log lines : Array Notice}
    (h : s.notices = log ++ lines) (ns : List Notice) :
    (s.note ns).notices = log ++ (lines ++ ns) := by
  apply Array.toList_inj.mp
  simp [Progress.note, h]

theorem Progress.Alike.note {p : Profile} {log log' : Array Notice} {s s' : Progress}
    (h : s.Alike p log log' s') (ns : List Notice) : (s.note ns).Alike p log log' (s'.note ns) := by
  obtain ⟨lines, hlog, hlog'⟩ := h.notices
  exact ⟨h.answer, h.retention, lines ++ ns, note_notices_eq hlog ns, note_notices_eq hlog' ns⟩

variable {pass} {log log' : Array Notice} {s s' : Progress}

theorem alike_process {t : TypeDef} (ht : t ∈ pass.program.types.toList)
    (h : s.Alike pass.profile log log' s') :
    (pass.process t s).1 = (pass.process t s').1 ∧
      (pass.process t s).2.Alike pass.profile log log' (pass.process t s').2 := by
  have hplan := pass.confined_plan ht
  have hresult := hplan.outcome _ _ h.answer
  have hanswer := ((hplan.answer s.memo).trans h.answer).trans (hplan.answer s'.memo).symm
  unfold process
  rcases hrun : (pass.plan t).run s.memo with ⟨outcome, memo⟩
  rcases hrun' : (pass.plan t).run s'.memo with ⟨outcome', memo'⟩
  rw [hrun, hrun'] at hresult hanswer
  subst hresult
  rcases outcome with fault | plan
  · exact ⟨rfl, hanswer, h.retention, h.notices⟩
  · simp only [h.retention, true_and]
    apply Progress.Alike.note
    exact ⟨hanswer, rfl, h.notices⟩

theorem extends_process {t : TypeDef} (ht : t ∈ pass.program.types.toList) (s : Progress) :
    s.memo.Extends pass.program.types.assemblies (pass.process t s).2.memo := by
  have hknows := (pass.confined_plan ht).knows s.memo
  unfold process
  rcases hrun : (pass.plan t).run s.memo with ⟨fault | plan, memo⟩ <;> rw [hrun] at hknows
  · exact hknows
  · exact hknows

theorem alike_processAll {ts : List TypeDef} (hts : ts ⊆ pass.program.types.toList) (sum : Tally)
    (h : s.Alike pass.profile log log' s') :
    (pass.processAll sum ts s).1 = (pass.processAll sum ts s').1 ∧
      (pass.processAll sum ts s).2.Alike pass.profile log log' (pass.processAll sum ts s').2 := by
  induction ts generalizing sum s s' with
  | nil => exact ⟨rfl, h⟩
  | cons t ts ih =>
    obtain ⟨ht, hrest⟩ := List.cons_subset.mp hts
    obtain ⟨hresult, halike⟩ := alike_process ht h
    unfold processAll
    rcases hrun : pass.process t s with ⟨outcome, u⟩
    rcases hrun' : pass.process t s' with ⟨outcome', u'⟩
    rw [hrun, hrun'] at hresult halike
    subst hresult
    rcases outcome with fault | tally
    · exact ⟨rfl, halike⟩
    · exact ih hrest (sum + tally) halike

theorem alike_run (h : s.Alike pass.profile log log' s') :
    (pass.run s).1 = (pass.run s').1 ∧
      (pass.run s).2.Alike pass.profile log log' (pass.run s').2 := by
  obtain ⟨hresult, halike⟩ := alike_processAll (List.Subset.refl _) 0 h
  unfold run
  rcases hrun : pass.processAll 0 pass.program.types.toList s with ⟨outcome, u⟩
  rcases hrun' : pass.processAll 0 pass.program.types.toList s' with ⟨outcome', u'⟩
  rw [hrun, hrun'] at hresult halike
  subst hresult
  rcases outcome with fault | tally
  · exact ⟨rfl, halike⟩
  · have hsummary : u.retention.summary = u'.retention.summary :=
      congrArg Retention.summary halike.retention
    refine ⟨rfl, ?_⟩
    change (u.note (.passDone tally :: u.retention.summary)).Alike _ _ _
      (u'.note (.passDone tally :: u'.retention.summary))
    rw [← hsummary]
    exact halike.note _

theorem alike_resolve (s : Progress) (line : Notice) :
    s.Alike pass.profile s.notices (s.notices.push line) ((pass.resolve s).2.note [line]) where
  answer := (Provenance.Memo.answer_resolve _ s.memo _).symm
  retention := rfl
  notices := ⟨#[], Array.append_empty.symm, Array.append_empty.symm⟩

/-! ### What a run asks about -/

/-- A run asks about assemblies of the program only, whether or not it succeeds. -/
theorem extends_run (pass : Pass) (s : Progress) :
    s.memo.Extends pass.program.types.assemblies (pass.run s).2.memo := by
  have hstart := Provenance.Memo.Extends.refl pass.program.types.assemblies s.memo
  have hall := processAll_preserves
    (P := fun u => s.memo.Extends pass.program.types.assemblies u.memo)
    (fun t ht u hu => hu.trans (extends_process ht u)) 0 hstart
  rw [run_memo]
  exact hall

/-! ### The outcome -/

/-- **Settling all provenance in advance is not seen in what a pass does.**  The
    result is the same, be it a tally or a fault, and so are the store and the log,
    but for one line at the start.  Afterwards all assemblies of the program are
    known, where otherwise some of them are. -/
theorem runResolved_refines_run (pass : Pass) (s : Progress) :
    (pass.runResolved s).1 = (pass.run s).1 ∧
      (pass.runResolved s).2.retention = (pass.run s).2.retention ∧
      (∃ lines, (pass.run s).2.notices = s.notices ++ lines ∧
        (pass.runResolved s).2.notices =
          s.notices.push
            (.productShare (pass.resolve s).1 pass.program.types.assemblies.length) ++ lines) ∧
      (∀ a, (pass.runResolved s).2.memo.Knows a ↔
        s.memo.Knows a ∨ a ∈ pass.program.types.assemblies) ∧
      ∃ asked, asked ⊆ pass.program.types.assemblies ∧
        ∀ a, (pass.run s).2.memo.Knows a ↔ s.memo.Knows a ∨ a ∈ asked := by
  generalize hline : Notice.productShare (pass.resolve s).1
    pass.program.types.assemblies.length = line
  have hrun : pass.runResolved s = pass.run ((pass.resolve s).2.note [line]) := by
    rw [← hline]
    rfl
  obtain ⟨hresult, hend⟩ := alike_run (alike_resolve s line)
  refine ⟨?_, ?_, ?_, ?_, pass.extends_run s⟩ <;> rw [hrun]
  · exact hresult.symm
  · exact hend.retention.symm
  · exact hend.notices
  · intro a
    have hknows : ((pass.resolve s).2.note [line]).memo.Knows a ↔
        s.memo.Knows a ∨ a ∈ pass.program.types.assemblies :=
      Provenance.Memo.knows_resolve _ s.memo _ a
    obtain ⟨asked, hsub, hasked⟩ := pass.extends_run ((pass.resolve s).2.note [line])
    -- what the run asks about is settled already
    have habsorb : a ∈ pass.program.types.assemblies ∨ a ∈ asked ↔
        a ∈ pass.program.types.assemblies :=
      or_iff_left_of_imp fun ha => hsub ha
    rw [hasked, hknows, or_assoc, habsorb]

end Pass

end TrimGuard
