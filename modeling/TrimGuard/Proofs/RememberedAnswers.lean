/-
  TrimGuard/Proofs/RememberedAnswers.lean
  =======================================
  **What a memory of provenance holds.**

  A memory that was empty at first holds the answers to the questions that were put to
  it, each once and in the order in which they were first put (`remembered`).  So its
  size is the number of different assemblies that were asked about, and no answer
  depends on it.

  Questions are also put by passes.  Which ones can be told without a memory: a pass
  asks about the assembly of each bridged type, and for each exported virtual method of a
  bridge object of the product about the assemblies of its overriders, up to the first
  that is not the platform binding (`Pass.questions`).  A memory cannot tell whether the
  questions come from a pass or are put one by one (`Poses`).
-/
import TrimGuard.Proofs.FirstOccurrences
import TrimGuard.Proofs.PassOutcome
import TrimGuard.Proofs.ResolvedRun

namespace TrimGuard

/-! ### Questions in a row -/

namespace Provenance.Memo

/-- The memory after questions that were put one after the other. -/
def askAll (p : Profile) (as : List Assembly) (memo : Memo) : Memo :=
  as.foldl (fun memo a => (ask p a memo).2) memo

/-- The memory that holds the right answers for the given assemblies, the last one
    first. -/
def remembered (p : Profile) (as : List Assembly) : Memo :=
  ⟨as.eraseDups.reverse.map fun a => (a, p.provenance a)⟩

variable {p : Profile}

theorem askAll_append (as bs : List Assembly) (memo : Memo) :
    askAll p (as ++ bs) memo = askAll p bs (askAll p as memo) :=
  List.foldl_append

theorem resolve_snd (as : List Assembly) (memo : Memo) :
    (resolve p as memo).2 = askAll p as memo := by
  induction as generalizing memo with
  | nil => rfl
  | cons a as ih => exact ih (ask p a memo).2

/-- Resolving counts the assemblies that are product code. -/
theorem resolve_fst (as : List Assembly) {memo : Memo} (h : memo.Sound p) :
    (resolve p as memo).1 = as.countP fun a => a.name = p.product ∨ a.name = p.compat := by
  induction as generalizing memo with
  | nil => rfl
  | cons a as ih =>
    obtain ⟨hanswer, hsound⟩ := ask_of_sound h a
    have hstep : (resolve p (a :: as) memo).1 =
        if (ask p a memo).1.isProduct then (resolve p as (ask p a memo).2).1 + 1
        else (resolve p as (ask p a memo).2).1 := rfl
    rw [hstep, hanswer, ih hsound, List.countP_cons]
    by_cases hproduct : a.name = p.product ∨ a.name = p.compat
    · rw [if_pos ((Pass.provenance_isProduct_iff p a).mpr hproduct), decide_eq_true hproduct,
        if_pos rfl]
    · rw [if_neg fun h => hproduct ((Pass.provenance_isProduct_iff p a).mp h),
        decide_eq_false hproduct, if_neg Bool.false_ne_true, Nat.add_zero]

/-! ### What is remembered -/

theorem knows_remembered (as : List Assembly) (a : Assembly) :
    (remembered p as).Knows a ↔ a ∈ as := by
  simp [Knows, remembered]

theorem size_remembered (as : List Assembly) : (remembered p as).size = as.eraseDups.length := by
  simp [size, remembered]

theorem sound_remembered (as : List Assembly) : (remembered p as).Sound p := by
  intro e he
  obtain ⟨a, -, rfl⟩ := List.mem_map.mp he
  rfl

/-- One more question is remembered if it is new. -/
theorem ask_remembered (as : List Assembly) (a : Assembly) :
    (ask p a (remembered p as)).2 = remembered p (as ++ [a]) := by
  have hlookup := (remembered p as).lookup_eq_none_iff a
  rw [knows_remembered] at hlookup
  unfold ask
  by_cases hmem : a ∈ as
  · rcases hanswer : (remembered p as).known.lookup a with _ | v
    · exact absurd hmem (hlookup.mp hanswer)
    · rw [remembered, remembered, eraseDups_concat_of_mem hmem]
  · rw [hlookup.mpr hmem, remembered, remembered, eraseDups_concat_of_notMem hmem,
      List.reverse_append, List.map_append]
    rfl

/-- **An empty memory comes to hold the answers to what it is asked.** -/
theorem askAll_empty (as : List Assembly) : askAll p as {} = remembered p as := by
  induction as using List.reverseRecOn with
  | nil => rfl
  | append_singleton as a ih =>
    rw [askAll_append, ih]
    exact ask_remembered as a

end Provenance.Memo

/-! ### Questions of an inquiry -/

namespace Pass.Inquiry

variable {p : Profile} {α β : Type}

/-- To a sound memory the inquiry is the given questions, put one after the other. -/
def Poses (p : Profile) (x : Inquiry α) (as : List Assembly) : Prop :=
  ∀ memo : Provenance.Memo, memo.Sound p → (x.run memo).2 = memo.askAll p as

theorem poses_pure (a : α) : Poses p (pure a) [] := fun _ _ => rfl

/-- A step that is known to succeed is followed by the questions of what comes next. -/
theorem Poses.bind_ok {x : Inquiry α} {f : α → Inquiry β} {a : α} {as bs : List Assembly}
    (hx : Poses p x as) (hanswer : Answers p x (.ok a)) (hf : Poses p (f a) bs) :
    Poses p (x >>= f) (as ++ bs) := by
  intro memo hmemo
  have hasked := hx memo hmemo
  obtain ⟨hresult, hsound⟩ := hanswer memo hmemo
  rw [run_bind]
  rcases hrun : x.run memo with ⟨outcome, memo'⟩
  rw [hrun] at hasked hresult hsound
  subst hasked hresult
  rw [Provenance.Memo.askAll_append]
  exact hf _ hsound

/-- An inquiry that begins with a question goes on with the right answer. -/
theorem poses_ask_bind {pass : Pass} {a : Assembly} {f : Provenance → Inquiry β}
    {as : List Assembly} (hf : Poses pass.profile (f (pass.profile.provenance a)) as) :
    Poses pass.profile (pass.ask a >>= f) (a :: as) := by
  have hask : Poses pass.profile (pass.ask a) [a] := fun _ _ => rfl
  exact hask.bind_ok (answers_ask pass a) hf

/-- Nothing more is asked where only the result is put into shape. -/
theorem Poses.bind_pure {x : Inquiry α} {as : List Assembly} (hx : Poses p x as) (f : α → β) :
    Poses p (x >>= fun a => pure (f a)) as := by
  intro memo hmemo
  rw [run_bind, ← hx memo hmemo]
  rcases x.run memo with ⟨_ | _, _⟩ <;> rfl

/-- A step that asks nothing goes on with its result, or ends the inquiry. -/
theorem poses_liftM_bind {x : Except Fault α} {f : α → Inquiry β} {as : List Assembly}
    (hfault : ∀ fault, x = .error fault → as = [])
    (hf : ∀ a, x = .ok a → Poses p (f a) as) : Poses p (liftM x >>= f) as := by
  intro memo hmemo
  rw [run_bind, run_liftM]
  rcases x with fault | a
  · rw [hfault fault rfl]
    rfl
  · exact hf a rfl memo hmemo

end Pass.Inquiry

/-! ### Questions of a pass -/

/-- Of the given assemblies, those up to the first that is not the platform binding. -/
def Profile.upToOutside (p : Profile) : List Assembly → List Assembly
  | [] => []
  | a :: rest => a :: if a.name = p.product then p.upToOutside rest else []

namespace Pass

open Inquiry

section Questions

variable (pass : Pass)

/-- The assembly that declares the method of this token. -/
def declaringAssembly? (m : Token) : Option Assembly :=
  (pass.program.method? m).bind fun d => (pass.program.type? d.owner).map fun t => t.assembly

/-- The assemblies asked about to learn whether the native side reaches overrides of
    `m` outside the platform. -/
def dispatchQuestions (m : MethodDef) : List Assembly :=
  if m.isVirtual && m.exported then
    pass.profile.upToOutside
      ((pass.program.overridersOf m.token).filterMap pass.declaringAssembly?)
  else []

/-- The assemblies asked about to plan for a type of the given role. -/
def questionsAs (role : Role) (t : TypeDef) : List Assembly :=
  if !role.isBridged then []
  else t.assembly ::
    if (pass.profile.provenance t.assembly).isProduct ∧ role = .bridgeObject then
      (pass.program.methodsOf t).flatMap pass.dispatchQuestions
    else []

/-- The assemblies asked about to plan for a type. -/
def questions (t : TypeDef) : List Assembly :=
  match pass.profile.roleOf pass.program.types t with
  | .ok role => pass.questionsAs role t
  | .error _ => []

/-- The assemblies asked about to plan for each type in turn, up to the first fault. -/
def questionsOfAll : List TypeDef → List Assembly
  | [] => []
  | t :: rest =>
    pass.questions t ++
      match pass.settled t with
      | .ok _ => questionsOfAll rest
      | .error _ => []

end Questions

variable {pass : Pass} (hp : pass.program.Sealed)
include hp

theorem poses_anyOutsidePlatform {ms : List Token}
    (hms : ∀ m ∈ ms, ∃ d ∈ pass.program.methods.toList, d.token = m) :
    Poses pass.profile (pass.anyOutsidePlatform ms)
      (pass.profile.upToOutside (ms.filterMap pass.declaringAssembly?)) := by
  induction ms with
  | nil => exact poses_pure false
  | cons m ms ih =>
    obtain ⟨d, hd, rfl⟩ := hms m List.mem_cons_self
    obtain ⟨t, ht, htoken, howner⟩ := hp.ownerOf_eq hd
    have hfind : pass.program.type? d.owner = some t := by
      rw [← htoken]
      exact hp.find?_token ht
    have hdeclaring : pass.declaringAssembly? d.token = some t.assembly := by
      rw [declaringAssembly?, hp.method?_token hd, Option.bind_some, hfind, Option.map_some]
    simp only [anyOutsidePlatform, hp.method?_token hd, howner,
      List.filterMap_cons_some hdeclaring, Profile.upToOutside]
    refine poses_liftM_bind (fun _ h => by cases h) fun owner howner => ?_
    cases howner
    refine poses_ask_bind ?_
    by_cases hname : t.assembly.name = pass.profile.product
    · rw [if_pos ((provenance_eq_platform_iff _ _).mpr hname), if_pos hname]
      exact ih fun m hm => hms m (List.mem_cons_of_mem _ hm)
    · rw [if_neg fun h => hname ((provenance_eq_platform_iff _ _).mp h), if_neg hname]
      exact poses_pure true

theorem poses_isDispatchedInto (m : MethodDef) :
    Poses pass.profile (pass.isDispatchedInto m) (pass.dispatchQuestions m) := by
  unfold isDispatchedInto dispatchQuestions
  split
  · apply poses_anyOutsidePlatform hp
    intro o ho
    obtain ⟨d, hd, -, htoken⟩ := (pass.program.mem_overridersOf_iff _ _).mp ho
    exact ⟨d, hd, htoken⟩
  · exact poses_pure false

theorem poses_dispatchedInto (ms : List MethodDef) :
    Poses pass.profile (pass.dispatchedInto ms) (ms.flatMap pass.dispatchQuestions) := by
  induction ms with
  | nil => exact poses_pure []
  | cons m ms ih =>
    simp only [dispatchedInto, List.flatMap_cons]
    exact (poses_isDispatchedInto hp m).bind_ok (answers_isDispatchedInto hp m) (ih.bind_pure _)

theorem poses_nativeSurface (role : Role) (t : TypeDef) :
    Poses pass.profile (pass.nativeSurface role t)
      (if role = .bridgeObject then
        (pass.program.methodsOf t).flatMap pass.dispatchQuestions else []) := by
  unfold nativeSurface
  split
  · exact (poses_dispatchedInto hp _).bind_pure _
  · exact poses_pure _

/-- **To a sound memory the plan for a type is its questions.** -/
theorem poses_plan (t : TypeDef) : Poses pass.profile (pass.plan t) (pass.questions t) := by
  unfold plan questions
  refine poses_liftM_bind (fun fault h => by rw [h]) fun role hrole => ?_
  rw [hrole]
  simp only [questionsAs]
  by_cases hbridged : (!role.isBridged) = true
  · simp only [hbridged, if_true]
    exact poses_pure _
  · simp only [hbridged, Bool.false_eq_true, if_false]
    refine poses_ask_bind ?_
    by_cases hproduct : (pass.profile.provenance t.assembly).isProduct = true
    · simp only [hproduct, if_true, true_and]
      exact (poses_nativeSurface hp role t).bind_pure _
    · simp only [hproduct, Bool.false_eq_true, if_false, false_and]
      exact poses_liftM_bind (fun _ _ => rfl) fun _ _ => poses_pure _

variable {s : Progress} (hs : s.memo.Sound pass.profile)
include hs

theorem memo_process (t : TypeDef) :
    (pass.process t s).2.memo = s.memo.askAll pass.profile (pass.questions t) := by
  rw [← poses_plan hp t s.memo hs]
  unfold process
  rcases (pass.plan t).run s.memo with ⟨_ | _, _⟩ <;> rfl

theorem memo_processAll (sum : Tally) (ts : List TypeDef) :
    (pass.processAll sum ts s).2.memo = s.memo.askAll pass.profile (pass.questionsOfAll ts) := by
  induction ts generalizing sum s with
  | nil => rfl
  | cons t ts ih =>
    have hmemo := memo_process hp hs t
    have hsound := sound_process hp hs t
    have hresult := (process_spec hp hs t).1
    unfold processAll questionsOfAll
    rcases hrun : pass.process t s with ⟨outcome, s'⟩
    rw [hrun] at hmemo hsound hresult
    rcases hsettled : pass.settled t with fault | plan <;> rw [hsettled] at hresult
    · obtain rfl : outcome = .error fault := hresult
      rw [List.append_nil]
      exact hmemo
    · subst hresult
      rw [Provenance.Memo.askAll_append, ← hmemo]
      exact ih hsound _

theorem memo_run :
    (pass.run s).2.memo =
      s.memo.askAll pass.profile (pass.questionsOfAll pass.program.types.toList) := by
  rw [run_memo]
  exact memo_processAll hp hs 0 _

theorem memo_runResolved :
    (pass.runResolved s).2.memo =
      s.memo.askAll pass.profile (pass.program.types.assemblies ++
        pass.questionsOfAll pass.program.types.toList) := by
  have hresolved : (pass.resolve s).2.memo.Sound pass.profile :=
    Provenance.Memo.sound_resolve _ hs
  have hmemo : (pass.resolve s).2.memo =
      s.memo.askAll pass.profile pass.program.types.assemblies :=
    Provenance.Memo.resolve_snd _ s.memo
  rw [Provenance.Memo.askAll_append, ← hmemo]
  exact memo_run (s := (pass.resolve s).2.note [_]) hp hresolved

end Pass

/-! ### Histories -/

namespace Provenance

/-- What a memory is used for: single questions, all assemblies of a table, and the
    work of passes over sealed programs, on any store and with any log. -/
inductive Use where
  | ask (a : Assembly)
  | askProduct (a : Assembly)
  | askPlatform (a : Assembly)
  | resolve (types : TypeTable)
  | process (program : Program) (hp : program.Sealed) (t : TypeDef) (s : Pass.Progress)
  | run (program : Program) (hp : program.Sealed) (s : Pass.Progress)
  | runResolved (program : Program) (hp : program.Sealed) (s : Pass.Progress)

namespace Use

/-- The memory after a use. -/
def perform (p : Profile) (memo : Memo) : Use → Memo
  | .ask a => (Memo.ask p a memo).2
  | .askProduct a => (Memo.askProduct p a memo).2
  | .askPlatform a => (Memo.askPlatform p a memo).2
  | .resolve types => (Memo.resolve p types.assemblies memo).2
  | .process program _ t s => (Pass.process ⟨program, p⟩ t { s with memo }).2.memo
  | .run program _ s => (Pass.run ⟨program, p⟩ { s with memo }).2.memo
  | .runResolved program _ s => (Pass.runResolved ⟨program, p⟩ { s with memo }).2.memo

/-- The assemblies asked about. -/
def questions (p : Profile) : Use → List Assembly
  | .ask a | .askProduct a | .askPlatform a => [a]
  | .resolve types => types.assemblies
  | .process program _ t _ => Pass.questions ⟨program, p⟩ t
  | .run program _ _ => Pass.questionsOfAll ⟨program, p⟩ program.types.toList
  | .runResolved program _ _ =>
    program.types.assemblies ++ Pass.questionsOfAll ⟨program, p⟩ program.types.toList

/-- **Every use puts its questions to the memory, and does nothing else to it.** -/
theorem perform_eq_askAll (p : Profile) {memo : Memo} (hmemo : memo.Sound p) (use : Use) :
    use.perform p memo = memo.askAll p (use.questions p) := by
  cases use with
  | ask a => rfl
  | askProduct a => rfl
  | askPlatform a => rfl
  | resolve types => exact Memo.resolve_snd _ memo
  | process program hp t s => exact @Pass.memo_process ⟨program, p⟩ hp { s with memo } hmemo t
  | run program hp s => exact @Pass.memo_run ⟨program, p⟩ hp { s with memo } hmemo
  | runResolved program hp s => exact @Pass.memo_runResolved ⟨program, p⟩ hp { s with memo } hmemo

end Use

/-- The memory after any number of uses, empty at first. -/
def after (p : Profile) (uses : List Use) : Memo :=
  uses.foldl (fun memo use => use.perform p memo) {}

/-- **A memory holds what it was asked about, each assembly once.** -/
theorem after_eq_remembered (p : Profile) (uses : List Use) :
    after p uses = .remembered p (uses.flatMap fun use => use.questions p) := by
  induction uses using List.reverseRecOn with
  | nil => rfl
  | append_singleton uses use ih =>
    have hstep : after p (uses ++ [use]) = use.perform p (after p uses) := List.foldl_concat _ _ _ _
    rw [hstep, ih, Use.perform_eq_askAll p (Memo.sound_remembered _), ← Memo.askAll_empty,
      ← Memo.askAll_append, Memo.askAll_empty, List.flatMap_append]
    simp

/-! ### The outcome -/

/-- **A memory is never noticed, and it is never wrong about how much it holds.**
    Whatever it was used for: every answer is the one that the name of the assembly
    gives, so that versions and cultures of one name get one answer, and every plan is the
    one that is made without a memory.  Its size is the number of different assemblies
    that were asked about.  Resolving the assemblies of a table counts those with one of
    the two trusted names, and adds just these assemblies to what is known. -/
theorem memory_transparent_and_exact (p : Profile) (uses : List Use) :
    let memo := after p uses
    let asked := uses.flatMap fun use => use.questions p
    (∀ a, (Memo.ask p a memo).1 =
      if a.name = p.product then .platform
      else if a.name = p.compat then .compat
      else .consumer) ∧
    (∀ a, (Memo.askProduct p a memo).1 = true ↔ a.name = p.product ∨ a.name = p.compat) ∧
    (∀ a, (Memo.askPlatform p a memo).1 = true ↔ a.name = p.product) ∧
    (∀ a b, a.name = b.name → (Memo.ask p a memo).1 = (Memo.ask p b memo).1) ∧
    (∀ (program : Program) (t : TypeDef), program.Sealed →
      ((Pass.plan ⟨program, p⟩ t).run memo).1 = Pass.settled ⟨program, p⟩ t) ∧
    memo.size = asked.eraseDups.length ∧ (∀ a, memo.Knows a ↔ a ∈ asked) ∧
    ∀ types : TypeTable,
      (Memo.resolve p types.assemblies memo).1 =
        types.assemblies.countP (fun a => a.name = p.product ∨ a.name = p.compat) ∧
      ∀ a, (Memo.resolve p types.assemblies memo).2.Knows a ↔
        memo.Knows a ∨ a ∈ types.assemblies := by
  intro memo asked
  have hmemo : memo = .remembered p asked := after_eq_remembered p uses
  have hsound : memo.Sound p := by
    rw [hmemo]
    exact Memo.sound_remembered asked
  have hanswer : ∀ a, (Memo.ask p a memo).1 = p.provenance a :=
    fun a => (Memo.ask_of_sound hsound a).1
  refine ⟨hanswer, ?_, ?_, ?_, ?_, ?_, ?_, ?_⟩
  · intro a
    rw [← Pass.provenance_isProduct_iff, ← hanswer]
    rfl
  · intro a
    rw [← Pass.provenance_eq_platform_iff, ← hanswer]
    exact decide_eq_true_iff
  · intro a b hname
    rw [hanswer, hanswer, Profile.provenance, Profile.provenance, hname]
  · intro program t hp
    exact (@Pass.answers_plan ⟨program, p⟩ hp t memo hsound).1
  · rw [hmemo]
    exact Memo.size_remembered asked
  · intro a
    rw [hmemo]
    exact Memo.knows_remembered asked a
  · intro types
    exact ⟨Memo.resolve_fst _ hsound, Memo.knows_resolve p memo _⟩

/-- Two versions of one assembly, then a run, then all assemblies of its program. -/
def sampleUses : List Use :=
  let hp := Pass.sampleDraft.sealed_of_toProgram Pass.toProgram_sampleDraft
  [ .ask ⟨"Xamarin.iOS", .unknown, none⟩,
    .askPlatform ⟨"Xamarin.iOS", ⟨16, 0, 0, 0⟩, none⟩,
    .run Pass.sample.program hp {},
    .resolve Pass.sample.program.types ]

theorem memory_transparent_and_exact_sample :
    let memo := after .iOS sampleUses
    let old : Assembly := ⟨"Xamarin.iOS", .unknown, none⟩
    let new : Assembly := ⟨"Xamarin.iOS", ⟨16, 0, 0, 0⟩, none⟩
    (Memo.ask .iOS old memo).1 = (Memo.ask .iOS new memo).1 ∧ memo.size = 3 ∧
      Pass.sample.program.Sealed ∧
      (∀ t, ((Pass.plan ⟨Pass.sample.program, .iOS⟩ t).run memo).1 =
        Pass.settled ⟨Pass.sample.program, .iOS⟩ t) ∧
      (Memo.resolve .iOS Pass.sample.program.types.assemblies memo).1 = 1 := by
  intro memo old new
  have hp := Pass.sampleDraft.sealed_of_toProgram Pass.toProgram_sampleDraft
  obtain ⟨-, -, -, hname, hplan, hsize, -, hresolve⟩ :=
    memory_transparent_and_exact .iOS sampleUses
  refine ⟨hname old new rfl, hsize.trans ?_, hp, fun t => hplan _ t hp, (hresolve _).1.trans ?_⟩
  · decide +kernel
  · decide +kernel

end Provenance

end TrimGuard
