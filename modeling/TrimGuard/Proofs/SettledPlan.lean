/-
  TrimGuard/Proofs/SettledPlan.lean
  =================================
  **The plan of a type, without a memory.**

  A plan is made by asking where assemblies come from, and the answers are taken
  from a memory where possible.  As long as the memory holds nothing but right
  answers, which asking preserves, the plan does not depend on it: it is the
  `settled` plan, a function of the program, the profile and the type.

  The settled plan also leaves out the ways in which the search among overriders
  could fault.  In a sealed program every overrider is a method of the program
  and has its owner there, so they are never taken.
-/
import TrimGuard.Pass.Plan
import TrimGuard.Proofs.Climb

namespace TrimGuard

/-! ### Sound memories -/

namespace Provenance.Memo

/-- Every remembered answer is the one that would be given without a memory. -/
def Sound (p : Profile) (memo : Memo) : Prop := ∀ e ∈ memo.known, e.2 = p.provenance e.1

theorem sound_empty (p : Profile) : Sound p {} := by
  intro e he
  cases he

theorem ask_of_sound {p : Profile} {memo : Memo} (h : memo.Sound p) (a : Assembly) :
    (ask p a memo).1 = p.provenance a ∧ (ask p a memo).2.Sound p := by
  unfold ask
  cases hlookup : memo.known.lookup a with
  | none =>
    refine ⟨rfl, ?_⟩
    intro e he
    rcases List.mem_cons.mp he with rfl | he
    · rfl
    · exact h e he
  | some v =>
    obtain ⟨before, after, hknown, -⟩ := List.lookup_eq_some_iff.mp hlookup
    have hmem : (a, v) ∈ memo.known := by
      rw [hknown]
      simp
    exact ⟨h (a, v) hmem, h⟩

theorem sound_resolve {p : Profile} (as : List Assembly) {memo : Memo} (h : memo.Sound p) :
    (resolve p as memo).2.Sound p := by
  induction as generalizing memo with
  | nil => exact h
  | cons a as ih => exact ih (ask_of_sound h a).2

end Provenance.Memo

/-! ### Inquiries under a sound memory -/

namespace Pass.Inquiry

variable {p : Profile} {α β : Type}

/-- Under every sound memory the inquiry comes to the given result, and leaves the
    memory sound. -/
def Answers (p : Profile) (x : Inquiry α) (result : Except Fault α) : Prop :=
  ∀ memo : Provenance.Memo, memo.Sound p →
    (x.run memo).1 = result ∧ (x.run memo).2.Sound p

theorem answers_pure (a : α) : Answers p (pure a) (.ok a) := by
  intro memo hmemo
  rw [run_pure]
  exact ⟨rfl, hmemo⟩

theorem answers_liftM (x : Except Fault α) : Answers p (liftM x) x := by
  intro memo hmemo
  rw [run_liftM]
  exact ⟨rfl, hmemo⟩

theorem Answers.bind {x : Inquiry α} {f : α → Inquiry β} {result : Except Fault α}
    {g : α → Except Fault β} (hx : Answers p x result)
    (hf : ∀ a, result = .ok a → Answers p (f a) (g a)) :
    Answers p (x >>= f) (result.bind g) := by
  intro memo hmemo
  obtain ⟨hresult, hsound⟩ := hx memo hmemo
  rw [run_bind]
  cases hrun : x.run memo with
  | mk outcome memo' =>
    rw [hrun] at hresult hsound
    subst hresult
    cases outcome with
    | error fault => exact ⟨rfl, hsound⟩
    | ok a => exact hf a rfl memo' hsound

theorem Answers.bind_ok {x : Inquiry α} {f : α → Inquiry β} {a : α} {result : Except Fault β}
    (hx : Answers p x (.ok a)) (hf : Answers p (f a) result) : Answers p (x >>= f) result := by
  refine hx.bind (g := fun _ => result) ?_
  intro b hb
  cases hb
  exact hf

theorem answers_map_liftM (x : Except Fault α) (f : α → β) :
    Answers p (do let a ← liftM x; return f a) (x.map f) := by
  have hmap : x.map f = x.bind fun a => .ok (f a) := by
    cases x <;> rfl
  rw [hmap]
  exact (answers_liftM x).bind fun a _ => answers_pure (f a)

end Pass.Inquiry

/-! ### The settled plan -/

namespace Pass

open Inquiry

variable (pass : Pass)

/-- The method is declared outside the platform assembly. -/
def DeclaredOutside (m : MethodDef) : Prop :=
  ∃ t ∈ pass.program.types.toList, t.token = m.owner ∧ t.assembly.name ≠ pass.profile.product

instance (m : MethodDef) : Decidable (pass.DeclaredOutside m) :=
  inferInstanceAs (Decidable (∃ t ∈ pass.program.types.toList, _))

/-- Some method declared outside the platform assembly records that it overrides
    `m`. -/
def OverriddenOutside (m : MethodDef) : Prop :=
  ∃ o ∈ pass.program.methods.toList, m.token ∈ o.overrides ∧ pass.DeclaredOutside o

instance (m : MethodDef) : Decidable (pass.OverriddenOutside m) :=
  inferInstanceAs (Decidable (∃ o ∈ pass.program.methods.toList, _))

/-- The native side reaches overrides of `m` outside the platform assembly. -/
def DispatchedInto (m : MethodDef) : Prop :=
  m.isVirtual = true ∧ m.exported = true ∧ pass.OverriddenOutside m

instance (m : MethodDef) : Decidable (pass.DispatchedInto m) :=
  inferInstanceAs (Decidable (_ ∧ _))

/-- The methods to be retained of a product type. -/
def settledSurface (role : Role) (t : TypeDef) : List MethodDef :=
  (pass.handleConstructor? t).toList ++
    if role = .bridgeObject then (pass.program.methodsOf t).filter pass.DispatchedInto else []

/-- The plan for a type, made without a memory. -/
def settled (t : TypeDef) : Except Fault Plan :=
  (pass.profile.roleOf pass.program.types t).bind fun role =>
    if !role.isBridged then .ok ⟨role, []⟩
    else if (pass.profile.provenance t.assembly).isProduct then
      .ok ⟨role, (pass.settledSurface role t).map (.member t)⟩
    else
      (pass.program.types.enclosing pass.profile.maxNesting t).map fun around =>
        ⟨role, (t :: around).map .whole⟩

theorem answers_ask (a : Assembly) :
    Answers pass.profile (pass.ask a) (.ok (pass.profile.provenance a)) := by
  intro memo hmemo
  obtain ⟨hanswer, hsound⟩ := Provenance.Memo.ask_of_sound hmemo a
  rw [run_ask, hanswer]
  exact ⟨rfl, hsound⟩

theorem provenance_eq_platform_iff (p : Profile) (a : Assembly) :
    p.provenance a = .platform ↔ a.name = p.product := by
  unfold Profile.provenance
  split
  next h => simp [h]
  next h => split <;> simp [h]

theorem provenance_isProduct_iff (p : Profile) (a : Assembly) :
    (p.provenance a).isProduct = true ↔ a.name = p.product ∨ a.name = p.compat := by
  unfold Profile.provenance
  by_cases hproduct : a.name = p.product
  · simp [hproduct, Provenance.isProduct]
  · rw [if_neg hproduct]
    by_cases hcompat : a.name = p.compat <;> simp [hproduct, hcompat, Provenance.isProduct]

variable {pass} (hp : pass.program.Sealed)
include hp

theorem declaredOutside_iff {m : MethodDef} {t : TypeDef} (ht : t ∈ pass.program.types.toList)
    (hown : t.token = m.owner) :
    pass.DeclaredOutside m ↔ t.assembly.name ≠ pass.profile.product := by
  constructor
  · rintro ⟨u, hu, hutoken, hname⟩
    rw [hp.type_ext ht hu (hown.trans hutoken.symm)]
    exact hname
  · intro hname
    exact ⟨t, ht, hown, hname⟩

theorem answers_anyOutsidePlatform {ms : List Token}
    (hms : ∀ m ∈ ms, ∃ d ∈ pass.program.methods.toList, d.token = m) :
    Answers pass.profile (pass.anyOutsidePlatform ms)
      (.ok (decide (∃ d ∈ pass.program.methods.toList, d.token ∈ ms ∧ pass.DeclaredOutside d))) := by
  induction ms with
  | nil =>
    simp only [anyOutsidePlatform, List.not_mem_nil, false_and, and_false, exists_false,
      decide_false]
    exact answers_pure false
  | cons m ms ih =>
    obtain ⟨d, hd, rfl⟩ := hms m List.mem_cons_self
    obtain ⟨t, ht, htoken, howner⟩ := hp.ownerOf_eq hd
    have hrest := ih fun m hm => hms m (List.mem_cons_of_mem _ hm)
    have hout := declaredOutside_iff hp ht htoken
    simp only [anyOutsidePlatform, hp.method?_token hd, howner]
    refine (answers_liftM (.ok t)).bind_ok ((answers_ask pass t.assembly).bind_ok ?_)
    by_cases hname : t.assembly.name = pass.profile.product
    · -- the head is declared in the platform assembly, so the tail decides
      rw [if_pos ((provenance_eq_platform_iff _ _).mpr hname)]
      have hhead : ¬ pass.DeclaredOutside d := fun h => hout.mp h hname
      have htail : (∃ e ∈ pass.program.methods.toList,
            e.token ∈ d.token :: ms ∧ pass.DeclaredOutside e) ↔
          ∃ e ∈ pass.program.methods.toList, e.token ∈ ms ∧ pass.DeclaredOutside e := by
        constructor
        · rintro ⟨e, he, hmem, hdeclared⟩
          rcases List.mem_cons.mp hmem with heq | hmem
          · rw [hp.method_ext he hd heq] at hdeclared
            exact absurd hdeclared hhead
          · exact ⟨e, he, hmem, hdeclared⟩
        · rintro ⟨e, he, hmem, hdeclared⟩
          exact ⟨e, he, List.mem_cons_of_mem _ hmem, hdeclared⟩
      rw [decide_eq_decide.mpr htail]
      exact hrest
    · rw [if_neg (fun h => hname ((provenance_eq_platform_iff _ _).mp h))]
      have hfound : ∃ e ∈ pass.program.methods.toList,
          e.token ∈ d.token :: ms ∧ pass.DeclaredOutside e :=
        ⟨d, hd, List.mem_cons_self, hout.mpr hname⟩
      rw [decide_eq_true hfound]
      exact answers_pure true

theorem answers_isDispatchedInto (m : MethodDef) :
    Answers pass.profile (pass.isDispatchedInto m) (.ok (decide (pass.DispatchedInto m))) := by
  unfold isDispatchedInto
  by_cases hreach : (m.isVirtual && m.exported) = true
  · rw [if_pos hreach]
    rw [Bool.and_eq_true] at hreach
    have hiff : pass.DispatchedInto m ↔ ∃ d ∈ pass.program.methods.toList,
        d.token ∈ pass.program.overridersOf m.token ∧ pass.DeclaredOutside d := by
      simp only [DispatchedInto, OverriddenOutside, hreach, true_and]
      constructor
      · rintro ⟨o, ho, hover, hdeclared⟩
        exact ⟨o, ho, (pass.program.mem_overridersOf_iff _ _).mpr ⟨o, ho, hover, rfl⟩, hdeclared⟩
      · rintro ⟨d, hd, hmem, hdeclared⟩
        obtain ⟨o, ho, hover, htoken⟩ := (pass.program.mem_overridersOf_iff _ _).mp hmem
        rw [← hp.method_ext ho hd htoken] at hdeclared
        exact ⟨o, ho, hover, hdeclared⟩
    rw [decide_eq_decide.mpr hiff]
    apply answers_anyOutsidePlatform hp
    intro o ho
    obtain ⟨d, hd, -, htoken⟩ := (pass.program.mem_overridersOf_iff _ _).mp ho
    exact ⟨d, hd, htoken⟩
  · rw [if_neg hreach]
    have hnot : ¬ pass.DispatchedInto m := by
      rintro ⟨hvirtual, hexported, -⟩
      exact hreach (by rw [hvirtual, hexported]; rfl)
    rw [decide_eq_false hnot]
    exact answers_pure false

theorem answers_dispatchedInto (ms : List MethodDef) :
    Answers pass.profile (pass.dispatchedInto ms) (.ok (ms.filter pass.DispatchedInto)) := by
  induction ms with
  | nil => exact answers_pure []
  | cons m ms ih =>
    simp only [dispatchedInto]
    refine (answers_isDispatchedInto hp m).bind_ok (ih.bind_ok ?_)
    by_cases hm : pass.DispatchedInto m
    · simp only [decide_eq_true hm, if_true, List.filter_cons_of_pos]
      exact answers_pure _
    · simp only [decide_eq_false hm, Bool.false_eq_true, if_false, List.filter_cons_of_neg,
        not_false_eq_true]
      exact answers_pure _

theorem answers_nativeSurface (role : Role) (t : TypeDef) :
    Answers pass.profile (pass.nativeSurface role t) (.ok (pass.settledSurface role t)) := by
  unfold nativeSurface settledSurface
  by_cases hrole : role = .bridgeObject
  · simp only [if_pos hrole]
    exact (answers_dispatchedInto hp _).bind_ok (answers_pure _)
  · simp only [if_neg hrole, List.append_nil]
    exact answers_pure _

/-- **Under a sound memory the plan for a type is the settled plan.** -/
theorem answers_plan (t : TypeDef) : Answers pass.profile (pass.plan t) (pass.settled t) := by
  unfold plan settled
  refine (answers_liftM _).bind ?_
  intro role _
  by_cases hbridged : role.isBridged = true
  · simp only [hbridged, Bool.not_true, Bool.false_eq_true, if_false]
    refine (answers_ask pass t.assembly).bind_ok ?_
    by_cases hproduct : (pass.profile.provenance t.assembly).isProduct = true
    · simp only [hproduct, if_true]
      exact (answers_nativeSurface hp role t).bind_ok (answers_pure _)
    · simp only [hproduct, Bool.false_eq_true, if_false]
      exact answers_map_liftM _ _
  · simp only [hbridged, Bool.not_false, if_true]
    exact answers_pure _

end Pass

end TrimGuard
