/-
  TrimGuard/Proofs/LooserLimits.lean
  ==================================
  **Limits only ever reject.**

  A walk that is cut short by its limit is a fault, never an answer.  So an answer
  that was given under one limit was given without looking at it, and a larger
  limit gives the same answer again.  This is plain for the chains, which go up
  one type at a time.  The interface search shares the interfaces that it has
  entered between all of its paths, and an interface that was entered too deep
  down could keep a shorter path from being followed; but there it is the fault
  that ends the search, so no such interface is ever among those that a search
  with an answer has entered (`search_of_le`).

  Nothing but the walks reads the limits.  A run that succeeds is therefore the
  very same run under larger ones: the result, the store, the memory and the log.
-/
import TrimGuard.Proofs.RunCriterion

namespace TrimGuard

/-! ### Walks -/

namespace TypeTable

variable {types : TypeTable} {up : TypeDef → Option Token}

/-- A walk that did not use up its limit takes no notice of a larger one, however
    it ended. -/
theorem ascend_of_le {steps steps' : Nat} {met : List Token} {start : Option Token}
    (h : (types.ascend up steps met start).finish ≠ .tooHigh) (hle : steps ≤ steps') :
    types.ascend up steps' met start = types.ascend up steps met start := by
  induction steps generalizing steps' met start with
  | zero =>
    rcases start with _ | t
    · simp only [ascend]
    · by_cases hmet : t ∈ met
      · rcases steps' with _ | more <;> simp only [ascend, if_pos hmet]
      · rw [ascend, if_neg hmet] at h
        exact absurd rfl h
  | succ steps ih =>
    obtain ⟨more, rfl⟩ : ∃ more, steps' = more + 1 := ⟨steps' - 1, by omega⟩
    rcases start with _ | t
    · simp only [ascend]
    · simp only [ascend] at h ⊢
      by_cases hmet : t ∈ met
      · simp only [if_pos hmet]
      · simp only [if_neg hmet] at h ⊢
        rcases hfind : types.find? t with _ | d
        · rfl
        · simp only [hfind] at h ⊢
          rw [ih h (Nat.le_of_succ_le_succ hle)]

theorem lineage_of_le {limit limit' : Nat} {t : TypeDef} {line : List TypeDef}
    (h : types.lineage limit t = .ok line) (hle : limit ≤ limit') :
    types.lineage limit' t = .ok line := by
  have hsame := @ascend_of_le types (fun d => d.base) limit limit' [t.token] t.base
  simp only [lineage] at h ⊢
  rcases hend : (types.ascend (fun d => d.base) limit [t.token] t.base).finish with
    _ | q | _ | q <;> rw [hend] at h hsame
  · rw [hsame (by simp) hle, hend]
    exact h
  · cases h
  · cases h
  · rw [hsame (by simp) hle, hend]
    exact h

theorem enclosing_of_le {limit limit' : Nat} {t : TypeDef} {around : List TypeDef}
    (h : types.enclosing limit t = .ok around) (hle : limit ≤ limit') :
    types.enclosing limit' t = .ok around := by
  have hsame := @ascend_of_le types (fun d => d.enclosing) limit limit' [t.token] t.enclosing
  simp only [enclosing] at h ⊢
  rcases hend : (types.ascend (fun d => d.enclosing) limit [t.token] t.enclosing).finish with
    _ | q | _ | q <;> rw [hend] at h hsame
  · rw [hsame (by simp) hle, hend]
    exact h
  · cases h
  · cases h
  · cases h

theorem through_of_visit {visit visit' : List Token → Token → Except Fault Search}
    (hvisit : ∀ entered i answer, visit entered i = .ok answer → visit' entered i = .ok answer)
    {is : List Token} {entered : List Token} {answer : Search}
    (h : Search.through visit entered is = .ok answer) :
    Search.through visit' entered is = .ok answer := by
  induction is generalizing entered with
  | nil => exact h
  | cons i is ih =>
    simp only [Search.through] at h ⊢
    rcases hhead : visit entered i with fault | _ | entered' <;> simp only [hhead] at h
    · cases h
    · simp only [hvisit _ _ _ hhead]
      exact h
    · simp only [hvisit _ _ _ hhead]
      exact ih h

/-- **A search that comes to an answer comes to the same one with more depth to
    go.** -/
theorem search_of_le {wanted : QualifiedName} {limit limit' depth depth' : Nat}
    {entered : List Token} {i : Token} {answer : Search}
    (h : types.search wanted limit depth entered i = .ok answer) (hle : depth ≤ depth') :
    types.search wanted limit' depth' entered i = .ok answer := by
  induction depth generalizing depth' entered i answer with
  | zero => cases h
  | succ depth ih =>
    obtain ⟨more, rfl⟩ : ∃ more, depth' = more + 1 := ⟨depth' - 1, by omega⟩
    have hless : depth ≤ more := Nat.le_of_succ_le_succ hle
    simp only [search] at h ⊢
    by_cases hentered : i ∈ entered
    · rw [if_pos hentered] at h ⊢
      exact h
    · rw [if_neg hentered] at h ⊢
      rcases hfind : types.find? i with _ | d <;> simp only [hfind] at h ⊢
      · exact h
      · by_cases hname : d.name = wanted
        · rw [if_pos hname] at h ⊢
          exact h
        · rw [if_neg hname] at h ⊢
          exact through_of_visit (fun _ _ _ hvisit => ih hvisit hless) h

end TypeTable

/-! ### Plans -/

/-- The same profile with other limits. -/
def Profile.withLimits (p : Profile) (nesting hierarchy : Nat) : Profile :=
  { p with maxNesting := nesting, maxHierarchy := hierarchy }

theorem Profile.roleOf_withLimits {p : Profile} {types : TypeTable} {t : TypeDef} {role : Role}
    (nesting : Nat) {hierarchy : Nat} (hle : p.maxHierarchy ≤ hierarchy)
    (h : p.roleOf types t = .ok role) :
    (p.withLimits nesting hierarchy).roleOf types t = .ok role := by
  have hdepth : p.maxHierarchy + 1 ≤ hierarchy + 1 := Nat.succ_le_succ hle
  rw [Profile.roleOf_eq_ok_iff] at h ⊢
  obtain ⟨line, hline, hrole⟩ := h
  refine ⟨line, TypeTable.lineage_of_le hline hle, ?_⟩
  rcases hrole with hroot | ⟨hnone, answer, hsearch, hanswer⟩
  · exact Or.inl hroot
  · refine Or.inr ⟨hnone, answer, ?_, hanswer⟩
    exact TypeTable.through_of_visit
      (fun _ _ _ hvisit => TypeTable.search_of_le hvisit hdepth) hsearch

namespace Pass

namespace Inquiry

variable {α β : Type}

/-- What the first inquiry comes to without a fault, the second one comes to as
    well, and both remember the same by then. -/
def Refines (x y : Inquiry α) : Prop :=
  ∀ memo a memo', x.run memo = (.ok a, memo') → y.run memo = (.ok a, memo')

theorem Refines.refl (x : Inquiry α) : x.Refines x := fun _ _ _ h => h

theorem refines_liftM {x y : Except Fault α} (h : ∀ a, x = .ok a → y = .ok a) :
    (liftM x : Inquiry α).Refines (liftM y) := by
  intro memo a memo' hrun
  rw [run_liftM] at hrun ⊢
  cases hrun
  rw [h a rfl]

theorem Refines.bind {x y : Inquiry α} {f g : α → Inquiry β} (hxy : x.Refines y)
    (hfg : ∀ a, (f a).Refines (g a)) : (x >>= f).Refines (y >>= g) := by
  intro memo b memo' h
  rw [run_bind] at h ⊢
  rcases hx : x.run memo with ⟨fault | a, between⟩ <;> rw [hx] at h
  · cases h
  · rw [hxy memo a between hx]
    exact hfg a between b memo' h

end Inquiry

open Inquiry

section Limits

variable {program : Program} {p : Profile} {nesting hierarchy : Nat}

/-! The limits have no part in what native members a type has. -/

theorem anyOutsidePlatform_withLimits (ms : List Token) :
    (⟨program, p.withLimits nesting hierarchy⟩ : Pass).anyOutsidePlatform ms =
      (⟨program, p⟩ : Pass).anyOutsidePlatform ms := by
  induction ms with
  | nil => rfl
  | cons m ms ih =>
    simp only [anyOutsidePlatform, ih]
    rfl

theorem dispatchedInto_withLimits (ms : List MethodDef) :
    (⟨program, p.withLimits nesting hierarchy⟩ : Pass).dispatchedInto ms =
      (⟨program, p⟩ : Pass).dispatchedInto ms := by
  induction ms with
  | nil => rfl
  | cons m ms ih => simp only [dispatchedInto, isDispatchedInto, anyOutsidePlatform_withLimits, ih]

theorem nativeSurface_withLimits (role : Role) (t : TypeDef) :
    (⟨program, p.withLimits nesting hierarchy⟩ : Pass).nativeSurface role t =
      (⟨program, p⟩ : Pass).nativeSurface role t := by
  simp only [nativeSurface, dispatchedInto_withLimits]
  rfl

variable (hnesting : p.maxNesting ≤ nesting) (hhierarchy : p.maxHierarchy ≤ hierarchy)
include hnesting hhierarchy

theorem refines_plan (t : TypeDef) :
    ((⟨program, p⟩ : Pass).plan t).Refines
      ((⟨program, p.withLimits nesting hierarchy⟩ : Pass).plan t) := by
  simp only [plan]
  apply (refines_liftM fun role => Profile.roleOf_withLimits nesting hhierarchy).bind
  intro role
  split
  · exact Refines.refl _
  · apply (Refines.refl _).bind
    intro v
    split
    · rw [nativeSurface_withLimits]
      exact Refines.refl _
    · apply (refines_liftM fun around h => TypeTable.enclosing_of_le h hnesting).bind
      intro around
      exact Refines.refl _

/-! ### Runs -/

theorem process_withLimits {t : TypeDef} {s : Progress} {tally : Tally}
    (h : ((⟨program, p⟩ : Pass).process t s).1 = .ok tally) :
    (⟨program, p.withLimits nesting hierarchy⟩ : Pass).process t s =
      (⟨program, p⟩ : Pass).process t s := by
  have hplan : ((⟨program, p⟩ : Pass).plan t).Refines _ := refines_plan hnesting hhierarchy t
  simp only [process] at h ⊢
  rcases hrun : ((⟨program, p⟩ : Pass).plan t).run s.memo with ⟨fault | plan, memo⟩
  · rw [hrun] at h
    cases h
  · rw [hplan s.memo plan memo hrun]

theorem processAll_withLimits {ts : List TypeDef} {sum tally : Tally} {s : Progress}
    (h : ((⟨program, p⟩ : Pass).processAll sum ts s).1 = .ok tally) :
    (⟨program, p.withLimits nesting hierarchy⟩ : Pass).processAll sum ts s =
      (⟨program, p⟩ : Pass).processAll sum ts s := by
  induction ts generalizing sum s with
  | nil => rfl
  | cons t ts ih =>
    simp only [processAll] at h ⊢
    have hhead := @process_withLimits program p nesting hierarchy hnesting hhierarchy t s
    rcases hprocess : (⟨program, p⟩ : Pass).process t s with ⟨fault | first, s'⟩ <;>
      rw [hprocess] at h hhead
    · cases h
    · rw [hhead rfl]
      exact ih h

end Limits

/-! ### The outcome -/

/-- **What succeeds under some limits does the same under larger ones.**  This goes
    for a whole run, down to what is remembered and logged, for the role of a type,
    and for the two walks up a program. -/
theorem run_withLimits (program : Program) {p : Profile} {nesting hierarchy : Nat}
    (hnesting : p.maxNesting ≤ nesting) (hhierarchy : p.maxHierarchy ≤ hierarchy) :
    (∀ (s : Progress) (tally : Tally), ((⟨program, p⟩ : Pass).run s).1 = .ok tally →
        (⟨program, p.withLimits nesting hierarchy⟩ : Pass).run s =
          (⟨program, p⟩ : Pass).run s) ∧
      (∀ t role, p.roleOf program.types t = .ok role →
        (p.withLimits nesting hierarchy).roleOf program.types t = .ok role) ∧
      (∀ limit limit' t line, limit ≤ limit' → program.types.lineage limit t = .ok line →
        program.types.lineage limit' t = .ok line) ∧
      ∀ limit limit' t around, limit ≤ limit' →
        program.types.enclosing limit t = .ok around →
        program.types.enclosing limit' t = .ok around := by
  refine ⟨?_, ?_, ?_, ?_⟩
  · intro s tally h
    rw [run_fst] at h
    simp only [run]
    rw [processAll_withLimits hnesting hhierarchy h]
  · intro t role h
    exact Profile.roleOf_withLimits nesting hhierarchy h
  · intro limit limit' t line hle h
    exact TypeTable.lineage_of_le h hle
  · intro limit limit' t around hle h
    exact TypeTable.enclosing_of_le h hle

theorem run_withLimits_edge :
    (edge.run {}).1 = .ok ⟨4, 0, 3, 2, 1⟩ ∧
      (⟨edge.program, edge.profile.withLimits 1 7⟩ : Pass).run {} = edge.run {} ∧
      ∃ fault, ((⟨edge.program, edge.profile.withLimits 1 0⟩ : Pass).run {}).1 = .error fault := by
  have hedge : (edge.run {}).1 = .ok ⟨4, 0, 3, 2, 1⟩ := by decide +kernel
  have hnesting : edge.profile.maxNesting ≤ 1 := by decide
  have hhierarchy : edge.profile.maxHierarchy ≤ 7 := by decide
  have hloose := run_withLimits edge.program hnesting hhierarchy
  exact ⟨hedge, hloose.1 {} _ hedge, .depthExceeded 0, by decide +kernel⟩

end Pass

end TrimGuard
