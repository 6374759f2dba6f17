/-
  TrimGuard/Proofs/ReachableFaults.lean
  =====================================
  **The faults a pass can end in.**

  Each look-up of a pass has a fault for the case that it finds nothing.  Over a
  sealed program none of these faults is ever seen: what the types of the program
  refer to is there, every overrider is a method of the program, and every method
  has its owner.  What remains are the walks that are given up, because a type is
  met again or because the limit is used up (`Fault.EndsWalk`).

  The pass may also be asked about a type that the program does not have.  The one
  reference that is then followed without having been checked is the type that it
  claims to be nested in, so this is the one that can be reported as unknown.
-/
import TrimGuard.Proofs.BoundedClimb
import TrimGuard.Proofs.FailedRun

namespace TrimGuard

/-- The fault of a walk that was given up. -/
def Fault.EndsWalk : Fault → Prop
  | .nestingCycle _ | .depthExceeded _ => True
  | _ => False

/-! ### Walks -/

namespace TypeTable

variable {types : TypeTable} {up : TypeDef → Option Token}

/-- Only the first step of a walk can lead outside: all later ones start at a type
    of the program. -/
theorem outside_of_ascend
    (hup : types.ClosedUnder up) {steps : Nat} {met : List Token} {start : Option Token} {x : Token}
    (h : (types.ascend up steps met start).finish = .outside x) :
    start = some x ∧ types.find? x = none := by
  rcases start with _ | t
  · simp [ascend] at h
  · rcases hfind : types.find? t with _ | d
    · rcases steps with _ | steps
      · simp only [ascend] at h
        split at h <;> cases h
      · simp only [ascend, hfind] at h
        split at h
        · cases h
        · cases h
          exact ⟨rfl, hfind⟩
    · have hstart : ∀ r, some t = some r → ∃ u, types.find? r = some u := by
        rintro r ⟨rfl⟩
        exact ⟨d, hfind⟩
      exact absurd h (ascend_finish_ne_outside steps met hup hstart x)

theorem through_error {visit : List Token → Token → Except Fault Search} {is : List Token}
    {entered : List Token} {fault : Fault} (h : Search.through visit entered is = .error fault) :
    ∃ i ∈ is, ∃ before, visit before i = .error fault := by
  induction is generalizing entered with
  | nil => cases h
  | cons i is ih =>
    simp only [Search.through] at h
    rcases hhead : visit entered i with fault' | _ | entered' <;> simp only [hhead] at h
    · cases h
      exact ⟨i, List.mem_cons_self, entered, hhead⟩
    · cases h
    · obtain ⟨j, hj, before, hfault⟩ := ih h
      exact ⟨j, List.mem_cons_of_mem i hj, before, hfault⟩

theorem search_error {wanted : QualifiedName} {limit depth : Nat} {entered : List Token}
    {i : Token} {fault : Fault} (h : types.search wanted limit depth entered i = .error fault) :
    fault = .depthExceeded limit := by
  induction depth generalizing entered i fault with
  | zero =>
    cases h
    rfl
  | succ depth ih =>
    simp only [search] at h
    split at h
    · cases h
    · rcases hfind : types.find? i with _ | d <;> simp only [hfind] at h
      · cases h
      · split at h
        · cases h
        · obtain ⟨j, -, before, hfault⟩ := through_error h
          exact ih hfault

end TypeTable

theorem Profile.roleOf_error {p : Profile} {types : TypeTable} {t : TypeDef} {fault : Fault}
    (h : p.roleOf types t = .error fault) : fault = .depthExceeded p.maxHierarchy := by
  simp only [Profile.roleOf] at h
  rcases hline : types.lineage p.maxHierarchy t with fault' | line <;> simp only [hline] at h
  · cases h
    exact TypeTable.lineage_error hline
  · split at h
    · cases h
    · rcases hsearch : Search.through (types.search p.nativeObject p.maxHierarchy
        (p.maxHierarchy + 1)) [] (line.flatMap fun d => d.interfaces) with fault' | _ | entered <;>
        simp only [hsearch] at h <;> cases h
      obtain ⟨i, -, before, hfault⟩ := TypeTable.through_error hsearch
      exact TypeTable.search_error hfault

/-- A list of enclosing types that cannot be made was given up, or the type itself
    claims to be nested in one that the program does not have. -/
theorem Program.Linked.enclosing_error {p : Program} (hlinked : p.Linked) {limit : Nat}
    {t : TypeDef} {fault : Fault} (h : p.types.enclosing limit t = .error fault) :
    fault.EndsWalk ∨ ∃ x, fault = .unknownType x ∧ t.enclosing = some x ∧ p.type? x = none := by
  simp only [TypeTable.enclosing] at h
  rcases hend : (p.types.ascend (fun d => d.enclosing) limit [t.token] t.enclosing).finish with
    _ | q | _ | q <;> rw [hend] at h <;> cases h
  · exact Or.inl trivial
  · exact Or.inl trivial
  · exact Or.inr ⟨q, rfl, TypeTable.outside_of_ascend hlinked.closedUnder_enclosing hend⟩

/-! ### Plans and runs -/

namespace Pass

variable {pass : Pass}

/-- A plan that cannot be made failed at the role of the type, or at the types
    around it.  The search among overriders never fails. -/
theorem settled_error {t : TypeDef} {fault : Fault} (h : pass.settled t = .error fault) :
    pass.profile.roleOf pass.program.types t = .error fault ∨
      pass.program.types.enclosing pass.profile.maxNesting t = .error fault := by
  simp only [settled] at h
  rcases hrole : pass.profile.roleOf pass.program.types t with fault' | role <;>
    simp only [hrole, Except.bind] at h
  · cases h
    exact Or.inl rfl
  · right
    split at h
    · cases h
    · split at h
      · cases h
      · rcases haround : pass.program.types.enclosing pass.profile.maxNesting t with
          fault' | around <;> rw [haround] at h <;> cases h
        rfl

section Linked

variable (hlinked : pass.program.Linked)
include hlinked

theorem endsWalk_or_outside_of_settled {t : TypeDef} {fault : Fault}
    (h : pass.settled t = .error fault) :
    fault.EndsWalk ∨
      ∃ x, fault = .unknownType x ∧ t.enclosing = some x ∧ pass.program.type? x = none := by
  rcases settled_error h with hrole | haround
  · left
    rw [Profile.roleOf_error hrole]
    exact trivial
  · exact hlinked.enclosing_error haround

theorem endsWalk_of_settled {t : TypeDef} (ht : t ∈ pass.program.types.toList) {fault : Fault}
    (h : pass.settled t = .error fault) : fault.EndsWalk := by
  rcases endsWalk_or_outside_of_settled hlinked h with hends | ⟨x, -, henclosing, hunknown⟩
  · exact hends
  · obtain ⟨u, hu⟩ := hlinked t ht x (by simp [TypeEntry.references, henclosing])
    exact absurd (hunknown.symm.trans hu) (Option.some_ne_none u).symm

theorem endsWalk_of_run (hp : pass.program.Sealed) {s : Progress}
    (hs : s.memo.Sound pass.profile) {fault : Fault} (h : (pass.run s).1 = .error fault) :
    fault.EndsWalk := by
  obtain ⟨before, t, after, hsplit, -, hfault, -⟩ := run_error hp hs h
  have ht : t ∈ pass.program.types.toList := by
    rw [hsplit]
    exact List.mem_append_right before List.mem_cons_self
  exact endsWalk_of_settled hlinked ht hfault

end Linked

/-! ### The outcome -/

/-- **A pass over a sealed program fails only where a walk is given up.**  It never
    fails for a type or a method that cannot be found, unless it is asked about a
    type from elsewhere, which may be nested in one that the program does not
    have. -/
theorem faults_of_pass {d : Draft} (hbuild : d.toProgram = .ok pass.program) {s : Progress}
    (hmemo : s.memo.Sound pass.profile) (fault : Fault) :
    (∀ t ∈ pass.program.types.toList, (pass.process t s).1 = .error fault → fault.EndsWalk) ∧
      ((pass.run s).1 = .error fault → fault.EndsWalk) ∧
      ((pass.runResolved s).1 = .error fault → fault.EndsWalk) ∧
      ∀ t : TypeDef, (pass.process t s).1 = .error fault →
        fault.EndsWalk ∨
          ∃ x, fault = .unknownType x ∧ t.enclosing = some x ∧ pass.program.type? x = none := by
  have hp := d.sealed_of_toProgram hbuild
  have hlinked := d.linked_of_toProgram hbuild
  refine ⟨?_, endsWalk_of_run hlinked hp hmemo, ?_, ?_⟩
  · intro t ht h
    exact endsWalk_of_settled hlinked ht ((process_eq_error_iff hp hmemo t fault).mp h)
  · intro h
    exact endsWalk_of_run hlinked hp (Provenance.Memo.sound_resolve _ hmemo) h
  · intro t h
    exact endsWalk_or_outside_of_settled hlinked ((process_eq_error_iff hp hmemo t fault).mp h)

/-- A bridged consumer type that is no type of the program, nor is the one that it
    is nested in. -/
def strayType : TypeDef where
  assembly := ⟨"App", .unknown, none⟩
  name := ⟨"App", "Stray"⟩
  enclosing := some (.ofTypeIndex 9)
  base := some (.ofTypeIndex 0)
  token := .ofTypeIndex 8
  methods := []

theorem faults_of_pass_stray :
    (knotted.run {}).1 = .error (.nestingCycle (.ofTypeIndex 2)) ∧
      Fault.EndsWalk (.nestingCycle (.ofTypeIndex 2)) ∧
      (knotted.process strayType {}).1 = .error (.unknownType (.ofTypeIndex 9)) ∧
      knotted.program.type? (.ofTypeIndex 9) = none := by
  have hmemo := Provenance.Memo.sound_empty knotted.profile
  have hcycle := faults_of_pass (s := {}) toProgram_knottedDraft hmemo
    (.nestingCycle (.ofTypeIndex 2))
  have hstray := faults_of_pass (s := {}) toProgram_knottedDraft hmemo
    (.unknownType (.ofTypeIndex 9))
  have hfault : (knotted.process strayType {}).1 = .error (.unknownType (.ofTypeIndex 9)) := by
    decide +kernel
  refine ⟨run_knotted, hcycle.2.1 run_knotted, hfault, ?_⟩
  rcases hstray.2.2.2 strayType hfault with hends | ⟨x, hx, -, hunknown⟩
  · exact hends.elim
  · cases hx
    exact hunknown

end Pass

end TrimGuard
