/-
  TrimGuard/Proofs/RoleMeaning.lean
  =================================
  **What the role of a type says about it.**

  A role is found by a search with shortcuts: it stops at the first find, it enters
  no interface twice, and all the interfaces of all base types share what was
  entered.  None of this shows in the answer.  A type is a bridge object if it is, or
  derives from, the bridge root; a handle wrapper if it does not and the
  native-object interface is reached from an interface of its line; and plain
  otherwise.  Names of its own or of its base types do not make it a wrapper, and
  the base types of interfaces are not looked at.

  That a search finds what there is to find rests on one invariant: whatever it has
  entered and come back from is not the wanted interface, and the interfaces that it
  lists were entered as well (`Explored`).  At the start nothing is entered.  So when
  a search ends without a find, what it has entered is closed under the edges.
-/
import TrimGuard.Proofs.EndlessClimb
import TrimGuard.Proofs.ReachableFaults
import TrimGuard.Proofs.RunCriterion

namespace TrimGuard

namespace TypeTable

variable {types : TypeTable} {wanted : QualifiedName}

/-! ### What is behind an interface -/

/-- The second type is the first or one of its base types, at any distance. -/
def DerivesFrom (types : TypeTable) : TypeDef → TypeDef → Prop :=
  Relation.ReflTransGen (types.LeadsTo fun d => d.base)

/-- From the interface a type named `wanted` is reached, which may be itself. -/
def Reaches (types : TypeTable) (wanted : QualifiedName) (i : Token) : Prop :=
  ∃ n j d, types.InterfacePath n i j ∧ types.find? j = some d ∧ d.name = wanted

theorem Reaches.here {i : Token} {d : TypeDef} (hfind : types.find? i = some d)
    (hname : d.name = wanted) : types.Reaches wanted i :=
  ⟨0, i, d, .here i, hfind, hname⟩

theorem Reaches.next {i j : Token} {d : TypeDef} (hfind : types.find? i = some d)
    (hj : j ∈ d.interfaces) (h : types.Reaches wanted j) : types.Reaches wanted i := by
  obtain ⟨n, k, e, hpath, hend⟩ := h
  exact ⟨n + 1, k, e, .next hfind hj hpath, hend⟩

/-! ### Explored interfaces

The two lists are what was entered before and after some part of a search.  An
interface that was entered before may be still under way. -/

structure Explored (types : TypeTable) (wanted : QualifiedName) (before after : List Token) :
    Prop where
  grows : before ⊆ after
  completed : ∀ i ∈ after, i ∉ before → ∀ d, types.find? i = some d →
    d.name ≠ wanted ∧ ∀ j ∈ d.interfaces, j ∈ after

namespace Explored

theorem refl (entered : List Token) : types.Explored wanted entered entered :=
  ⟨List.Subset.refl entered, fun _ hi hnew => absurd hi hnew⟩

theorem trans {before between after : List Token} (h : types.Explored wanted before between)
    (h' : types.Explored wanted between after) : types.Explored wanted before after := by
  refine ⟨List.Subset.trans h.grows h'.grows, ?_⟩
  intro i hi hnew d hfind
  by_cases hbetween : i ∈ between
  · obtain ⟨hname, hlisted⟩ := h.completed i hbetween hnew d hfind
    exact ⟨hname, fun j hj => h'.grows (hlisted j hj)⟩
  · exact h'.completed i hi hbetween d hfind

/-- An interface is completed once all that it lists is. -/
theorem complete {before after : List Token} {i : Token}
    (h : types.Explored wanted (i :: before) after)
    (hi : ∀ d, types.find? i = some d → d.name ≠ wanted ∧ ∀ j ∈ d.interfaces, j ∈ after) :
    types.Explored wanted before after := by
  refine ⟨List.Subset.trans (List.subset_cons_self i before) h.grows, ?_⟩
  intro j hj hnew d hfind
  by_cases hij : j = i
  · rw [hij] at hfind
    exact hi d hfind
  · exact h.completed j hj (List.not_mem_cons_of_ne_of_not_mem hij hnew) d hfind

/-- Where nothing is under way, the wanted interface is not behind any that was
    entered. -/
theorem not_reaches {entered : List Token} (h : types.Explored wanted [] entered) {i : Token}
    (hi : i ∈ entered) : ¬ types.Reaches wanted i := by
  rintro ⟨n, j, e, hpath, hend, hname⟩
  induction hpath with
  | here i => exact (h.completed i hi List.not_mem_nil e hend).1 hname
  | @next n i k j d hfind hk _ ih =>
    have hlisted := (h.completed i hi List.not_mem_nil d hfind).2
    exact ih (hlisted k hk) hend

end Explored

/-! ### The search -/

/-- What the answer to a search from the interfaces `is` says, if `before` was
    entered before. -/
def Tells (types : TypeTable) (wanted : QualifiedName) (before is : List Token) : Search → Prop
  | .found => ∃ i ∈ is, types.Reaches wanted i
  | .missed after => (∀ i ∈ is, i ∈ after) ∧ types.Explored wanted before after

theorem tells_through {visit : List Token → Token → Except Fault Search}
    (hvisit : ∀ before i answer, visit before i = .ok answer → types.Tells wanted before [i] answer)
    {is before : List Token} {answer : Search}
    (h : Search.through visit before is = .ok answer) : types.Tells wanted before is answer := by
  induction is generalizing before with
  | nil =>
    cases h
    exact ⟨fun _ hi => absurd hi List.not_mem_nil, .refl before⟩
  | cons i is ih =>
    simp only [Search.through] at h
    rcases hhead : visit before i with fault | _ | between <;> simp only [hhead] at h
    · cases h
    · cases h
      obtain ⟨j, hj, hreach⟩ : ∃ j ∈ [i], types.Reaches wanted j := hvisit before i _ hhead
      exact ⟨j, List.mem_cons.mpr (.inl (List.mem_singleton.mp hj)), hreach⟩
    · obtain ⟨hentered, hfirst⟩ := hvisit before i _ hhead
      have hrest := ih h
      rcases answer with _ | after
      · obtain ⟨j, hj, hreach⟩ := hrest
        exact ⟨j, List.mem_cons_of_mem i hj, hreach⟩
      · obtain ⟨hothers, hexplored⟩ := hrest
        have hi : i ∈ after := hexplored.grows (hentered i (List.mem_singleton_self i))
        exact ⟨List.forall_mem_cons.mpr ⟨hi, hothers⟩, hfirst.trans hexplored⟩

theorem tells_search {limit depth : Nat} {before : List Token} {i : Token} {answer : Search}
    (h : types.search wanted limit depth before i = .ok answer) :
    types.Tells wanted before [i] answer := by
  induction depth generalizing before i answer with
  | zero => cases h
  | succ depth ih =>
    simp only [search] at h
    by_cases hentered : i ∈ before
    · rw [if_pos hentered] at h
      cases h
      exact ⟨List.forall_mem_singleton.mpr hentered, .refl before⟩
    · rw [if_neg hentered] at h
      rcases hfind : types.find? i with _ | d <;> simp only [hfind] at h
      · cases h
        refine ⟨List.forall_mem_singleton.mpr List.mem_cons_self, (Explored.refl _).complete ?_⟩
        intro d hd
        rw [hfind] at hd
        cases hd
      · by_cases hname : d.name = wanted
        · rw [if_pos hname] at h
          cases h
          exact ⟨i, List.mem_singleton_self i, .here hfind hname⟩
        · rw [if_neg hname] at h
          have hbehind := tells_through (fun _ _ _ hvisit => ih hvisit) h
          rcases answer with _ | after
          · obtain ⟨j, hj, hreach⟩ := hbehind
            exact ⟨i, List.mem_singleton_self i, .next hfind hj hreach⟩
          · obtain ⟨hlisted, hexplored⟩ := hbehind
            refine ⟨List.forall_mem_singleton.mpr (hexplored.grows List.mem_cons_self), ?_⟩
            apply hexplored.complete
            intro e he
            rw [hfind] at he
            cases he
            exact ⟨hname, hlisted⟩

/-- A search that is given up has come to the end of a path that is too long. -/
theorem path_of_search_error {limit depth : Nat} {before : List Token} {i : Token} {fault : Fault}
    (h : types.search wanted limit depth before i = .error fault) :
    ∃ j, types.InterfacePath depth i j := by
  induction depth generalizing before i with
  | zero => exact ⟨i, .here i⟩
  | succ depth ih =>
    simp only [search] at h
    split at h
    · cases h
    · rcases hfind : types.find? i with _ | d <;> simp only [hfind] at h
      · cases h
      · split at h
        · cases h
        · obtain ⟨j, hj, between, hfault⟩ := through_error h
          obtain ⟨k, hpath⟩ := ih hfault
          exact ⟨k, .next hfind hj hpath⟩

end TypeTable

/-! ### Roles -/

namespace Profile

variable (p : Profile) (types : TypeTable) (t : TypeDef)

/-- The type is, or derives from, the bridge root. -/
def BridgeRooted : Prop := ∃ u, types.DerivesFrom t u ∧ u.name = p.bridgeRoot

/-- From an interface of the type or of one of its base types the native-object
    interface is reached. -/
def NativeBacked : Prop :=
  ∃ u, types.DerivesFrom t u ∧ ∃ i ∈ u.interfaces, types.Reaches p.nativeObject i

/-- From an interface of the type or of one of its base types a path of interfaces
    leads on for more edges than the profile allows. -/
def Overreaching : Prop :=
  ∃ u, types.DerivesFrom t u ∧ ∃ i ∈ u.interfaces,
    ∃ n j, types.InterfacePath n i j ∧ p.maxHierarchy < n

/-- What a role says about a type. -/
def Describes : Role → Prop
  | .bridgeObject => p.BridgeRooted types t
  | .handleWrapper => ¬ p.BridgeRooted types t ∧ p.NativeBacked types t
  | .plain => ¬ p.BridgeRooted types t ∧ ¬ p.NativeBacked types t

variable {p types t}

/-- No type is described by two roles. -/
theorem Describes.unique {role role' : Role} (h : p.Describes types t role)
    (h' : p.Describes types t role') : role = role' := by
  rcases role <;> rcases role' <;> simp only [Describes] at h h' <;> tauto

end Profile

namespace Program.Sealed

variable {program : Program} (hp : program.Sealed) (hlinked : program.Linked) {p : Profile}
  {t : TypeDef} (ht : t ∈ program.types.toList)
include hp hlinked ht

theorem mem_lineage_iff {limit : Nat} {line : List TypeDef}
    (h : program.types.lineage limit t = .ok line) (u : TypeDef) :
    u ∈ line ↔ program.types.DerivesFrom t u := by
  obtain ⟨bases, hclimb, -, rfl⟩ := (hp.lineage_eq_ok_iff hlinked ht limit line).mp h
  exact hclimb.mem_cons_iff

theorem describes_of_roleOf {role : Role} (h : p.roleOf program.types t = .ok role) :
    p.Describes program.types t role := by
  obtain ⟨line, hline, hdecided⟩ := (p.roleOf_eq_ok_iff program.types t role).mp h
  have hmem := hp.mem_lineage_iff hlinked ht hline
  rcases hdecided with ⟨⟨u, hu, hname⟩, rfl⟩ | ⟨hother, answer, hsearch, rfl⟩
  · exact ⟨u, (hmem u).mp hu, hname⟩
  · have hrootless : ¬ p.BridgeRooted program.types t := by
      rintro ⟨u, hu, hname⟩
      exact hother u ((hmem u).mpr hu) hname
    have htells := TypeTable.tells_through (fun _ _ _ hvisit => TypeTable.tells_search hvisit) hsearch
    rcases answer with _ | entered
    · obtain ⟨i, hi, hreach⟩ := htells
      obtain ⟨u, hu, hi⟩ := List.mem_flatMap.mp hi
      exact ⟨hrootless, u, (hmem u).mp hu, i, hi, hreach⟩
    · obtain ⟨hlisted, hexplored⟩ := htells
      refine ⟨hrootless, ?_⟩
      rintro ⟨u, hu, i, hi, hreach⟩
      have hentered := hlisted i (List.mem_flatMap.mpr ⟨u, (hmem u).mpr hu, hi⟩)
      exact hexplored.not_reaches hentered hreach

/-- A role cannot be told because of the chain of base types, or else because of a
    path of interfaces, and then the bridge root did not come first. -/
theorem overreaching_of_roleOf {fault : Fault} (h : p.roleOf program.types t = .error fault)
    (hchain : program.types.EndsWithin (fun d => d.base) p.maxHierarchy t) :
    ¬ p.BridgeRooted program.types t ∧ p.Overreaching program.types t := by
  obtain ⟨bases, hclimb, hlength⟩ := hchain
  have hline : program.types.lineage p.maxHierarchy t = .ok (t :: bases) :=
    (hp.lineage_eq_ok_iff hlinked ht _ _).mpr ⟨bases, hclimb, hlength, rfl⟩
  have hmem := hp.mem_lineage_iff hlinked ht hline
  simp only [Profile.roleOf, hline] at h
  split at h
  · cases h
  · rename_i hother
    have hrootless : ¬ p.BridgeRooted program.types t := by
      rintro ⟨u, hu, hname⟩
      exact hother (List.any_eq_true.mpr ⟨u, (hmem u).mpr hu, decide_eq_true hname⟩)
    rcases hsearch : Search.through (program.types.search p.nativeObject p.maxHierarchy
      (p.maxHierarchy + 1)) [] ((t :: bases).flatMap fun d => d.interfaces) with fault' | answer
    · obtain ⟨i, hi, before, hfault⟩ := TypeTable.through_error hsearch
      obtain ⟨j, hpath⟩ := TypeTable.path_of_search_error hfault
      obtain ⟨u, hu, hi⟩ := List.mem_flatMap.mp hi
      exact ⟨hrootless, u, (hmem u).mp hu, i, hi, _, j, hpath, Nat.lt_succ_self _⟩
    · rw [hsearch] at h
      rcases answer with _ | entered <;> cases h

end Program.Sealed

/-- **A role that is told is right, and one that is not told is so for a reason.**
    The role is settled by the bridge root in the chain of base types, or else by the
    native-object interface behind the interfaces of the chain.  What keeps it from
    being told is a chain that comes to a cycle or is too long, or else, where the
    chain has no bridge root, a path of interfaces that is too long. -/
theorem Profile.role_meaning {d : Draft} {program : Program} (hbuild : d.toProgram = .ok program)
    (p : Profile) {t : TypeDef} (ht : t ∈ program.types.toList) :
    (∀ role, p.roleOf program.types t = .ok role →
        (role = .bridgeObject ↔ p.BridgeRooted program.types t) ∧
          (role = .handleWrapper ↔
            ¬ p.BridgeRooted program.types t ∧ p.NativeBacked program.types t) ∧
          (role = .plain ↔
            ¬ p.BridgeRooted program.types t ∧ ¬ p.NativeBacked program.types t)) ∧
      (∀ fault, p.roleOf program.types t = .error fault →
        fault = .depthExceeded p.maxHierarchy ∧
          ((program.types.Cyclic (fun d => d.base) t ∨
              ∃ bases, program.types.Climb (fun d => d.base) t.base bases ∧
                p.maxHierarchy < bases.length) ∨
            ¬ p.BridgeRooted program.types t ∧ p.Overreaching program.types t)) := by
  have hp := d.sealed_of_toProgram hbuild
  have hlinked := d.linked_of_toProgram hbuild
  constructor
  · intro role hrole
    have hdescribes := hp.describes_of_roleOf hlinked ht hrole
    have hiff : ∀ role', role = role' ↔ p.Describes program.types t role' := by
      intro role'
      constructor
      · rintro rfl
        exact hdescribes
      · exact hdescribes.unique
    exact ⟨hiff .bridgeObject, hiff .handleWrapper, hiff .plain⟩
  · intro fault hfault
    refine ⟨Profile.roleOf_error hfault, ?_⟩
    rw [← TypeTable.not_endsWithin_iff hlinked.closedUnder_base ht, or_iff_not_imp_left, not_not]
    exact hp.overreaching_of_roleOf hlinked ht hfault

theorem Profile.role_meaning_edge :
    (∃ t ∈ Pass.edge.program.types.toList,
        Pass.edge.profile.roleOf Pass.edge.program.types t = .ok .handleWrapper ∧
          Pass.edge.profile.NativeBacked Pass.edge.program.types t) ∧
      ∃ t ∈ Pass.edge.program.types.toList,
        (Profile.iOS.withDepth 0).roleOf Pass.edge.program.types t = .error (.depthExceeded 0) ∧
          (Profile.iOS.withDepth 0).Overreaching Pass.edge.program.types t := by
  have hnear : ∃ t ∈ Pass.edge.program.types.toList,
      Pass.edge.profile.roleOf Pass.edge.program.types t = .ok .handleWrapper := by decide +kernel
  have hfar : ∃ t ∈ Pass.edge.program.types.toList, t.base = none ∧
      (Profile.iOS.withDepth 0).roleOf Pass.edge.program.types t = .error (.depthExceeded 0) := by
    decide +kernel
  constructor
  · obtain ⟨t, ht, hrole⟩ := hnear
    obtain ⟨-, hwrapper, -⟩ := (role_meaning Pass.toProgram_edgeDraft _ ht).1 _ hrole
    exact ⟨t, ht, hrole, (hwrapper.mp rfl).2⟩
  · obtain ⟨t, ht, hbase, hfault⟩ := hfar
    refine ⟨t, ht, hfault, ?_⟩
    have htop : Pass.edge.program.types.Climb (fun d => d.base) t.base [] := by
      rw [hbase]
      exact .top
    have hchain : Pass.edge.program.types.EndsWithin (fun d => d.base) 0 t :=
      ⟨[], htop, Nat.le_refl 0⟩
    have hlinked := Pass.edgeDraft.linked_of_toProgram Pass.toProgram_edgeDraft
    rcases ((role_meaning Pass.toProgram_edgeDraft _ ht).2 _ hfault).2 with hbad | hgood
    · exact absurd hchain ((TypeTable.not_endsWithin_iff hlinked.closedUnder_base ht).mpr hbad)
    · exact hgood.2

end TrimGuard
