/-
  TrimGuard/Proofs/RunCriterion.lean
  ==================================
  **When a run is through.**

  Three walks can stop a run: along the base types of a type, through the
  interfaces that it and its base types implement, and around a type that is to be
  retained as a whole.  The first two are made for every type, the last one for
  bridged consumer types only, and nothing else of a sealed program can fail
  (`run_ok_iff`).

  The limits count edges above the starting point, which is a type for the chains
  and a directly implemented interface for the search.  The search enters no
  interface twice, but it checks the depth first, so an interface that was entered
  before may still end a run when a path to it is too long.  A bound on all paths
  is therefore sufficient for the search to come to an answer, and no more than
  that; the bounds on the chains are necessary as well.
-/
import TrimGuard.Proofs.BoundedClimb
import TrimGuard.Proofs.FailedRun
import TrimGuard.Proofs.PassOutcome

namespace TrimGuard

/-! ### The interface search -/

namespace TypeTable

variable {types : TypeTable}

/-- So many edges lead from the first interface to the second.  A path may come by
    an interface more than once, so a cycle has paths of any length. -/
inductive InterfacePath (types : TypeTable) : Nat → Token → Token → Prop where
  | here (i : Token) : InterfacePath types 0 i i
  | next {n : Nat} {i j k : Token} {d : TypeDef} :
      types.find? i = some d → j ∈ d.interfaces → InterfacePath types n j k →
      InterfacePath types (n + 1) i k

/-- No path from the interface has more than `n` edges. -/
def PathsWithin (types : TypeTable) (n : Nat) (i : Token) : Prop :=
  ∀ m j, types.InterfacePath m i j → m ≤ n

theorem PathsWithin.next {n : Nat} {i j : Token} {d : TypeDef} (h : types.PathsWithin n i)
    (hfind : types.find? i = some d) (hj : j ∈ d.interfaces) :
    ∃ m, n = m + 1 ∧ types.PathsWithin m j := by
  have hone := h 1 j (.next hfind hj (.here j))
  refine ⟨n - 1, by omega, ?_⟩
  intro m k hpath
  have hlonger := h (m + 1) k (.next hfind hj hpath)
  omega

/-- Where every edge goes down a ranking, a path is no longer than the rank of its
    start. -/
theorem pathsWithin_of_rank {rank : Token → Nat}
    (hrank : ∀ i d, types.find? i = some d → ∀ j ∈ d.interfaces, rank j < rank i) (i : Token) :
    types.PathsWithin (rank i) i := by
  intro m j hpath
  induction hpath with
  | here i => exact Nat.zero_le _
  | next hfind hj _ ih =>
    have hdown := hrank _ _ hfind _ hj
    omega

theorem through_ok {visit : List Token → Token → Except Fault Search} {is : List Token}
    (h : ∀ i ∈ is, ∀ entered, ∃ answer, visit entered i = .ok answer) (entered : List Token) :
    ∃ answer, Search.through visit entered is = .ok answer := by
  induction is generalizing entered with
  | nil => exact ⟨_, rfl⟩
  | cons i is ih =>
    obtain ⟨hhead, htail⟩ := List.forall_mem_cons.mp h
    obtain ⟨answer, hanswer⟩ := hhead entered
    simp only [Search.through, hanswer]
    rcases answer with _ | entered'
    · exact ⟨_, rfl⟩
    · exact ih htail entered'

theorem search_succ_ok {wanted : QualifiedName} {limit depth : Nat} {i : Token}
    (h : ∀ d, types.find? i = some d → ∀ j ∈ d.interfaces, ∀ entered, ∃ answer,
      types.search wanted limit depth entered j = .ok answer) (entered : List Token) :
    ∃ answer, types.search wanted limit (depth + 1) entered i = .ok answer := by
  rw [search]
  split
  · exact ⟨_, rfl⟩
  · rcases hfind : types.find? i with _ | d
    · exact ⟨_, rfl⟩
    · simp only
      split
      · exact ⟨_, rfl⟩
      · exact through_ok (h d hfind) _

/-- **A search comes to an answer if no path from its start is too long.** -/
theorem search_ok (wanted : QualifiedName) (limit : Nat) {n : Nat} {i : Token}
    (h : types.PathsWithin n i) (entered : List Token) :
    ∃ answer, types.search wanted limit (n + 1) entered i = .ok answer := by
  induction n generalizing i entered with
  | zero =>
    -- no path leads on from here
    apply search_succ_ok
    intro d hfind j hj
    obtain ⟨m, hm, -⟩ := h.next hfind hj
    cases hm
  | succ n ih =>
    apply search_succ_ok
    intro d hfind j hj
    obtain ⟨m, hm, hpaths⟩ := h.next hfind hj
    cases hm
    exact ih hpaths

end TypeTable

/-! ### The conditions

The chain of base types of a type, the paths from the interfaces that it implements
directly, and the chain of types around it fit the profile if they end and are no
longer than the profile allows. -/

namespace Pass

def BaseChainFits (pass : Pass) (t : TypeDef) : Prop :=
  pass.program.types.EndsWithin (fun d => d.base) pass.profile.maxHierarchy t

def InterfacesFit (pass : Pass) (t : TypeDef) : Prop :=
  ∀ i ∈ t.interfaces, pass.program.types.PathsWithin pass.profile.maxHierarchy i

def NestingFits (pass : Pass) (t : TypeDef) : Prop :=
  pass.program.types.EndsWithin (fun d => d.enclosing) pass.profile.maxNesting t

section Sealed

variable {pass : Pass} (hp : pass.program.Sealed)
include hp

theorem baseChainFits_iff (hlinked : pass.program.Linked) {t : TypeDef}
    (ht : t ∈ pass.program.types.toList) :
    pass.BaseChainFits t ↔
      ∃ line, pass.program.types.lineage pass.profile.maxHierarchy t = .ok line := by
  simp only [hp.lineage_eq_ok_iff hlinked ht]
  constructor
  · rintro ⟨bases, hclimb, hlength⟩
    exact ⟨_, bases, hclimb, hlength, rfl⟩
  · rintro ⟨-, bases, hclimb, hlength, -⟩
    exact ⟨bases, hclimb, hlength⟩

theorem nestingFits_iff {t : TypeDef} (ht : t ∈ pass.program.types.toList) :
    pass.NestingFits t ↔
      ∃ around, pass.program.types.enclosing pass.profile.maxNesting t = .ok around := by
  simp only [hp.enclosing_eq_ok_iff ht]
  rfl

theorem not_nestingFits_of_error {t : TypeDef} (ht : t ∈ pass.program.types.toList)
    {fault : Fault}
    (h : pass.program.types.enclosing pass.profile.maxNesting t = .error fault) :
    ¬ pass.NestingFits t := by
  rw [nestingFits_iff hp ht, h]
  rintro ⟨around, hok⟩
  cases hok

/-! ### Roles and plans -/

theorem roleOf_ok (hlinked : pass.program.Linked)
    (hinterfaces : ∀ t ∈ pass.program.types.toList, pass.InterfacesFit t) {t : TypeDef}
    (ht : t ∈ pass.program.types.toList) (hbase : pass.BaseChainFits t) :
    ∃ role, pass.profile.roleOf pass.program.types t = .ok role := by
  obtain ⟨bases, hclimb, hlength⟩ := hbase
  have hline := (hp.lineage_eq_ok_iff hlinked ht _ _).mpr ⟨bases, hclimb, hlength, rfl⟩
  have hsearch : ∀ i ∈ (t :: bases).flatMap fun d => d.interfaces, ∀ entered, ∃ answer,
      pass.program.types.search pass.profile.nativeObject pass.profile.maxHierarchy
        (pass.profile.maxHierarchy + 1) entered i = .ok answer := by
    intro i hi
    obtain ⟨d, hd, hi⟩ := List.mem_flatMap.mp hi
    have hmem : d ∈ pass.program.types.toList := by
      rcases List.mem_cons.mp hd with rfl | hd
      · exact ht
      · exact hclimb.mem_toList hd
    exact TypeTable.search_ok _ _ (hinterfaces d hmem i hi)
  obtain ⟨answer, hanswer⟩ := TypeTable.through_ok hsearch []
  simp only [Profile.roleOf, hline]
  split
  · exact ⟨_, rfl⟩
  · rw [hanswer]
    rcases answer with _ | entered
    · exact ⟨_, rfl⟩
    · exact ⟨_, rfl⟩

theorem baseChainFits_of_roleOf (hlinked : pass.program.Linked) {t : TypeDef}
    (ht : t ∈ pass.program.types.toList) {role : Role}
    (h : pass.profile.roleOf pass.program.types t = .ok role) : pass.BaseChainFits t := by
  rw [baseChainFits_iff hp hlinked ht]
  unfold Profile.roleOf at h
  rcases hline : pass.program.types.lineage pass.profile.maxHierarchy t with fault | line
  · rw [hline] at h
    cases h
  · exact ⟨line, rfl⟩

/-- A type has a plan if and only if its role can be told and, should it have to be
    retained as a whole, the types around it can be listed. -/
theorem settled_ok_iff {t : TypeDef} (ht : t ∈ pass.program.types.toList) :
    (∃ plan, pass.settled t = .ok plan) ↔
      (∃ role, pass.profile.roleOf pass.program.types t = .ok role) ∧
        (pass.Bridged t → ¬ pass.OfProduct t → pass.NestingFits t) := by
  unfold settled
  rcases hrole : pass.profile.roleOf pass.program.types t with fault | role
  · simp [Except.bind]
  · rw [bridged_iff hrole, ← isProduct_iff_ofProduct]
    simp only [Except.bind]
    rcases hbridged : role.isBridged
    · simp
    · rcases hproduct : (pass.profile.provenance t.assembly).isProduct
      · rw [nestingFits_iff hp ht]
        rcases pass.program.types.enclosing pass.profile.maxNesting t with fault | around <;>
          simp [Except.map]
      · simp

/-! ### Runs -/

theorem run_ok_iff {s : Progress} (hs : s.memo.Sound pass.profile) :
    (∃ tally, (pass.run s).1 = .ok tally) ↔
      ∀ t ∈ pass.program.types.toList,
        (∃ role, pass.profile.roleOf pass.program.types t = .ok role) ∧
          (pass.Bridged t → ¬ pass.OfProduct t → pass.NestingFits t) := by
  rw [run_fst, processAll_ok_iff hp hs]
  constructor
  · intro h t ht
    exact (settled_ok_iff hp ht).mp (h t ht)
  · intro h t ht
    exact (settled_ok_iff hp ht).mpr (h t ht)

end Sealed

/-! ### A program at the limits

With room for one edge, the wrapper below comes to the native-object interface on
a path that is as long as a path may be.  The host is nested in itself, which does
not matter for a type of the platform: of such a type, members are retained. -/

def edgeDraft : Draft :=
  let ios : Assembly := ⟨"Xamarin.iOS", .unknown, none⟩
  let app : Assembly := ⟨"App", .unknown, none⟩
  { types := #[
      { assembly := ios, name := ⟨"ObjCRuntime", "INativeObject"⟩ },
      { assembly := app, name := ⟨"App", "IHandle"⟩, interfaces := [.ofTypeIndex 0] },
      { assembly := app, name := ⟨"App", "Wrapper"⟩, interfaces := [.ofTypeIndex 1] },
      { assembly := ios, name := ⟨"UIKit", "Host"⟩, enclosing := some (.ofTypeIndex 3),
        interfaces := [.ofTypeIndex 0] }]
    methods := #[
      { owner := .ofTypeIndex 3, name := MethodEntry.constructorName, flags := .constructor,
        params := [.nativeInt] }]
    owners_known := by decide +kernel }

def edge : Pass where
  program := edgeDraft.toProgram.toOption.get (by decide +kernel)
  profile := Profile.iOS.withDepth 1

theorem toProgram_edgeDraft : edgeDraft.toProgram = .ok edge.program :=
  edgeDraft.toProgram_of_isSome (by decide +kernel)

theorem interfacesFit_edge :
    ∀ t ∈ edge.program.types.toList, edge.InterfacesFit t := by
  have hp := edgeDraft.sealed_of_toProgram toProgram_edgeDraft
  -- every interface is declared after those it inherits from
  have hdown : ∀ d ∈ edge.program.types.toList, ∀ j ∈ d.interfaces,
      j.row.toNat - 1 < d.token.row.toNat - 1 := by decide +kernel
  have hnear : ∀ t ∈ edge.program.types.toList, ∀ i ∈ t.interfaces,
      i.row.toNat - 1 ≤ edge.profile.maxHierarchy := by decide +kernel
  intro t ht i hi m j hpath
  have hrank := @TypeTable.pathsWithin_of_rank edge.program.types (fun i => i.row.toNat - 1)
  refine Nat.le_trans (hrank ?_ i m j hpath) (hnear t ht i hi)
  intro i d hfind
  obtain ⟨hd, rfl⟩ := (hp.find?_eq_some_iff i d).mp hfind
  exact hdown d hd

/-! ### The outcome -/

/-- **A run is through if every walk it has to make stays within its limit.**  It is
    not if a chain of base types, or a chain around a bridged consumer type, does not
    end within its limit.  Where no chain of the latter kind is at fault, the run is
    through exactly if every role can be told, whatever the other types are nested
    in. -/
theorem success_of_run {pass : Pass} {d : Draft} (hbuild : d.toProgram = .ok pass.program)
    {s : Progress} (hmemo : s.memo.Sound pass.profile) :
    ((∀ t ∈ pass.program.types.toList, pass.BaseChainFits t) →
        (∀ t ∈ pass.program.types.toList, pass.InterfacesFit t) →
        (∀ t ∈ pass.program.types.toList, pass.Bridged t → ¬ pass.OfProduct t →
          pass.NestingFits t) →
        ∃ tally, (pass.run s).1 = .ok tally) ∧
      (∀ t ∈ pass.program.types.toList, ¬ pass.BaseChainFits t →
        ∃ fault, (pass.run s).1 = .error fault) ∧
      (∀ t ∈ pass.program.types.toList, pass.Bridged t → ¬ pass.OfProduct t →
        ¬ pass.NestingFits t → ∃ fault, (pass.run s).1 = .error fault) ∧
      ((∀ t ∈ pass.program.types.toList, ¬ pass.NestingFits t →
          ¬ pass.Bridged t ∨ pass.OfProduct t) →
        ((∃ tally, (pass.run s).1 = .ok tally) ↔ ∀ t ∈ pass.program.types.toList,
          ∃ role, pass.profile.roleOf pass.program.types t = .ok role)) := by
  have hp := d.sealed_of_toProgram hbuild
  have hlinked := d.linked_of_toProgram hbuild
  have hcriterion := run_ok_iff hp hmemo
  refine ⟨?_, ?_, ?_, ?_⟩
  · intro hbase hinterfaces hnesting
    apply hcriterion.mpr
    intro t ht
    exact ⟨roleOf_ok hp hlinked hinterfaces ht (hbase t ht), hnesting t ht⟩
  · intro t ht hunfit
    rcases hrun : (pass.run s).1 with fault | tally
    · exact ⟨fault, rfl⟩
    · obtain ⟨⟨role, hrole⟩, -⟩ := hcriterion.mp ⟨tally, hrun⟩ t ht
      exact absurd (baseChainFits_of_roleOf hp hlinked ht hrole) hunfit
  · intro t ht hbridged hconsumer hunfit
    rcases hrun : (pass.run s).1 with fault | tally
    · exact ⟨fault, rfl⟩
    · exact absurd ((hcriterion.mp ⟨tally, hrun⟩ t ht).2 hbridged hconsumer) hunfit
  · intro hharmless
    rw [hcriterion]
    constructor
    · intro h t ht
      exact (h t ht).1
    · intro h t ht
      refine ⟨h t ht, ?_⟩
      intro hbridged hconsumer
      by_contra hunfit
      rcases hharmless t ht hunfit with hplain | hproduct
      · exact hplain hbridged
      · exact hconsumer hproduct

theorem success_of_run_edge :
    (∃ tally, (edge.run {}).1 = .ok tally) ∧ (∃ fault, (knotted.run {}).1 = .error fault) ∧
      ∃ t ∈ edge.program.types.toList, edge.Bridged t ∧ ¬ edge.NestingFits t := by
  have hp := edgeDraft.sealed_of_toProgram toProgram_edgeDraft
  have hlinked := edgeDraft.linked_of_toProgram toProgram_edgeDraft
  have hbases : ∀ t ∈ edge.program.types.toList,
      edge.program.types.lineage edge.profile.maxHierarchy t = .ok [t] := by decide +kernel
  have haround : ∀ t ∈ edge.program.types.toList, edge.OfProduct t ∨
      edge.program.types.enclosing edge.profile.maxNesting t = .ok [] := by decide +kernel
  have hhost : ∃ t ∈ edge.program.types.toList,
      edge.profile.roleOf edge.program.types t = .ok .handleWrapper ∧
        edge.program.types.enclosing edge.profile.maxNesting t =
          .error (.nestingCycle t.token) := by decide +kernel
  have hknot : ∃ t ∈ knotted.program.types.toList,
      knotted.profile.roleOf knotted.program.types t = .ok .bridgeObject ∧
        ¬ knotted.OfProduct t ∧
        knotted.program.types.enclosing knotted.profile.maxNesting t =
          .error (.nestingCycle t.token) := by decide +kernel
  refine ⟨?_, ?_, ?_⟩
  · apply (success_of_run toProgram_edgeDraft (Provenance.Memo.sound_empty _)).1
    · intro t ht
      exact (baseChainFits_iff hp hlinked ht).mpr ⟨_, hbases t ht⟩
    · exact interfacesFit_edge
    · intro t ht _ hconsumer
      exact (nestingFits_iff hp ht).mpr ⟨_, (haround t ht).resolve_left hconsumer⟩
  · obtain ⟨t, ht, hrole, hconsumer, hcycle⟩ := hknot
    have hq := knottedDraft.sealed_of_toProgram toProgram_knottedDraft
    have hmemo := Provenance.Memo.sound_empty knotted.profile
    exact (success_of_run toProgram_knottedDraft (s := {}) hmemo).2.2.1 t ht ⟨_, hrole, by decide⟩ hconsumer
      (not_nestingFits_of_error hq ht hcycle)
  · obtain ⟨t, ht, hrole, hcycle⟩ := hhost
    exact ⟨t, ht, ⟨_, hrole, by decide⟩, not_nestingFits_of_error hp ht hcycle⟩

end Pass

end TrimGuard
