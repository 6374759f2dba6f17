/-
  TrimGuard/Proofs/EndlessClimb.lean
  ==================================
  **Chains that do not end.**

  `up` leads from a type to at most one other, and a program has finitely many
  types.  So if nothing that `up` leads to is missing, there are two kinds of types:
  those whose chain ends (`Climb`), and those from which a cycle is reached, which
  need not come by the type itself (`Cyclic`).  No type is of both kinds
  (`Climb.not_cyclic`), and none is of neither (`exists_climb_of_not_cyclic`).

  A chain that does not end within a limit therefore is too long or comes to a cycle
  (`not_endsWithin_iff`), which is how a walk that was given up is described by the
  program alone.
-/
import TrimGuard.Proofs.BoundedClimb
import Mathlib.Data.Fintype.Card
import Mathlib.Data.Set.Finite.Basic

namespace TrimGuard.TypeTable

variable {types : TypeTable} {up : TypeDef → Option Token} {t u : TypeDef}

/-- `up` leads from the first type to the second in one step. -/
def LeadsTo (types : TypeTable) (up : TypeDef → Option Token) (t u : TypeDef) : Prop :=
  ∃ r, up t = some r ∧ types.find? r = some u

/-- `up` leads from the type, in any number of steps, to one that lies above itself. -/
def Cyclic (types : TypeTable) (up : TypeDef → Option Token) (t : TypeDef) : Prop :=
  ∃ u, Relation.ReflTransGen (types.LeadsTo up) t u ∧ Relation.TransGen (types.LeadsTo up) u u

/-! ### Chains as reachability -/

/-- **The types of a complete chain are the types that are reached.** -/
theorem Climb.mem_iff {above : List TypeDef} (h : types.Climb up (up t) above) :
    u ∈ above ↔ Relation.TransGen (types.LeadsTo up) t u := by
  generalize hstart : up t = start at h
  induction h generalizing t with
  | top =>
    constructor
    · intro hmem
      cases hmem
    · intro hreach
      obtain ⟨d, ⟨r, hr, -⟩, -⟩ := Relation.TransGen.head'_iff.mp hreach
      rw [hstart] at hr
      cases hr
  | @step r d above hfind _ ih =>
    rw [List.mem_cons, ih rfl, ← Relation.reflTransGen_iff_eq_or_transGen,
      Relation.TransGen.head'_iff]
    constructor
    · intro hreach
      exact ⟨d, ⟨r, hstart, hfind⟩, hreach⟩
    · rintro ⟨e, ⟨s, hs, he⟩, hreach⟩
      rw [hstart] at hs
      cases hs
      rw [hfind] at he
      cases he
      exact hreach

theorem Climb.mem_cons_iff {above : List TypeDef} (h : types.Climb up (up t) above) :
    u ∈ t :: above ↔ Relation.ReflTransGen (types.LeadsTo up) t u := by
  rw [List.mem_cons, h.mem_iff, Relation.reflTransGen_iff_eq_or_transGen]

/-- A complete chain comes to no cycle. -/
theorem Climb.not_cyclic {above : List TypeDef} (h : types.Climb up (up t) above) :
    ¬ types.Cyclic up t := by
  rintro ⟨u, hreach, hcycle⟩
  obtain ⟨rest, hrest⟩ : ∃ rest, types.Climb up (up u) rest := by
    rcases List.mem_cons.mp (h.mem_cons_iff.mpr hreach) with rfl | hu
    · exact ⟨above, h⟩
    · obtain ⟨rest, hrest, -⟩ := h.of_mem hu
      exact ⟨rest, hrest⟩
  -- the chain above a type of a cycle would be a part of itself
  obtain ⟨rest', hrest', hsuffix⟩ := hrest.suffix_of_mem (hrest.mem_iff.mpr hcycle)
  have hlength := hsuffix.length_le
  rw [hrest'.unique hrest, List.length_cons] at hlength
  omega

/-! ### Finitely many types -/

/-- The types of the table that `up` leads to from `t`, which is one of them. -/
abbrev Reached (types : TypeTable) (up : TypeDef → Option Token) (t : TypeDef) : Type :=
  {d // d ∈ types.toList ∧ Relation.ReflTransGen (types.LeadsTo up) t d}

/-- Without a cycle, going up cannot go on among finitely many types. -/
theorem wellFounded_of_not_cyclic (h : ¬ types.Cyclic up t) :
    WellFounded fun a b : types.Reached up t =>
      Relation.TransGen (types.LeadsTo up) b.1 a.1 := by
  have hfinite : Finite (types.Reached up t) :=
    (types.toList.finite_toSet.subset fun _ hd => hd.1).to_subtype
  have htrans : IsTrans (types.Reached up t) fun a b =>
      Relation.TransGen (types.LeadsTo up) b.1 a.1 :=
    ⟨fun _ _ _ hab hbc => hbc.trans hab⟩
  have hirrefl : Std.Irrefl fun a b : types.Reached up t =>
      Relation.TransGen (types.LeadsTo up) b.1 a.1 :=
    ⟨fun a hcycle => h ⟨a.1, a.2.2, hcycle⟩⟩
  exact Finite.wellFounded_of_trans_of_irrefl _

section Closed

variable (hup : types.ClosedUnder up) (ht : t ∈ types.toList)
include hup ht

theorem exists_climb_of_not_cyclic (h : ¬ types.Cyclic up t) :
    ∃ above, types.Climb up (up t) above := by
  have hall : ∀ a : types.Reached up t, ∃ above, types.Climb up (up a.1) above := by
    intro a
    induction a using (wellFounded_of_not_cyclic h).induction with
    | _ a ih =>
      rcases ha : up a.1 with _ | r
      · exact ⟨[], .top⟩
      · obtain ⟨e, he⟩ := hup a.1 a.2.1 r ha
        have hstep : types.LeadsTo up a.1 e := ⟨r, ha, he⟩
        obtain ⟨above, habove⟩ := ih ⟨e, mem_toList_of_find? he, a.2.2.tail hstep⟩ (.single hstep)
        exact ⟨e :: above, .step he habove⟩
  exact hall ⟨t, ht, .refl⟩

/-- **A chain does not end within a limit if it comes to a cycle or is too long, and
    in no other case.** -/
theorem not_endsWithin_iff {n : Nat} :
    ¬ types.EndsWithin up n t ↔
      types.Cyclic up t ∨ ∃ above, types.Climb up (up t) above ∧ n < above.length := by
  constructor
  · intro h
    rcases Classical.em (types.Cyclic up t) with hcyclic | hcyclic
    · exact .inl hcyclic
    · obtain ⟨above, habove⟩ := exists_climb_of_not_cyclic hup ht hcyclic
      exact .inr ⟨above, habove, Nat.lt_of_not_le fun hle => h ⟨above, habove, hle⟩⟩
  · rintro (hcyclic | ⟨above, habove, hlong⟩) ⟨above', habove', hle⟩
    · exact habove'.not_cyclic hcyclic
    · rw [habove'.unique habove] at hle
      omega

end Closed

end TrimGuard.TypeTable
