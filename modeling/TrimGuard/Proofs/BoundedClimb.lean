/-
  TrimGuard/Proofs/BoundedClimb.lean
  ==================================
  **When a bounded walk comes to the top.**

  A walk that was not stopped has found a complete chain (`climb_of_ascend`).  Where
  every type is found under its own token, the converse holds as well: the checks
  stop no walk that goes up a complete chain within its limit.  The limit counts the
  types above the start, and a chain that ends never comes back to a type it has
  passed (`token_ne_of_climb`).

  The walks of the table therefore succeed on exactly the chains that end within
  the limit: around a type (`enclosing_eq_ok_iff`), and, if no base type is
  missing from the table, along its base types (`lineage_eq_ok_iff`).  The types of
  a sealed program are such a table.
-/
import TrimGuard.Proofs.Climb

namespace TrimGuard

namespace TypeTable

variable {types : TypeTable} {up : TypeDef → Option Token}

/-- The chain that `up` leads to from `t` ends, after at most `n` types. -/
def EndsWithin (types : TypeTable) (up : TypeDef → Option Token) (n : Nat) (t : TypeDef) : Prop :=
  ∃ above, types.Climb up (up t) above ∧ above.length ≤ n

/-- What is found under a token bears it. -/
def SelfNamed (types : TypeTable) : Prop := ∀ t d, types.find? t = some d → d.token = t

/-- What `up` leads to from a type of the table is in the table. -/
def ClosedUnder (types : TypeTable) (up : TypeDef → Option Token) : Prop :=
  ∀ d ∈ types.toList, ∀ r, up d = some r → ∃ u, types.find? r = some u

theorem length_passed_ascend_le (steps : Nat) (met : List Token) (start : Option Token) :
    (types.ascend up steps met start).passed.length ≤ steps := by
  induction steps generalizing met start with
  | zero =>
    rcases start with _ | t
    · simp [ascend]
    · simp only [ascend]
      split <;> exact Nat.le_refl 0
  | succ steps ih =>
    rcases start with _ | t
    · simp [ascend]
    · simp only [ascend]
      by_cases hmet : t ∈ met
      · simp [hmet]
      · rcases hfind : types.find? t with _ | d
        · simp [hmet]
        · simpa [hmet] using ih (t :: met) (up d)

/-- A walk on which nothing is missing from the program does not lead outside. -/
theorem ascend_finish_ne_outside (steps : Nat) (met : List Token) {start : Option Token}
    (hup : types.ClosedUnder up)
    (hstart : ∀ r, start = some r → ∃ u, types.find? r = some u) (t : Token) :
    (types.ascend up steps met start).finish ≠ .outside t := by
  induction steps generalizing met start with
  | zero =>
    rcases start with _ | r
    · simp [ascend]
    · simp only [ascend]
      split <;> simp
  | succ steps ih =>
    rcases start with _ | r
    · simp [ascend]
    · obtain ⟨u, hu⟩ := hstart r rfl
      simp only [ascend, hu]
      split
      · simp
      · exact ih (r :: met) (hup u (mem_toList_of_find? hu))

theorem lineage_error {limit : Nat} {t : TypeDef} {fault : Fault}
    (h : types.lineage limit t = .error fault) : fault = .depthExceeded limit := by
  simp only [lineage] at h
  rcases hend : (types.ascend (fun d => d.base) limit [t.token] t.base).finish with
    _ | q | _ | q <;> rw [hend] at h <;> cases h <;> rfl

/-! ### Complete chains -/

namespace SelfNamed

variable (hnamed : types.SelfNamed)
include hnamed

/-- **A chain that ends does not come back to the type below it.** -/
theorem token_ne_of_climb {t : TypeDef} (ht : types.find? t.token = some t)
    {above : List TypeDef} (h : types.Climb up (up t) above) : ∀ d ∈ above, d.token ≠ t.token := by
  intro d hd htoken
  obtain ⟨s, hs⟩ := h.find?_of_mem hd
  rw [← hnamed s d hs, htoken, ht] at hs
  cases hs
  -- otherwise the chain would be a part of itself
  obtain ⟨rest, hrest, hsuffix⟩ := h.suffix_of_mem hd
  have hlength := hsuffix.length_le
  rw [hrest.unique h, List.length_cons] at hlength
  omega

theorem ascend_of_climb {start : Option Token} {above : List TypeDef}
    (h : types.Climb up start above) {steps : Nat} {met : List Token}
    (hlength : above.length ≤ steps) (hmet : ∀ d ∈ above, d.token ∉ met) :
    types.ascend up steps met start = ⟨above, .top⟩ := by
  induction h generalizing steps met with
  | top => simp [ascend]
  | @step t d rest hfind hrest ih =>
    have htoken : d.token = t := hnamed t d hfind
    obtain ⟨hhead, htail⟩ := List.forall_mem_cons.mp hmet
    have hfresh := hnamed.token_ne_of_climb (by rw [htoken]; exact hfind) hrest
    rw [htoken] at hhead hfresh
    rcases steps with _ | steps
    · cases hlength
    · have hrestmet : ∀ e ∈ rest, e.token ∉ t :: met := by
        intro e he hmem
        rcases List.mem_cons.mp hmem with heq | hmem
        · exact hfresh e he heq
        · exact htail e he hmem
      simp only [ascend, if_neg hhead, hfind, ih (Nat.le_of_succ_le_succ hlength) hrestmet]

variable {t : TypeDef} (ht : types.find? t.token = some t)
include ht

/-- **A walk from a type of the table comes to the top if and only if its chain ends
    within the limit.** -/
theorem ascend_eq_top_iff (steps : Nat) (above : List TypeDef) :
    types.ascend up steps [t.token] (up t) = ⟨above, .top⟩ ↔
      types.Climb up (up t) above ∧ above.length ≤ steps := by
  constructor
  · intro h
    have hclimb := @climb_of_ascend types up steps [t.token] (up t)
    have hlength := @length_passed_ascend_le types up steps [t.token] (up t)
    rw [h] at hclimb hlength
    exact ⟨hclimb rfl, hlength⟩
  · rintro ⟨hclimb, hlength⟩
    apply hnamed.ascend_of_climb hclimb hlength
    intro d hd hmem
    exact hnamed.token_ne_of_climb ht hclimb d hd (List.mem_singleton.mp hmem)

theorem enclosing_eq_ok_iff (limit : Nat) (around : List TypeDef) :
    types.enclosing limit t = .ok around ↔
      types.NestingChain t around ∧ around.length ≤ limit := by
  rw [NestingChain, ← hnamed.ascend_eq_top_iff ht]
  unfold enclosing
  rcases types.ascend (fun d => d.enclosing) limit [t.token] t.enclosing with
    ⟨passed, _ | q | _ | q⟩ <;> simp

theorem lineage_eq_ok_iff (hbase : types.ClosedUnder fun d => d.base) (limit : Nat)
    (line : List TypeDef) :
    types.lineage limit t = .ok line ↔
      ∃ bases, types.Climb (fun d => d.base) t.base bases ∧ bases.length ≤ limit ∧
        line = t :: bases := by
  have hinside := @ascend_finish_ne_outside types (fun d => d.base) limit [t.token] t.base hbase
    (hbase t (mem_toList_of_find? ht))
  have htop := @ascend_eq_top_iff types (fun d => d.base) hnamed t ht limit
  simp only [← and_assoc, ← htop]
  unfold lineage
  rcases hwalk : types.ascend (fun d => d.base) limit [t.token] t.base with
    ⟨passed, _ | q | _ | q⟩
  · simp [eq_comm]
  · simp
  · simp
  · rw [hwalk] at hinside
    exact absurd rfl (hinside q)

end SelfNamed

end TypeTable

/-! ### Sealed programs -/

theorem Program.Linked.closedUnder_base {p : Program} (hlinked : p.Linked) :
    p.types.ClosedUnder fun d => d.base := by
  intro d hd r hr
  apply hlinked d hd r
  simp only at hr
  simp [TypeEntry.references, hr]

theorem Program.Linked.closedUnder_enclosing {p : Program} (hlinked : p.Linked) :
    p.types.ClosedUnder fun d => d.enclosing := by
  intro d hd r hr
  apply hlinked d hd r
  simp only at hr
  simp [TypeEntry.references, hr]

namespace Program.Sealed

variable {p : Program} (hp : p.Sealed)
include hp

theorem selfNamed : p.types.SelfNamed := fun t d hfind => ((hp.find?_eq_some_iff t d).mp hfind).2

theorem enclosing_eq_ok_iff {t : TypeDef} (ht : t ∈ p.types.toList) (limit : Nat)
    (around : List TypeDef) :
    p.types.enclosing limit t = .ok around ↔
      p.types.NestingChain t around ∧ around.length ≤ limit :=
  hp.selfNamed.enclosing_eq_ok_iff (hp.find?_token ht) limit around

theorem lineage_eq_ok_iff (hlinked : p.Linked) {t : TypeDef} (ht : t ∈ p.types.toList)
    (limit : Nat) (line : List TypeDef) :
    p.types.lineage limit t = .ok line ↔
      ∃ bases, p.types.Climb (fun d => d.base) t.base bases ∧ bases.length ≤ limit ∧
        line = t :: bases :=
  hp.selfNamed.lineage_eq_ok_iff (hp.find?_token ht) hlinked.closedUnder_base limit line

end Program.Sealed

end TrimGuard
