/-
  TrimGuard/Proofs/Climb.lean
  ===========================
  **Walks that come to the top.**

  A bounded walk checks at every step whether it may go on.  A walk that was not
  stopped has found something that needs no bound to be described: the finite
  chain of the types above its start, up to one with nothing above it.  `Climb`
  describes such a chain by the program alone, without limit and without a list
  of types met, and the theorems about enclosing types are stated by it.
-/
import TrimGuard.Proofs.SealedProgram
import Mathlib.Logic.Relation

namespace TrimGuard

/-! ### Complete chains -/

/-- The types that `up` leads to from `start`, nearest first, the last of which
    has nothing above it. -/
inductive TypeTable.Climb (types : TypeTable) (up : TypeDef → Option Token) :
    Option Token → List TypeDef → Prop where
  | top : Climb types up none []
  | step {t : Token} {d : TypeDef} {above : List TypeDef} :
      types.find? t = some d → Climb types up (up d) above →
      Climb types up (some t) (d :: above)

namespace TypeTable

variable {types : TypeTable} {up : TypeDef → Option Token}

theorem climb_of_ascend : ∀ (steps : Nat) (met : List Token) (start : Option Token),
    (types.ascend up steps met start).finish = .top →
    types.Climb up start (types.ascend up steps met start).passed := by
  intro steps
  induction steps with
  | zero =>
    intro met start h
    cases start with
    | none =>
      simp only [ascend]
      exact Climb.top
    | some t =>
      simp only [ascend] at h
      split at h <;> cases h
  | succ steps ih =>
    intro met start h
    cases start with
    | none =>
      simp only [ascend]
      exact Climb.top
    | some t =>
      simp only [ascend] at h ⊢
      by_cases hmet : t ∈ met
      · rw [if_pos hmet] at h
        cases h
      · rw [if_neg hmet] at h ⊢
        cases hfind : types.find? t with
        | none => rw [hfind] at h; cases h
        | some d =>
          simp only [hfind] at h
          exact Climb.step hfind (ih (t :: met) (up d) h)

/-- The types above a start are determined by it. -/
theorem Climb.unique {start : Option Token} {above above' : List TypeDef}
    (h : types.Climb up start above) (h' : types.Climb up start above') : above = above' := by
  induction h generalizing above' with
  | top =>
    cases h'
    rfl
  | step hfind _ ih =>
    cases h' with
    | step hfind' hrest' =>
      rw [hfind] at hfind'
      cases hfind'
      rw [ih hrest']

/-- Every type of a chain stands at the bottom of a chain of its own, which is the
    rest of the first. -/
theorem Climb.suffix_of_mem {start : Option Token} {above : List TypeDef}
    (h : types.Climb up start above) {d : TypeDef} (hd : d ∈ above) :
    ∃ rest, types.Climb up (up d) rest ∧ d :: rest <:+ above := by
  induction h with
  | top => cases hd
  | step hfind hrest ih =>
    rcases List.mem_cons.mp hd with rfl | hd
    · exact ⟨_, hrest, List.suffix_refl _⟩
    · obtain ⟨rest, hclimb, hsuffix⟩ := ih hd
      exact ⟨rest, hclimb, hsuffix.trans (List.suffix_cons _ _)⟩

theorem Climb.of_mem {start : Option Token} {above : List TypeDef}
    (h : types.Climb up start above) {d : TypeDef} (hd : d ∈ above) :
    ∃ rest, types.Climb up (up d) rest ∧ rest ⊆ above := by
  obtain ⟨rest, hclimb, hsuffix⟩ := h.suffix_of_mem hd
  exact ⟨rest, hclimb, fun u hu => hsuffix.subset (List.mem_cons_of_mem d hu)⟩

theorem Climb.find?_of_mem {start : Option Token} {above : List TypeDef}
    (h : types.Climb up start above) {d : TypeDef} (hd : d ∈ above) :
    ∃ t, types.find? t = some d := by
  induction h with
  | top => cases hd
  | step hfind _ ih =>
    rcases List.mem_cons.mp hd with rfl | hd
    · exact ⟨_, hfind⟩
    · exact ih hd

theorem Climb.mem_toList {start : Option Token} {above : List TypeDef}
    (h : types.Climb up start above) {d : TypeDef} (hd : d ∈ above) : d ∈ types.toList := by
  obtain ⟨t, hfind⟩ := h.find?_of_mem hd
  exact mem_toList_of_find? hfind

/-! ### Enclosing types -/

/-- The second type is the one that the first is nested in. -/
def NestedIn (types : TypeTable) (inner outer : Token) : Prop :=
  ∃ d, types.find? inner = some d ∧ d.enclosing = some outer

/-- The second type is the first or one of the types around it, at any distance. -/
def Encloses (types : TypeTable) : Token → Token → Prop := Relation.ReflTransGen types.NestedIn

/-- The types around `t`, all of them. -/
abbrev NestingChain (types : TypeTable) (t : TypeDef) (around : List TypeDef) : Prop :=
  types.Climb (fun d => d.enclosing) t.enclosing around

theorem nestingChain_of_enclosing {limit : Nat} {t : TypeDef} {around : List TypeDef}
    (h : types.enclosing limit t = .ok around) : types.NestingChain t around := by
  simp only [enclosing] at h
  have hclimb := @climb_of_ascend types (fun d => d.enclosing) limit [t.token] t.enclosing
  cases hfinish : (types.ascend (fun d => d.enclosing) limit [t.token] t.enclosing).finish with
  | top =>
    rw [hfinish] at h
    cases h
    exact hclimb hfinish
  | repeats p => rw [hfinish] at h; cases h
  | tooHigh => rw [hfinish] at h; cases h
  | outside p => rw [hfinish] at h; cases h

end TypeTable

namespace Program.Sealed

variable {p : Program} (hp : p.Sealed)
include hp

private theorem mem_climb_iff {start : Option Token} {around : List TypeDef}
    (h : p.types.Climb (fun d => d.enclosing) start around) (u : Token) :
    (∃ d ∈ around, d.token = u) ↔ ∃ s, start = some s ∧ p.types.Encloses s u := by
  induction h with
  | top => simp
  | @step t d above hfind _ ih =>
    have htoken : d.token = t := ((hp.find?_eq_some_iff t d).mp hfind).2
    constructor
    · rintro ⟨e, he, rfl⟩
      refine ⟨t, rfl, ?_⟩
      rcases List.mem_cons.mp he with rfl | he
      · rw [htoken]
        exact Relation.ReflTransGen.refl
      · obtain ⟨s, hs, hreach⟩ := ih.mp ⟨e, he, rfl⟩
        exact Relation.ReflTransGen.head ⟨d, hfind, hs⟩ hreach
    · rintro ⟨s, hs, hreach⟩
      cases hs
      rcases Relation.ReflTransGen.cases_head hreach with rfl | ⟨v, ⟨d', hfind', hv⟩, hrest⟩
      · exact ⟨d, List.mem_cons_self, htoken⟩
      · rw [hfind] at hfind'
        cases hfind'
        obtain ⟨e, he, heq⟩ := ih.mpr ⟨v, hv, hrest⟩
        exact ⟨e, List.mem_cons_of_mem _ he, heq⟩

/-- Where the nesting chain of a type is finite, it holds the types that enclose
    it and no others. -/
theorem mem_nestingChain_iff {t : TypeDef} (ht : t ∈ p.types.toList) {around : List TypeDef}
    (h : p.types.NestingChain t around) (u : Token) :
    (∃ d ∈ t :: around, d.token = u) ↔ p.types.Encloses t.token u :=
  (hp.mem_climb_iff (.step (hp.find?_token ht) h) u).trans (by simp)

end Program.Sealed

end TrimGuard
