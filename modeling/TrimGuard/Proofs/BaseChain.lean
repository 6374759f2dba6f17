/-
  TrimGuard/Proofs/BaseChain.lean
  ===============================
  **Which chains of base types are listed, and which are given up.**

  The base types of a type are a sequence like the types around it, and the walk along
  them stops in the same ways.  It has fewer outcomes: a chain that comes to a type for
  the second time would never end, so it is reported like one that is too long.  What
  remains is one question, whether the chain ends within the limit.  If it does, the
  whole of it is listed; in every other case the limit is reported.

  A chain of which every type is listed is listed from each of its types on.  So a type
  that is in order has a base type that is in order, under the same limit.
-/
import TrimGuard.Proofs.WalkOutcome

namespace TrimGuard

namespace TypeTable

variable {types : TypeTable} {t : TypeDef} {limit k : Nat}

theorem lineage_eq_walk (limit : Nat) : types.lineage limit t =
    match (types.walk (fun d => d.base) limit t).finish with
    | .top | .outside _ => .ok (t :: (types.walk (fun d => d.base) limit t).passed)
    | .repeats _ | .tooHigh => .error (.depthExceeded limit) := rfl

section Bases

variable (hnamed : types.SelfNamed) (hup : types.ClosedUnder fun d => d.base)
  (ht : types.find? t.token = some t)
include hnamed hup ht

theorem lineage_of_endsAt (hle : k ≤ limit) (h : types.EndsAt (fun d => d.base) t k) :
    types.lineage limit t = .ok (t :: (types.walk (fun d => d.base) limit t).passed) ∧
      (types.walk (fun d => d.base) limit t).passed.length = k := by
  obtain ⟨hlength, htop⟩ := (stops_walk hnamed hup ht limit).unique (.top hle h)
  refine ⟨?_, hlength⟩
  rw [lineage_eq_walk, htop]

theorem lineage_eq_depthExceeded (h : ∀ k ≤ limit, ¬ types.EndsAt (fun d => d.base) t k) :
    types.lineage limit t = .error (.depthExceeded limit) := by
  have hstops := stops_walk hnamed hup ht limit
  rw [lineage_eq_walk]
  generalize (types.walk (fun d => d.base) limit t).passed.length = m at hstops
  generalize (types.walk (fun d => d.base) limit t).finish = finish at hstops ⊢
  cases hstops with
  | top hle hends => exact absurd hends (h m hle)
  | repeats => rfl
  | tooHigh => rfl

/-- **A chain of base types is listed if and only if it ends within the limit.** -/
theorem lineage_eq_ok_iff_endsAt (chain : List TypeDef) :
    types.lineage limit t = .ok chain ↔
      ∃ k ≤ limit, types.EndsAt (fun d => d.base) t k ∧ chain.length = k + 1 ∧
        ∀ i ≤ k, chain[i]? = types.nthUp (fun d => d.base) t i := by
  constructor
  · intro hchain
    have hends : ∃ k ≤ limit, types.EndsAt (fun d => d.base) t k := by
      by_contra hnone
      push Not at hnone
      rw [lineage_eq_depthExceeded hnamed hup ht hnone] at hchain
      cases hchain
    obtain ⟨k, hle, hends⟩ := hends
    obtain ⟨hlisted, hlength⟩ := lineage_of_endsAt hnamed hup ht hle hends
    rw [hlisted, Except.ok.injEq] at hchain
    subst hchain
    refine ⟨k, hle, hends, by rw [List.length_cons, hlength], ?_⟩
    intro i hi
    exact getElem?_walk (hlength.symm ▸ hi)
  · rintro ⟨k, hle, hends, hlength, hget⟩
    obtain ⟨hlisted, hpassed⟩ := lineage_of_endsAt hnamed hup ht hle hends
    have hsame : t :: (types.walk (fun d => d.base) limit t).passed = chain := by
      apply List.ext_getElem?
      intro i
      by_cases hi : i ≤ k
      · rw [getElem?_walk (hpassed.symm ▸ hi), hget i hi]
      · rw [List.getElem?_eq_none (by rw [List.length_cons]; omega),
          List.getElem?_eq_none (by omega)]
    rw [hlisted, hsame]

theorem nodup_of_lineage {chain : List TypeDef} (h : types.lineage limit t = .ok chain) :
    (chain.map fun d => d.token).Nodup := by
  obtain ⟨k, hle, hends, -⟩ := (lineage_eq_ok_iff_endsAt hnamed hup ht chain).mp h
  rw [(lineage_of_endsAt hnamed hup ht hle hends).1, Except.ok.injEq] at h
  subst h
  exact nodup_walk hnamed hup ht limit

/-- **The chain of the base type is the rest of the chain.** -/
theorem lineage_tail {chain : List TypeDef} (h : types.lineage limit t = .ok chain) {b : Token}
    (hb : t.base = some b) :
    ∃ u, types.find? b = some u ∧ types.lineage limit u = .ok chain.tail := by
  obtain ⟨bases, hclimb, hlength, rfl⟩ := (hnamed.lineage_eq_ok_iff ht hup limit chain).mp h
  rw [hb] at hclimb
  cases hclimb with
  | @step _ u rest hfind hrest =>
    have hu : types.find? u.token = some u := by rw [hnamed b u hfind, hfind]
    refine ⟨u, hfind, (hnamed.lineage_eq_ok_iff hu hup limit _).mpr ⟨rest, hrest, ?_, rfl⟩⟩
    exact Nat.le_of_succ_le hlength

/-- A chain that does not end within the limit is longer, or comes to a type for the
    second time. -/
theorem forall_not_endsAt_iff :
    (∀ k ≤ limit, ¬ types.EndsAt (fun d => d.base) t k) ↔
      (∃ k, limit < k ∧ types.EndsAt (fun d => d.base) t k) ∨
        ∃ j u, types.ReturnsAt (fun d => d.base) t j u := by
  constructor
  · intro hnone
    rcases endsAt_or_returnsAt hnamed hup ht with ⟨k, -, hends⟩ | ⟨j, -, u, hreturns⟩
    · exact .inl ⟨k, Nat.lt_of_not_le fun hle => hnone k hle hends, hends⟩
    · exact .inr ⟨j, u, hreturns⟩
  · rintro (⟨k, hlong, hends⟩ | ⟨j, u, hreturns⟩) k' hle hends'
    · rw [hends'.unique hends] at hle
      exact Nat.not_lt.mpr hle hlong
    · exact hends'.not_returnsAt hreturns

end Bases

end TypeTable

/-- **Each outcome of the walk along the base types, and when it is met.**  The type and
    its base types are listed, each once and in their order, if and only if their
    sequence ends within the limit.  In every other case the limit is reported: the
    sequence is longer, or it comes back to any type that is already part of it.  What is
    listed of a type is listed of its base type but for the type itself.  The walk is
    over after fewer rounds than the program has types. -/
theorem Program.lineage_exact {d : Draft} {p : Program} (hbuild : d.toProgram = .ok p)
    {t : TypeDef} (ht : t ∈ p.types.toList) (limit : Nat) :
    (∀ chain, p.types.lineage limit t = .ok chain ↔
        ∃ k ≤ limit, p.types.EndsAt (fun d => d.base) t k ∧ chain.length = k + 1 ∧
          ∀ i ≤ k, chain[i]? = p.types.nthUp (fun d => d.base) t i) ∧
      (p.types.lineage limit t = .error (.depthExceeded limit) ↔
        ∀ k ≤ limit, ¬ p.types.EndsAt (fun d => d.base) t k) ∧
      ((∀ k ≤ limit, ¬ p.types.EndsAt (fun d => d.base) t k) ↔
        (∃ k, limit < k ∧ p.types.EndsAt (fun d => d.base) t k) ∨
          ∃ j u, p.types.ReturnsAt (fun d => d.base) t j u) ∧
      (∀ chain, p.types.lineage limit t = .ok chain →
        (chain.map fun d => d.token).Nodup ∧
          ∀ b, t.base = some b →
            ∃ u, p.type? b = some u ∧ p.types.lineage limit u = .ok chain.tail) ∧
      (p.types.ascend (fun d => d.base) limit [t.token] t.base).passed.length <
        p.types.size := by
  have hnamed := (d.sealed_of_toProgram hbuild).selfNamed
  have hup := (d.linked_of_toProgram hbuild).closedUnder_base
  have hfind := (d.sealed_of_toProgram hbuild).find?_token ht
  refine ⟨TypeTable.lineage_eq_ok_iff_endsAt hnamed hup hfind, ?_,
    TypeTable.forall_not_endsAt_iff hnamed hup hfind, ?_,
    TypeTable.length_passed_walk_lt hnamed hup hfind limit⟩
  · refine ⟨?_, TypeTable.lineage_eq_depthExceeded hnamed hup hfind⟩
    intro hexceeded k hle hends
    rw [(TypeTable.lineage_of_endsAt hnamed hup hfind hle hends).1] at hexceeded
    cases hexceeded
  · intro chain hchain
    exact ⟨TypeTable.nodup_of_lineage hnamed hup hfind hchain,
      fun _ hb => TypeTable.lineage_tail hnamed hup hfind hchain hb⟩

/-! A type derived from one of two types that are derived from each other, and a type
with two base types. -/

def coilDraft : Draft :=
  let app : Assembly := ⟨"App", .unknown, none⟩
  Draft.empty.registerAll [
    .type { assembly := app, name := ⟨"App", "Spring"⟩, base := some (.ofTypeIndex 1) },
    .type { assembly := app, name := ⟨"App", "Coil"⟩, base := some (.ofTypeIndex 2) },
    .type { assembly := app, name := ⟨"App", "Wire"⟩, base := some (.ofTypeIndex 1) },
    .type { assembly := app, name := ⟨"App", "Label"⟩, base := some (.ofTypeIndex 4) },
    .type { assembly := app, name := ⟨"App", "View"⟩, base := some (.ofTypeIndex 5) },
    .type { assembly := app, name := ⟨"App", "Object"⟩ }]

def coil : Program := coilDraft.toProgram.toOption.get (by decide +kernel)

theorem toProgram_coilDraft : coilDraft.toProgram = .ok coil :=
  Draft.toProgram_of_isSome (by decide +kernel)

/-- The limit is inclusive, and no limit is large enough for a chain that returns. -/
theorem Program.lineage_exact_coil :
    (∃ label ∈ coil.types.toList, ∃ view ∈ coil.types.toList, label.base = some view.token ∧
        coil.types.EndsAt (fun d => d.base) label 2 ∧
        (∃ chain, coil.types.lineage 2 label = .ok chain ∧ chain.length = 3 ∧
          coil.types.lineage 2 view = .ok chain.tail) ∧
        coil.types.lineage 1 label = .error (.depthExceeded 1)) ∧
      ∃ spring ∈ coil.types.toList, ∃ wire,
        coil.types.ReturnsAt (fun d => d.base) spring 3 wire ∧
        coil.types.lineage 1000000 spring = .error (.depthExceeded 1000000) := by
  constructor
  · have hending : ∃ label ∈ coil.types.toList, ∃ view ∈ coil.types.toList,
        label.base = some view.token ∧ coil.type? view.token = some view ∧
        ∃ object ∈ coil.types.toList,
          coil.types.nthUp (fun d => d.base) label 2 = some object ∧ object.base = none := by
      decide +kernel
    obtain ⟨label, hlabel, view, hview, hbase, hfind, object, -, hreached, htop⟩ := hending
    have hends : coil.types.EndsAt (fun d => d.base) label 2 := ⟨object, hreached, htop⟩
    refine ⟨label, hlabel, view, hview, hbase, hends, ?_, ?_⟩
    · obtain ⟨hok, hexceeded, -, hrest, -⟩ := lineage_exact toProgram_coilDraft hlabel 2
      rcases hlisted : coil.types.lineage 2 label with fault | chain
      · have hfault := TypeTable.lineage_error hlisted
        rw [hfault] at hlisted
        exact absurd hends (hexceeded.mp hlisted 2 (by decide))
      · obtain ⟨k, -, hk, hlength, -⟩ := (hok chain).mp hlisted
        obtain ⟨u, hu, htail⟩ := (hrest chain hlisted).2 _ hbase
        rw [hfind, Option.some_inj] at hu
        subst hu
        exact ⟨chain, rfl, by rw [hlength, hk.unique hends], htail⟩
    · apply (lineage_exact toProgram_coilDraft hlabel 1).2.1.mpr
      intro k hle hk
      rw [hk.unique hends] at hle
      exact absurd hle (by decide)
  · have hreturning : ∃ spring ∈ coil.types.toList, ∃ wire ∈ coil.types.toList,
        coil.types.nthUp (fun d => d.base) spring 3 = some wire ∧
        (∃ i < 3, coil.types.nthUp (fun d => d.base) spring i = some wire) ∧
        ∀ k < 3, ∀ i < k, coil.types.nthUp (fun d => d.base) spring i ≠
          coil.types.nthUp (fun d => d.base) spring k := by
      decide +kernel
    obtain ⟨spring, hspring, wire, -, hreached, hbefore, hfirst⟩ := hreturning
    have hreturns : coil.types.ReturnsAt (fun d => d.base) spring 3 wire :=
      ⟨hreached, hbefore, hfirst⟩
    refine ⟨spring, hspring, wire, hreturns, ?_⟩
    obtain ⟨-, hexceeded, hcases, -⟩ := lineage_exact toProgram_coilDraft hspring 1000000
    exact hexceeded.mpr (hcases.mpr (.inr ⟨3, wire, hreturns⟩))

end TrimGuard
