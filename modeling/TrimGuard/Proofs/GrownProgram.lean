/-
  TrimGuard/Proofs/GrownProgram.lean
  ==================================
  **Loading more never takes anything away.**

  A draft to which types and methods are added keeps the rows it had, and with them
  their tokens (`Draft.Grows`).  So the program that it was sealed to before stands in
  the one that it is sealed to afterwards, under the names it had, and a run over the
  larger program retains at least what a run over the smaller one did.

  The additions may well refer to what was there.  A new method may be declared by an
  old type, it may override old methods, and it may be the first constructor that
  takes a native handle; but it comes behind the methods that the type had, so it is
  never chosen in place of one of them.  Only a late nesting could change what was
  there, since it replaces an edge that may have been the reason to retain a type.

  Drafts grow by registration, and a workbench comes to the same draft by its calls
  (`Workbench.toDraft_attempt`).
-/
import TrimGuard.Proofs.CarriedRun
import TrimGuard.Proofs.RegistrationHistory

namespace TrimGuard

namespace Draft

/-! ### Additions -/

/-- The registration adds a definition and changes none. -/
def Registration.Adds : Registration → Prop
  | .type _ | .method _ => True
  | .nest _ _ => False

/-- The second draft has the rows of the first one and perhaps more behind them. -/
structure Grows (d d' : Draft) : Prop where
  exportName : d'.exportName = d.exportName
  types : d.types.toList <+: d'.types.toList
  methods : d.methods.toList <+: d'.methods.toList

theorem Grows.refl (d : Draft) : d.Grows d := ⟨rfl, List.prefix_refl _, List.prefix_refl _⟩

theorem Grows.trans {d d' d'' : Draft} (h : d.Grows d') (h' : d'.Grows d'') : d.Grows d'' :=
  ⟨h'.exportName.trans h.exportName, h.types.trans h'.types, h.methods.trans h'.methods⟩

theorem grows_register {d d' : Draft} {r : Registration} {t : Token} (hadds : r.Adds)
    (h : d.register r = .ok (t, d')) : d.Grows d' := by
  obtain ⟨hname, hcase⟩ := register_cases h
  rcases hcase with ⟨e, rfl, -, -, -, htypes, hmethods⟩ |
    ⟨e, rfl, -, -, -, -, htypes, hmethods⟩ | ⟨outer, i, rfl, -⟩
  · exact ⟨hname, by simp [htypes], by simp [hmethods]⟩
  · exact ⟨hname, by simp [htypes], by simp [hmethods]⟩
  · cases hadds

theorem grows_registerAll {rs : List Registration} (hadds : ∀ r ∈ rs, r.Adds) (d : Draft) :
    d.Grows (d.registerAll rs) := by
  induction rs generalizing d with
  | nil => exact Grows.refl d
  | cons r rs ih =>
    obtain ⟨hhead, htail⟩ := List.forall_mem_cons.mp hadds
    simp only [registerAll, List.foldl_cons]
    rcases hregister : d.register r with fault | ⟨t, d'⟩
    · exact ih htail d
    · exact (grows_register hhead hregister).trans (ih htail d')

/-! ### Rows -/

namespace Grows

variable {d d' : Draft} (h : d.Grows d')
include h

theorem typeRows : d.typeRows <+: d'.typeRows := by
  obtain ⟨more, hmore⟩ := h.types
  rw [Draft.typeRows, Draft.typeRows, ← hmore, List.zipIdx_append, List.map_append]
  exact List.prefix_append _ _

theorem methodRows : d.methodRows <+: d'.methodRows := by
  obtain ⟨more, hmore⟩ := h.methods
  rw [Draft.methodRows, Draft.methodRows, ← hmore, List.zipIdx_append, List.map_append]
  exact List.prefix_append _ _

theorem methodIndex_under (t : Token) : d.methodIndex.under t <+: d'.methodIndex.under t := by
  rw [methodIndex, methodIndex, Token.Index.under_ofPairs, Token.Index.under_ofPairs]
  exact ((h.methodRows.map _).filter _).map _

/-! ### Sealing both -/

variable {p q : Program} (hbuild : d.toProgram = .ok p) (hbuild' : d'.toProgram = .ok q)
include hbuild hbuild'

theorem typesCarried : TypesCarried (Equiv.refl Token) p q where
  source := d.sealed_of_toProgram hbuild
  target := d'.sealed_of_toProgram hbuild'
  linked := d.linked_of_toProgram hbuild
  types := by
    obtain ⟨-, htypes, -⟩ := toProgram_eq_ok hbuild
    obtain ⟨-, htypes', -⟩ := toProgram_eq_ok hbuild'
    intro t ht
    rw [htypes] at ht
    rw [htypes']
    simp only [typeTable, TypeTable.toList, List.mem_map] at ht ⊢
    obtain ⟨row, hrow, rfl⟩ := ht
    refine ⟨_, ⟨row, h.typeRows.subset hrow, rfl⟩, ?_⟩
    constructor <;> simp

theorem carried : Carried (Equiv.refl Token) (Equiv.refl Token) p q where
  toTypesCarried := h.typesCarried hbuild hbuild'
  declared := by
    have hc := h.typesCarried hbuild hbuild'
    obtain ⟨-, htypes, -⟩ := toProgram_eq_ok hbuild
    obtain ⟨-, htypes', -⟩ := toProgram_eq_ok hbuild'
    intro t ht
    obtain ⟨hmem, hrenamed⟩ := hc.counterpart_spec ht
    rw [htypes] at ht
    rw [htypes'] at hmem
    rw [methods_typeTable ht, methods_typeTable hmem, hrenamed.token]
    simpa using h.methodIndex_under t.token
  methods := by
    have hc := h.typesCarried hbuild hbuild'
    intro m hm
    have hrow := h.methodRows.subset ((mem_methodRows_iff hbuild _).mpr ⟨m, hm, rfl⟩)
    obtain ⟨m', hm', heq⟩ := (mem_methodRows_iff hbuild' _).mp hrow
    obtain ⟨htoken, hentry⟩ := Prod.mk.inj heq
    have hrenamed : m.Renamed (Equiv.refl Token) (Equiv.refl Token) m' := by
      constructor <;> simp [htoken, hentry]
    exact ⟨m', hm', hrenamed, hc.exported_eq hbuild hbuild' h.exportName hm hm' hrenamed⟩

end Grows

end Draft

namespace Pass

theorem carried_of_grows {d d' : Draft} (h : d.Grows d') {p q : Program}
    (hbuild : d.toProgram = .ok p) (hbuild' : d'.toProgram = .ok q) (profile : Profile) :
    Carried (Equiv.refl Token) (Equiv.refl Token) ⟨p, profile⟩ ⟨q, profile⟩ where
  toCarried := h.carried hbuild hbuild'
  profile := by simp [Profile.rename]

/-! ### Additions to the small program

The canvas gets a subtype, the view another constructor that takes a native handle,
and one registration fails for want of a name. -/

def sampleAdditions : List Draft.Registration :=
  let app : Assembly := ⟨"App", .unknown, none⟩
  [ .type { assembly := app, name := ⟨"", ""⟩ },
    .type { assembly := app, name := ⟨"", "Sketch"⟩, base := some (.ofTypeIndex 4) },
    .method { owner := .ofTypeIndex 2, name := MethodEntry.constructorName,
              flags := .constructor, params := [.nativeInt] },
    .method { owner := .ofTypeIndex 5, name := "Draw", flags := .virtual,
              overrides := [.ofMethodIndex 2] } ]

def grown : Pass where
  program := (sampleDraft.registerAll sampleAdditions).toProgram.toOption.get (by decide +kernel)
  profile := .iOS

theorem toProgram_grown : (sampleDraft.registerAll sampleAdditions).toProgram = .ok grown.program :=
  Draft.toProgram_of_isSome (by decide +kernel)

/-! ### The outcome -/

/-- **Whatever is registered besides, nothing is retained any less.**  The types of
    the smaller program keep their roles.  Where a run over the larger one is through,
    so is a run over the smaller one, and what it retains the other retains as well:
    types at no lower level, methods in no other order. -/
theorem retained_after_growth {d : Draft} {rs : List Draft.Registration}
    (hadds : ∀ r ∈ rs, r.Adds) {p q : Program} (hbuild : d.toProgram = .ok p)
    (hbuild' : (d.registerAll rs).toProgram = .ok q) {profile : Profile} {s s' : Progress}
    (hempty : s.retention = .empty) (hempty' : s'.retention = .empty)
    (hmemo : s.memo.Sound profile) (hmemo' : s'.memo.Sound profile) :
    (∀ t ∈ p.types.toList, ∃ t' ∈ q.types.toList, t'.token = t.token ∧
        profile.roleOf q.types t' = profile.roleOf p.types t) ∧
      ∀ tally', ((⟨q, profile⟩ : Pass).run s').1 = .ok tally' →
        ∃ tally, ((⟨p, profile⟩ : Pass).run s).1 = .ok tally ∧ tally.AtMost tally' ∧
          (∀ t ∈ p.types.toList, ((⟨p, profile⟩ : Pass).run s).2.retention.level t.token ≤
            ((⟨q, profile⟩ : Pass).run s').2.retention.level t.token) ∧
          (∀ m, ((⟨p, profile⟩ : Pass).run s).2.retention.isKept m = true →
            ((⟨q, profile⟩ : Pass).run s').2.retention.isKept m = true) ∧
          ∀ t ∈ p.types.toList,
            (((⟨p, profile⟩ : Pass).run s).2.retention.keptUnder t.token).Sublist
              (((⟨q, profile⟩ : Pass).run s').2.retention.keptUnder t.token) := by
  have hc := carried_of_grows (Draft.grows_registerAll hadds d) hbuild hbuild' profile
  have hs : Starts d ⟨p, profile⟩ s := ⟨hbuild, hempty, hmemo⟩
  have hs' : Starts (d.registerAll rs) ⟨q, profile⟩ s' := ⟨hbuild', hempty', hmemo'⟩
  refine ⟨?_, ?_⟩
  · intro t ht
    obtain ⟨hmem, hrenamed⟩ := hc.counterpart_spec ht
    exact ⟨_, hmem, hrenamed.token, hc.roleOf_rename profile ht⟩
  · intro tally' hrun'
    obtain ⟨tally, hrun⟩ := hc.run_ok_of_rename hs hs' ⟨tally', hrun'⟩
    refine ⟨tally, hrun, ?_, ?_, ?_, ?_⟩
    · exact hc.tally_run_le hs hs' hrun hrun'
    · intro t ht
      exact hc.level_run_le hs hs' hrun hrun' ht
    · intro m hm
      exact hc.isKept_run_rename hs hs' hrun hrun' hm
    · intro t ht
      have hsub := hc.keptUnder_run_sublist hs hs' hrun hrun' ht
      simpa using hsub

theorem retained_after_growth_sketch :
    (∀ r ∈ sampleAdditions, r.Adds) ∧ (grown.run {}).1 = .ok ⟨6, 4, 0, 3, 2⟩ ∧
      (grown.run {}).2.retention.keptUnder (.ofTypeIndex 2) =
        [.ofMethodIndex 0, .ofMethodIndex 1] ∧
      (∀ t ∈ sample.program.types.toList, (sample.run {}).2.retention.level t.token ≤
        (grown.run {}).2.retention.level t.token) := by
  have hadds : ∀ r ∈ sampleAdditions, r.Adds := by
    intro r hr
    simp only [sampleAdditions, List.mem_cons, List.not_mem_nil, or_false] at hr
    rcases hr with rfl | rfl | rfl | rfl <;> trivial
  have hrun : (grown.run {}).1 = .ok ⟨6, 4, 0, 3, 2⟩ := by decide +kernel
  have hlist : (grown.run {}).2.retention.keptUnder (.ofTypeIndex 2) =
      [.ofMethodIndex 0, .ofMethodIndex 1] := by decide +kernel
  have hempty : ({} : Progress).retention = .empty := rfl
  have hmemo := Provenance.Memo.sound_empty .iOS
  have hgrowth := retained_after_growth hadds toProgram_sampleDraft toProgram_grown hempty hempty
    hmemo hmemo
  obtain ⟨tally, hsmall, -, hlevel, -⟩ := hgrowth.2 _ hrun
  exact ⟨hadds, hrun, hlist, hlevel⟩

end Pass

end TrimGuard
