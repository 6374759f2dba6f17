/-
  TrimGuard/Proofs/CarriedRun.lean
  ================================
  **Runs over a program and over one that it is carried into.**

  What ought to be retained is told by roles, assemblies, nesting and overriders
  (`RetainedWhole`, `nativeMembers`).  The first three are the same for a type and for
  its counterpart, and the overriders of a method can only become more.  So nothing
  that ought to be retained in the first program is missing in the second one, and
  since a run retains just what it ought to, nothing that a run over the first program
  retains is missing after a run over the second: no level is lower, no retained
  method is lost, no list is in another order, and no number of the tally goes down.

  All this is stated for one direction.  Two programs that are carried into one
  another agree.
-/
import TrimGuard.Proofs.CarriedProgram
import TrimGuard.Proofs.RunCriterion
import Mathlib.Data.List.Find

namespace TrimGuard

/-! ### More and less -/

theorem Level.le_iff (a b : Level) :
    a ≤ b ↔ (a = .all → b = .all) ∧ (a = .members → b ≠ .none) := by
  cases a <;> cases b <;> decide

/-- None of the numbers of the first tally is above that of the second one. -/
structure Tally.AtMost (a b : Tally) : Prop where
  types : a.types ≤ b.types
  bridgeObjects : a.bridgeObjects ≤ b.bridgeObjects
  handleWrappers : a.handleWrappers ≤ b.handleWrappers
  wholeTypes : a.wholeTypes ≤ b.wholeTypes
  methods : a.methods ≤ b.methods

namespace Retention

variable {f : Token → Token} (hf : Function.Injective f) {r r' : Retention}
include hf

theorem count_le {level : Level} (hlevel : level ≠ .none)
    (h : ∀ t, r.level t = level → r'.level (f t) = level) : r.count level ≤ r'.count level := by
  obtain ⟨ts, hnodup, hts, hlength⟩ := r.exists_list_atLevel level hlevel
  obtain ⟨ts', -, hts', hlength'⟩ := r'.exists_list_atLevel level hlevel
  rw [← hlength, ← hlength']
  apply length_le_of_injOn f hnodup fun t _ u _ heq => hf heq
  intro t ht
  exact (hts' _).mpr (h t ((hts t).mp ht))

theorem keptCount_le (h : ∀ m, r.isKept m = true → r'.isKept (f m) = true) :
    r.keptCount ≤ r'.keptCount := by
  obtain ⟨ms, hnodup, hms, hlength⟩ := r.exists_list_kept
  obtain ⟨ms', -, hms', hlength'⟩ := r'.exists_list_kept
  rw [← hlength, ← hlength']
  apply length_le_of_injOn f hnodup fun m _ n _ heq => hf heq
  intro m hm
  exact (hms' _).mpr (h m ((hms m).mp hm))

end Retention

/-! ### What ought to be retained -/

/-- The profile for a program whose types have new names. -/
def Profile.rename (p : Profile) (f : Token → Token) : Profile :=
  { p with nativeHandle := p.nativeHandle.rename f }

theorem Profile.roleOf_rename (profile : Profile) (f : Token → Token) :
    (profile.rename f).roleOf = profile.roleOf := rfl

/-- What passes one test, and then another test under its new name. -/
theorem map_filter_sublist {α β : Type} {new : α → β} {keep : α → Bool} {keep' : β → Bool}
    {as : List α} (h : ∀ a ∈ as, keep a = true → keep' (new a) = true) :
    ((as.filter keep).map new).Sublist ((as.map new).filter keep') := by
  have hkept : ((as.filter keep).map new).filter keep' = (as.filter keep).map new := by
    simp only [List.filter_eq_self, List.mem_map, List.mem_filter]
    rintro - ⟨a, ⟨ha, hkeep⟩, rfl⟩
    exact h a ha hkeep
  rw [← hkept]
  exact (List.filter_sublist.map new).filter keep'

namespace Pass

/-- The second pass is the first one over a program in which that of the first one
    stands under new names. -/
structure Carried (f g : Equiv.Perm Token) (pass pass' : Pass) : Prop
    extends TrimGuard.Carried f g pass.program pass'.program where
  profile : pass'.profile = pass.profile.rename f

/-- A run that starts here is a first one over a sealed program: nothing is retained
    yet, and what is remembered is right. -/
structure Starts (d : Draft) (pass : Pass) (s : Progress) : Prop where
  built : d.toProgram = .ok pass.program
  empty : s.retention = .empty
  sound : s.memo.Sound pass.profile

variable {pass : Pass}

namespace Carried

variable {pass' : Pass} {f g : Equiv.Perm Token} (hc : Carried f g pass pass')
include hc

theorem product_eq : pass'.profile.product = pass.profile.product := by
  rw [hc.profile]
  rfl

theorem compat_eq : pass'.profile.compat = pass.profile.compat := by
  rw [hc.profile]
  rfl

theorem ofProduct_rename {t : TypeDef} (ht : t ∈ pass.program.types.toList) :
    pass'.OfProduct (pass'.program.counterpart f t) ↔ pass.OfProduct t := by
  simp only [OfProduct, (hc.counterpart_renamed ht).assembly, hc.product_eq, hc.compat_eq]

theorem role?_rename {t : TypeDef} (ht : t ∈ pass.program.types.toList) :
    pass'.role? (pass'.program.counterpart f t) = pass.role? t := by
  simp only [role?, hc.profile, Profile.roleOf_rename, hc.roleOf_rename pass.profile ht]

theorem bridged_rename {t : TypeDef} (ht : t ∈ pass.program.types.toList) :
    pass'.Bridged (pass'.program.counterpart f t) ↔ pass.Bridged t := by
  simp only [Bridged, hc.profile, Profile.roleOf_rename, hc.roleOf_rename pass.profile ht]

theorem nestingFits_of_rename {t : TypeDef} (ht : t ∈ pass.program.types.toList)
    (h : pass'.NestingFits (pass'.program.counterpart f t)) : pass.NestingFits t := by
  rw [nestingFits_iff hc.target (hc.counterpart_mem ht)] at h
  rw [nestingFits_iff hc.source ht]
  have hlimit : pass'.profile.maxNesting = pass.profile.maxNesting := by
    rw [hc.profile]
    rfl
  have hwalk := hc.enclosing_rename ht pass.profile.maxNesting
  obtain ⟨around, haround⟩ := h
  rw [← hlimit, haround] at hwalk
  rw [← hlimit]
  rcases hline : pass.program.types.enclosing pass'.profile.maxNesting t with fault | line
  · rw [hline] at hwalk
    cases hwalk
  · exact ⟨line, rfl⟩

theorem retainedWhole_rename {x : Token} (h : pass.RetainedWhole x) :
    pass'.RetainedWhole (f x) := by
  obtain ⟨u, hu, ⟨hbridged, hconsumer⟩, hencloses⟩ := h
  have hreach := hc.encloses_rename hencloses
  rw [← (hc.counterpart_renamed hu).token] at hreach
  refine ⟨_, hc.counterpart_mem hu, ⟨(hc.bridged_rename hu).mpr hbridged, ?_⟩, hreach⟩
  exact fun hproduct => hconsumer ((hc.ofProduct_rename hu).mp hproduct)

theorem dispatchedInto_rename {m : MethodDef} (hm : m ∈ pass.program.methods.toList)
    (h : pass.DispatchedInto m) :
    pass'.DispatchedInto (pass'.program.methodCounterpart g m) := by
  obtain ⟨hvirtual, hexported, o, ho, hover, t, ht, htoken, hname⟩ := h
  obtain ⟨-, hrenamed, hmark⟩ := hc.method_spec hm
  obtain ⟨homem, horenamed, -⟩ := hc.method_spec ho
  obtain ⟨htmem, htrenamed⟩ := hc.counterpart_spec ht
  refine ⟨?_, hmark.trans hexported, _, homem, ?_, _, htmem, ?_, ?_⟩
  · rw [MethodDef.isVirtual, hrenamed.flags]
    exact hvirtual
  · rw [hrenamed.token, horenamed.overrides]
    exact List.mem_map_of_mem hover
  · rw [htrenamed.token, horenamed.owner, htoken]
  · rw [htrenamed.assembly, hc.product_eq]
    exact hname

/-- A method wraps native handles if its counterpart does. -/
theorem wraps_rename {m : MethodDef} (hm : m ∈ pass.program.methods.toList) :
    ((pass'.program.methodCounterpart g m).isConstructor = true ∧
        (pass'.program.methodCounterpart g m).params = [pass'.profile.nativeHandle]) ↔
      m.isConstructor = true ∧ m.params = [pass.profile.nativeHandle] := by
  have hrenamed := hc.method_renamed hm
  have hconstructor : (pass'.program.methodCounterpart g m).isConstructor = m.isConstructor := by
    simp only [MethodDef.isConstructor, MethodDef.isStatic, hrenamed.name, hrenamed.flags]
  have hhandle : pass'.profile.nativeHandle = pass.profile.nativeHandle.rename f := by
    rw [hc.profile]
    rfl
  have hinj := List.map_injective_iff.mpr (Param.rename_injective f.injective)
  rw [hconstructor, hrenamed.params, hhandle, ← List.map_singleton, hinj.eq_iff]

/-- The methods of the type come first, so a wrapping constructor stays the first
    one. -/
theorem wrapping_rename {t : TypeDef} (ht : t ∈ pass.program.types.toList) :
    ∃ more, pass'.wrapping? (pass'.program.counterpart f t) =
      ((pass.wrapping? t).map (pass'.program.methodCounterpart g)).or more := by
  obtain ⟨rest, hrest⟩ := hc.methodsOf_rename ht
  have hwraps : (pass.program.methodsOf t).find? ((fun m => decide (m.isConstructor = true ∧
        m.params = [pass'.profile.nativeHandle])) ∘ pass'.program.methodCounterpart g) =
      pass.wrapping? t := by
    rw [wrapping?]
    apply List.find?_congr
    intro m hm
    exact decide_eq_decide.mpr (hc.wraps_rename (hc.mem_methods_of_methodsOf ht hm))
  rw [wrapping?, ← hrest, List.find?_append, List.find?_map, hwraps]
  exact ⟨_, rfl⟩

/-- No method becomes the wrapping constructor that was not it before. -/
theorem wrapping_of_rename {t : TypeDef} (ht : t ∈ pass.program.types.toList) {m : MethodDef}
    (hm : m ∈ pass.program.methodsOf t)
    (h : pass'.wrapping? (pass'.program.counterpart f t) =
      some (pass'.program.methodCounterpart g m)) : pass.wrapping? t = some m := by
  have hmem := hc.mem_methods_of_methodsOf ht hm
  obtain ⟨more, hmore⟩ := hc.wrapping_rename ht
  rcases hfirst : pass.wrapping? t with _ | n
  · -- the method itself would have been found
    have hwraps : (pass'.program.methodCounterpart g m).isConstructor = true ∧
        (pass'.program.methodCounterpart g m).params = [pass'.profile.nativeHandle] := by
      simpa using List.find?_some h
    have hnone := List.find?_eq_none.mp hfirst m hm
    rw [hc.wraps_rename hmem] at hwraps
    exact absurd (decide_eq_true hwraps) hnone
  · rw [hfirst, Option.map_some, Option.some_or] at hmore
    have hsame := Option.some.inj (hmore.symm.trans h)
    have hn := hc.mem_methods_of_methodsOf ht (wrapping_subset t (Option.mem_toList.mpr hfirst))
    rw [hc.methodCounterpart_injective hn hmem hsame]

/-- **The counterparts of the native members of a type are native members of its
    counterpart, in the same order.** -/
theorem nativeMembers_rename {t : TypeDef} (ht : t ∈ pass.program.types.toList) :
    ((pass.nativeMembers t).map (pass'.program.methodCounterpart g)).Sublist
      (pass'.nativeMembers (pass'.program.counterpart f t)) := by
  have hfirst : ((pass.wrapping? t).toList.map (pass'.program.methodCounterpart g)).Sublist
      (pass'.wrapping? (pass'.program.counterpart f t)).toList := by
    obtain ⟨more, hmore⟩ := hc.wrapping_rename ht
    rw [hmore]
    rcases pass.wrapping? t with _ | m
    · exact List.nil_sublist _
    · exact List.Sublist.refl _
  -- a method may have been overridden outside the platform since, but none has ceased to be
  have hothers : (((pass.program.methodsOf t).filter fun m =>
          some m ≠ pass.wrapping? t ∧ pass.DispatchedInto m).map
        (pass'.program.methodCounterpart g)).Sublist
      ((pass'.program.methodsOf (pass'.program.counterpart f t)).filter fun m =>
        some m ≠ pass'.wrapping? (pass'.program.counterpart f t) ∧ pass'.DispatchedInto m) := by
    refine .trans ?_ ((hc.methodsOf_rename ht).sublist.filter _)
    apply map_filter_sublist
    intro m hm hkeep
    simp only [decide_eq_true_eq] at hkeep ⊢
    refine ⟨?_, hc.dispatchedInto_rename (hc.mem_methods_of_methodsOf ht hm) hkeep.2⟩
    intro hwrapping
    exact hkeep.1 (hc.wrapping_of_rename ht hm hwrapping.symm).symm
  simp only [nativeMembers, hc.role?_rename ht]
  by_cases hproduct : pass.OfProduct t
  · rw [if_pos hproduct, if_pos ((hc.ofProduct_rename ht).mpr hproduct)]
    rcases pass.role? t with _ | _ | _ | _
    · exact List.nil_sublist _
    · exact List.nil_sublist _
    · rw [List.map_append]
      exact hfirst.append hothers
    · exact hfirst
  · rw [if_neg hproduct]
    exact List.nil_sublist _

/-! ### Runs

If the second run is through, so is the first one, and nothing that the first one
retains is missing from the second. -/

section Run

variable {d d' : Draft} {s s' : Progress} (hs : Starts d pass s) (hs' : Starts d' pass' s')
include hs hs'

theorem run_ok_of_rename (h : ∃ tally, (pass'.run s').1 = .ok tally) :
    ∃ tally, (pass.run s).1 = .ok tally := by
  rw [run_ok_iff hc.source hs.sound]
  have hok := (run_ok_iff hc.target hs'.sound).mp h
  intro t ht
  obtain ⟨hrole, hnesting⟩ := hok _ (hc.counterpart_mem ht)
  rw [hc.profile, Profile.roleOf_rename, hc.roleOf_rename pass.profile ht] at hrole
  refine ⟨hrole, ?_⟩
  intro hbridged hconsumer
  exact hc.nestingFits_of_rename ht (hnesting ((hc.bridged_rename ht).mpr hbridged)
    (mt (hc.ofProduct_rename ht).mp hconsumer))

variable {tally tally' : Tally} (hrun : (pass.run s).1 = .ok tally)
  (hrun' : (pass'.run s').1 = .ok tally')
include hrun hrun'

theorem level_run_all {x : Token} (h : (pass.run s).2.retention.level x = .all) :
    (pass'.run s').2.retention.level (f x) = .all := by
  rw [level_run_eq_all hs'.built hs'.empty hs'.sound hrun']
  exact hc.retainedWhole_rename ((level_run_eq_all hs.built hs.empty hs.sound hrun x).mp h)

/-- **No type is at a lower level under its new name.** -/
theorem level_run_le {t : TypeDef} (ht : t ∈ pass.program.types.toList) :
    (pass.run s).2.retention.level t.token ≤ (pass'.run s').2.retention.level (f t.token) := by
  obtain ⟨hmem, hrenamed⟩ := hc.counterpart_spec ht
  rw [Level.le_iff]
  refine ⟨hc.level_run_all hs hs' hrun hrun', ?_⟩
  intro hmembers hnone
  have hnative := ((level_run_eq_members hs.built hs.empty hs.sound hrun ht).mp hmembers).1
  have hnative' : pass'.nativeMembers (pass'.program.counterpart f t) ≠ [] := by
    intro hnil
    have hsub := hc.nativeMembers_rename ht
    rw [hnil, List.sublist_nil, List.map_eq_nil_iff] at hsub
    exact hnative hsub
  rw [← hrenamed.token] at hnone
  have hwhole := level_run_eq_all hs'.built hs'.empty hs'.sound hrun'
    (pass'.program.counterpart f t).token
  have hlevel := level_run_eq_members hs'.built hs'.empty hs'.sound hrun' hmem
  rw [hnone] at hwhole hlevel
  by_cases hretained : pass'.RetainedWhole (pass'.program.counterpart f t).token
  · cases hwhole.mpr hretained
  · cases hlevel.mpr ⟨hnative', hretained⟩

/-- **The methods retained under a type are retained under its new name, in the same
    order.** -/
theorem keptUnder_run_sublist {t : TypeDef} (ht : t ∈ pass.program.types.toList) :
    (((pass.run s).2.retention.keptUnder t.token).map g).Sublist
      ((pass'.run s').2.retention.keptUnder (f t.token)) := by
  obtain ⟨hmem, hrenamed⟩ := hc.counterpart_spec ht
  have htokens : ((pass.nativeMembers t).map fun m => m.token).map g =
      ((pass.nativeMembers t).map (pass'.program.methodCounterpart g)).map fun m => m.token := by
    rw [List.map_map, List.map_map]
    apply List.map_congr_left
    intro m hm
    have hmem := hc.mem_methods_of_methodsOf ht (nativeMembers_subset t hm)
    exact (hc.method_renamed hmem).token.symm
  rw [keptUnder_run hs.built hs.empty hs.sound hrun ht, ← hrenamed.token,
    keptUnder_run hs'.built hs'.empty hs'.sound hrun' hmem, htokens]
  exact (hc.nativeMembers_rename ht).map _

/-- **A retained method is retained under its new name.** -/
theorem isKept_run_rename {k : Token} (h : (pass.run s).2.retention.isKept k = true) :
    (pass'.run s').2.retention.isKept (g k) = true := by
  obtain ⟨m, hm, rfl⟩ := method_of_isKept_run hs.built hs.empty hs.sound hrun h
  obtain ⟨t, ht, howner, hnative⟩ := (isKept_run hs.built hs.empty hs.sound hrun hm).mp h
  obtain ⟨hmem, hrenamed⟩ := hc.counterpart_spec ht
  have hmrenamed := hc.method_renamed hm
  rw [← hmrenamed.token, isKept_run hs'.built hs'.empty hs'.sound hrun' (hc.method_mem hm)]
  refine ⟨_, hmem, ?_, (hc.nativeMembers_rename ht).subset (List.mem_map_of_mem hnative)⟩
  rw [hrenamed.token, hmrenamed.owner, howner]

/-- **No number of the tally goes down.** -/
theorem tally_run_le : tally.AtMost tally' := by
  obtain ⟨-, -, haccounts⟩ := run_ok hc.source hs.sound hrun
  obtain ⟨-, -, haccounts'⟩ := run_ok hc.target hs'.sound hrun'
  have hroles : ∀ role, (pass.program.types.toList.countP fun t => pass.role? t = some role) ≤
      pass'.program.types.toList.countP fun t => pass'.role? t = some role := by
    intro role
    apply hc.countP_types_le
    intro t ht hrole
    rw [hc.role?_rename ht]
    exact hrole
  constructor
  case types =>
    rw [haccounts.types, haccounts'.types, ← List.countP_true]
    exact hc.countP_types_le fun _ _ _ => rfl
  case bridgeObjects =>
    rw [haccounts.bridgeObjects, haccounts'.bridgeObjects]
    exact hroles .bridgeObject
  case handleWrappers =>
    rw [haccounts.handleWrappers, haccounts'.handleWrappers]
    exact hroles .handleWrapper
  case wholeTypes =>
    have hle := Retention.count_le f.injective (by decide) fun _ =>
      hc.level_run_all hs hs' hrun hrun'
    rw [haccounts.wholeTypes, haccounts'.wholeTypes, hs.empty, hs'.empty] at hle
    omega
  case methods =>
    have hle := Retention.keptCount_le g.injective fun _ =>
      hc.isKept_run_rename hs hs' hrun hrun'
    rw [haccounts.methods, haccounts'.methods, hs.empty, hs'.empty] at hle
    omega

end Run

end Carried

end Pass

end TrimGuard
