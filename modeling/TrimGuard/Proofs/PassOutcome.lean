/-
  TrimGuard/Proofs/PassOutcome.lean
  =================================
  **What a run retains.**

  A run that starts from an empty store and succeeds leaves a store that can be
  described without the run:

    * the types retained as a whole are the bridged types of consumer code and all
      types around them, whatever those are (`level_run_eq_all`);
    * the methods retained under a type are its native members (`keptUnder_run`),
      and the type is at `members` if it has any and is not retained as a whole
      (`level_run_eq_members`).

  Both read the description off the writes that the run carries out.  A write
  raises a type as a whole exactly if it is issued for a bridged consumer type
  that the raised type encloses, and retains a method exactly under the type that
  declares it.  So no list of methods is written to on behalf of another type,
  and what one type is retained for never hides what another is.
-/
import TrimGuard.Proofs.FirstOccurrences
import TrimGuard.Proofs.PassRun

namespace TrimGuard

namespace Pass

/-! ### What ought to be retained -/

/-- The native runtime knows the type. -/
def Bridged (pass : Pass) (t : TypeDef) : Prop :=
  ∃ role, pass.profile.roleOf pass.program.types t = .ok role ∧ role ≠ .plain

/-- The type is product code. -/
def OfProduct (pass : Pass) (t : TypeDef) : Prop :=
  t.assembly.name = pass.profile.product ∨ t.assembly.name = pass.profile.compat

instance (pass : Pass) (t : TypeDef) : Decidable (pass.OfProduct t) :=
  inferInstanceAs (Decidable (_ ∨ _))

/-- The first instance constructor that the type declares with a native handle as
    its only parameter. -/
def wrapping? (pass : Pass) (t : TypeDef) : Option MethodDef :=
  (pass.program.methodsOf t).find? fun m =>
    m.isConstructor = true ∧ m.params = [pass.profile.nativeHandle]

/-- The type is retained as a whole, as a bridged consumer type or for enclosing
    one. -/
def RetainedWhole (pass : Pass) (x : Token) : Prop :=
  ∃ u ∈ pass.program.types.toList, (pass.Bridged u ∧ ¬ pass.OfProduct u) ∧
    pass.program.types.Encloses u.token x

/-- The methods of a type that the native side uses, each once: of a bridged
    product type the wrapping constructor and, for a bridge object, the other
    methods that are dispatched into. -/
def nativeMembers (pass : Pass) (t : TypeDef) : List MethodDef :=
  if pass.OfProduct t then
    match pass.role? t with
    | some .bridgeObject =>
      (pass.wrapping? t).toList ++
        (pass.program.methodsOf t).filter fun m =>
          some m ≠ pass.wrapping? t ∧ pass.DispatchedInto m
    | some .handleWrapper => (pass.wrapping? t).toList
    | some .plain | none => []
  else []

/-! ### The native members in the plan

The plan lists the wrapping constructor a second time if it is dispatched into
like any other method.  Without repetitions, the list is that of the native
members. -/

theorem isProduct_iff_ofProduct (pass : Pass) (t : TypeDef) :
    (pass.profile.provenance t.assembly).isProduct = true ↔ pass.OfProduct t :=
  provenance_isProduct_iff pass.profile t.assembly

theorem handleConstructor?_eq (pass : Pass) (t : TypeDef) :
    pass.handleConstructor? t = pass.wrapping? t := by
  unfold handleConstructor? Program.constructorsOf wrapping?
  rw [List.find?_filter]
  congr 1
  funext m
  simp [MethodDef.takesOnly, beq_eq_decide]

variable {pass : Pass}

theorem bridged_iff {t : TypeDef} {role : Role}
    (hrole : pass.profile.roleOf pass.program.types t = .ok role) :
    pass.Bridged t ↔ role.isBridged = true := by
  unfold Bridged Role.isBridged
  rw [hrole]
  simp

theorem nestingChain_of_settled {t : TypeDef} {plan : Plan} (hplan : pass.settled t = .ok plan)
    (hconsumer : pass.Bridged t ∧ ¬ pass.OfProduct t) :
    ∃ around, pass.program.types.NestingChain t around := by
  obtain ⟨hrole, hcases⟩ := settled_cases hplan
  rw [bridged_iff hrole, ← isProduct_iff_ofProduct] at hconsumer
  rcases hcases with ⟨hplain, -⟩ | ⟨-, hproduct, -⟩ | ⟨-, -, around, hchain, -⟩
  · rw [hplain] at hconsumer
    cases hconsumer.1
  · exact absurd hproduct hconsumer.2
  · exact ⟨around, hchain⟩

theorem wrapping_subset (t : TypeDef) :
    (pass.wrapping? t).toList ⊆ pass.program.methodsOf t :=
  fun _ hm => List.mem_of_find?_eq_some (Option.mem_toList.mp hm)

theorem nativeMembers_subset (t : TypeDef) :
    pass.nativeMembers t ⊆ pass.program.methodsOf t := by
  intro m hm
  unfold nativeMembers at hm
  split at hm
  · split at hm
    · rcases List.mem_append.mp hm with hm | hm
      · exact wrapping_subset t hm
      · exact List.mem_of_mem_filter hm
    · exact wrapping_subset t hm
    · cases hm
    · cases hm
  · cases hm

theorem settledSurface_subset (role : Role) (t : TypeDef) :
    pass.settledSurface role t ⊆ pass.program.methodsOf t := by
  intro m hm
  rcases List.mem_append.mp hm with hm | hm
  · rw [handleConstructor?_eq] at hm
    exact wrapping_subset t hm
  · by_cases hrole : role = .bridgeObject
    · rw [if_pos hrole] at hm
      exact List.mem_of_mem_filter hm
    · rw [if_neg hrole] at hm
      cases hm

section Sealed

variable (hp : pass.program.Sealed)
include hp

theorem nodup_filter_methodsOf {t : TypeDef} (ht : t ∈ pass.program.types.toList)
    (keep : MethodDef → Bool) :
    (((pass.program.methodsOf t).filter keep).map fun m => m.token).Nodup :=
  (hp.nodup_methodsOf ht).sublist (List.filter_sublist.map _)

theorem eraseDups_settledSurface {t : TypeDef} (ht : t ∈ pass.program.types.toList) {role : Role}
    (hrole : pass.role? t = some role) (hbridged : role.isBridged = true)
    (hproduct : pass.OfProduct t) :
    ((pass.settledSurface role t).map fun m => m.token).eraseDups =
      (pass.nativeMembers t).map fun m => m.token := by
  unfold settledSurface nativeMembers
  rw [if_pos hproduct, hrole, handleConstructor?_eq]
  cases role with
  | plain => cases hbridged
  | handleWrapper =>
    rw [if_neg (by decide), List.append_nil]
    apply eraseDups_of_nodup
    cases pass.wrapping? t <;> simp
  | bridgeObject =>
    simp only [if_true]
    cases hfirst : pass.wrapping? t with
    | none =>
      simp only [Option.toList_none, List.nil_append, ne_eq, reduceCtorEq, not_false_eq_true,
        true_and]
      exact eraseDups_of_nodup (nodup_filter_methodsOf hp ht _)
    | some first =>
      -- the later occurrence of the constructor goes, the others stay
      have hfirst : first ∈ pass.program.methodsOf t :=
        wrapping_subset t (Option.mem_toList.mpr hfirst)
      have hothers : ((pass.program.methodsOf t).filter fun m => pass.DispatchedInto m).filter
            (fun m => !m.token == first.token) =
          (pass.program.methodsOf t).filter fun m =>
            some m ≠ some first ∧ pass.DispatchedInto m := by
        rw [List.filter_filter]
        apply List.filter_congr
        intro m hm
        have hm := ((hp.mem_methodsOf_iff ht m).mp hm).1
        have hfirst := ((hp.mem_methodsOf_iff ht first).mp hfirst).1
        have htoken : m.token = first.token ↔ m = first :=
          ⟨hp.method_ext hm hfirst, fun heq => by rw [heq]⟩
        simp [htoken, beq_eq_decide]
      simp only [Option.toList_some, List.singleton_append, List.map_cons, List.eraseDups_cons,
        List.filter_map, Function.comp_def]
      rw [hothers, eraseDups_of_nodup (nodup_filter_methodsOf hp ht _)]

/-! ### The writes of one type -/

/-- **The writes for a type raise it and the types around it, as a whole, if it is
    a bridged consumer type, and raise nothing otherwise.** -/
theorem raise_mem_writes_iff {t : TypeDef} (ht : t ∈ pass.program.types.toList) {plan : Plan}
    (hplan : pass.settled t = .ok plan) (x : Token) (level : Level) :
    Retention.Write.raise x level ∈ pass.writes t ↔
      level = .all ∧ (pass.Bridged t ∧ ¬ pass.OfProduct t) ∧
        pass.program.types.Encloses t.token x := by
  obtain ⟨hrole, hcases⟩ := settled_cases hplan
  rw [bridged_iff hrole, ← isProduct_iff_ofProduct, writes, hplan]
  rcases hcases with ⟨hplain, horders⟩ | ⟨hbridged, hproduct, horders⟩ |
    ⟨hbridged, hconsumer, around, hchain, horders⟩
  · simp [horders, hplain]
  · simp [horders, hproduct, Order.write]
  · rw [← hp.mem_nestingChain_iff ht hchain]
    simp only [horders, List.map_map, List.mem_map, Function.comp_apply, Order.write, hbridged,
      hconsumer, Bool.false_eq_true, not_false_eq_true, and_self, true_and]
    constructor
    · rintro ⟨d, hd, heq⟩
      cases heq
      exact ⟨rfl, d, hd, rfl⟩
    · rintro ⟨rfl, d, hd, rfl⟩
      exact ⟨d, hd, rfl⟩

/-- The writes for a type retain methods that it declares. -/
theorem keep_mem_writes {t : TypeDef} (ht : t ∈ pass.program.types.toList) {owner method : Token}
    (h : Retention.Write.keep owner method ∈ pass.writes t) :
    owner = t.token ∧ ∃ m ∈ pass.program.methods.toList, m.owner = owner ∧ m.token = method := by
  unfold writes at h
  cases hplan : pass.settled t with
  | error fault => rw [hplan] at h; cases h
  | ok plan =>
    rw [hplan] at h
    rcases (settled_cases hplan).2 with ⟨-, horders⟩ | ⟨-, -, horders⟩ | ⟨-, -, _, -, horders⟩
    · simp [horders] at h
    · simp only [horders, List.map_map, List.mem_map, Function.comp_apply, Order.write] at h
      obtain ⟨m, hm, heq⟩ := h
      cases heq
      obtain ⟨hmem, howner⟩ := (hp.mem_methodsOf_iff ht m).mp (settledSurface_subset _ _ hm)
      exact ⟨rfl, m, hmem, howner, rfl⟩
    · simp [horders, Order.write] at h

/-- **The writes for a type retain its native members and nothing else.** -/
theorem eraseDups_kept_writes {t : TypeDef} (ht : t ∈ pass.program.types.toList) {plan : Plan}
    (hplan : pass.settled t = .ok plan) :
    ((pass.writes t).filterMap (Retention.Write.keptFor t.token)).eraseDups =
      (pass.nativeMembers t).map fun m => m.token := by
  obtain ⟨hrole, hcases⟩ := settled_cases hplan
  have hrole? := (role?_eq_some_iff pass t plan.role).mpr hrole
  rw [writes, hplan]
  rcases hcases with ⟨hplain, horders⟩ | ⟨hbridged, hproduct, horders⟩ |
    ⟨-, hconsumer, around, -, horders⟩
  · -- a plain type has no native members
    have hnone : plan.role = .plain := by simpa [Role.isBridged] using hplain
    simp [horders, nativeMembers, hrole?, hnone]
  · have hsurface := eraseDups_settledSurface hp ht hrole? hbridged
      ((isProduct_iff_ofProduct pass t).mp hproduct)
    simp only [horders, List.map_map, List.filterMap_map]
    rw [← hsurface]
    congr 1
    rw [← List.filterMap_eq_map]
    apply List.filterMap_congr
    intro m _
    simp [Retention.Write.keptFor, Order.write]
  · -- a consumer type has none either
    have hnot : ¬ pass.OfProduct t := by
      rw [← isProduct_iff_ofProduct, hconsumer]
      exact Bool.false_ne_true
    have hkept : ∀ d : TypeDef, Retention.Write.keptFor t.token (Order.whole d).write = none :=
      fun d => rfl
    simp [horders, nativeMembers, hnot, hkept]

/-! ### The writes of all types

A method has one owner, and the writes for a type retain what it declares.  So the
list of a type is written to by its own writes alone, and the writes of the whole
pass tell the history of each list apart. -/

omit hp in
theorem flatMap_eq_of_alone {α β : Type} {f : α → List β} {as : List α} {a : α} (has : as.Nodup)
    (ha : a ∈ as) (hothers : ∀ b ∈ as, b ≠ a → f b = []) : as.flatMap f = f a := by
  induction as with
  | nil => cases ha
  | cons b as ih =>
    obtain ⟨hnotin, hnodup⟩ := List.nodup_cons.mp has
    have hrest : ∀ c ∈ as, c ≠ a → f c = [] := fun c hc => hothers c (List.mem_cons_of_mem b hc)
    rw [List.flatMap_cons]
    by_cases hb : b = a
    · have hnil : as.flatMap f = [] := by
        apply List.flatMap_eq_nil_iff.mpr
        intro c hc
        apply hrest c hc
        rintro rfl
        exact hnotin (hb ▸ hc)
      rw [hnil, hb, List.append_nil]
    · have ha := (List.mem_cons.mp ha).resolve_left (Ne.symm hb)
      rw [hothers b List.mem_cons_self hb, ih hnodup ha hrest, List.nil_append]

omit hp in
theorem mem_allWrites_iff (w : Retention.Write) :
    w ∈ pass.program.types.toList.flatMap pass.writes ↔
      ∃ t ∈ pass.program.types.toList, w ∈ pass.writes t :=
  List.mem_flatMap

theorem singleOwner_allWrites :
    Retention.SingleOwner (pass.program.types.toList.flatMap pass.writes) := by
  intro owner owner' method h h'
  obtain ⟨t, ht, hkeep⟩ := (mem_allWrites_iff _).mp h
  obtain ⟨t', ht', hkeep'⟩ := (mem_allWrites_iff _).mp h'
  obtain ⟨-, m, hm, howner, htoken⟩ := keep_mem_writes hp ht hkeep
  obtain ⟨-, m', hm', howner', htoken'⟩ := keep_mem_writes hp ht' hkeep'
  rw [← howner, ← howner', hp.method_ext hm hm' (htoken.trans htoken'.symm)]

theorem kept_allWrites {t : TypeDef} (ht : t ∈ pass.program.types.toList) :
    (pass.program.types.toList.flatMap pass.writes).filterMap (Retention.Write.keptFor t.token) =
      (pass.writes t).filterMap (Retention.Write.keptFor t.token) := by
  rw [List.filterMap_flatMap]
  apply flatMap_eq_of_alone hp.nodup_types ht
  intro u hu hne
  apply List.eq_nil_iff_forall_not_mem.mpr
  intro m hm
  have hkeep := (Retention.mem_filterMap_keptFor_iff _ _ _).mp hm
  exact hne (hp.type_ext hu ht (keep_mem_writes hp hu hkeep).1.symm)

end Sealed

/-! ### The store after a run -/

section Run

variable {d : Draft} (hbuild : d.toProgram = .ok pass.program) {s : Progress}
  (hempty : s.retention = .empty) (hmemo : s.memo.Sound pass.profile) {tally : Tally}
  (hrun : (pass.run s).1 = .ok tally)
include hbuild hempty hmemo hrun

theorem level_run_eq_all (x : Token) :
    (pass.run s).2.retention.level x = .all ↔ pass.RetainedWhole x := by
  have hp := d.sealed_of_toProgram hbuild
  obtain ⟨hplans, hretention, -⟩ := run_ok hp hmemo hrun
  rw [hretention, Retention.level_writeAll_eq_all, hempty, Retention.level_empty,
    mem_allWrites_iff]
  constructor
  · rintro (hnone | ⟨u, hu, hraise⟩)
    · cases hnone
    · obtain ⟨plan, hplan⟩ := hplans u hu
      exact ⟨u, hu, ((raise_mem_writes_iff hp hu hplan x .all).mp hraise).2⟩
  · rintro ⟨u, hu, hwhole⟩
    obtain ⟨plan, hplan⟩ := hplans u hu
    exact Or.inr ⟨u, hu, (raise_mem_writes_iff hp hu hplan x .all).mpr ⟨rfl, hwhole⟩⟩

theorem keptUnder_run {t : TypeDef} (ht : t ∈ pass.program.types.toList) :
    (pass.run s).2.retention.keptUnder t.token = (pass.nativeMembers t).map fun m => m.token := by
  have hp := d.sealed_of_toProgram hbuild
  obtain ⟨hplans, hretention, -⟩ := run_ok hp hmemo hrun
  obtain ⟨plan, hplan⟩ := hplans t ht
  rw [hretention, hempty, Retention.keptUnder_writeAll _ (singleOwner_allWrites hp),
    kept_allWrites hp ht, ← eraseDups_kept_writes hp ht hplan]
  simp

theorem level_run_eq_members {t : TypeDef} (ht : t ∈ pass.program.types.toList) :
    (pass.run s).2.retention.level t.token = .members ↔
      pass.nativeMembers t ≠ [] ∧ ¬ pass.RetainedWhole t.token := by
  have hp := d.sealed_of_toProgram hbuild
  have hwhole := level_run_eq_all hbuild hempty hmemo hrun t.token
  have hlist := keptUnder_run hbuild hempty hmemo hrun ht
  obtain ⟨hplans, hretention, -⟩ := run_ok hp hmemo hrun
  have hraises : ∀ x level,
      Retention.Write.raise x level ∈ pass.program.types.toList.flatMap pass.writes →
        level = .all := by
    intro x level hraise
    obtain ⟨u, hu, hraise⟩ := (mem_allWrites_iff _).mp hraise
    obtain ⟨plan, hplan⟩ := hplans u hu
    exact ((raise_mem_writes_iff hp hu hplan x level).mp hraise).1
  have hsome : pass.nativeMembers t ≠ [] ↔ (pass.run s).2.retention.keptUnder t.token ≠ [] := by
    rw [hlist]
    exact List.map_eq_nil_iff.not.symm
  rw [← hwhole, hsome, hretention, hempty]
  exact Retention.level_writeAll_empty_eq_members_iff hraises t.token

theorem isKept_run {m : MethodDef} (hm : m ∈ pass.program.methods.toList) :
    (pass.run s).2.retention.isKept m.token = true ↔
      ∃ t ∈ pass.program.types.toList, t.token = m.owner ∧ m ∈ pass.nativeMembers t := by
  have hp := d.sealed_of_toProgram hbuild
  obtain ⟨hplans, hretention, -⟩ := run_ok hp hmemo hrun
  have hlist : ∀ t ∈ pass.program.types.toList,
      Retention.Write.keep t.token m.token ∈ pass.writes t ↔ m ∈ pass.nativeMembers t := by
    intro t ht
    obtain ⟨plan, hplan⟩ := hplans t ht
    rw [← Retention.mem_filterMap_keptFor_iff, ← List.mem_eraseDups,
      eraseDups_kept_writes hp ht hplan, List.mem_map]
    constructor
    · rintro ⟨n, hn, htoken⟩
      have hmem := ((hp.mem_methodsOf_iff ht n).mp (nativeMembers_subset t hn)).1
      exact hp.method_ext hmem hm htoken ▸ hn
    · intro hn
      exact ⟨m, hn, rfl⟩
  rw [hretention, hempty, Retention.isKept_writeAll, Retention.isKept_empty]
  constructor
  · rintro (hnone | ⟨owner, hkeep⟩)
    · cases hnone
    · obtain ⟨t, ht, hkeep⟩ := (mem_allWrites_iff _).mp hkeep
      obtain ⟨rfl, n, hn, howner, htoken⟩ := keep_mem_writes hp ht hkeep
      rw [hp.method_ext hn hm htoken] at howner
      exact ⟨t, ht, howner.symm, (hlist t ht).mp hkeep⟩
  · rintro ⟨t, ht, -, hmem⟩
    exact Or.inr ⟨t.token, (mem_allWrites_iff _).mpr ⟨t, ht, (hlist t ht).mpr hmem⟩⟩

theorem method_of_isKept_run {k : Token} (h : (pass.run s).2.retention.isKept k = true) :
    ∃ m ∈ pass.program.methods.toList, m.token = k := by
  have hp := d.sealed_of_toProgram hbuild
  rw [(run_ok hp hmemo hrun).2.1, hempty, Retention.isKept_writeAll, Retention.isKept_empty] at h
  rcases h with hnone | ⟨owner, hkeep⟩
  · cases hnone
  · obtain ⟨t, ht, hkeep⟩ := (mem_allWrites_iff _).mp hkeep
    obtain ⟨-, m, hm, -, htoken⟩ := keep_mem_writes hp ht hkeep
    exact ⟨m, hm, htoken⟩

end Run

/-! ### A small program

A view of the platform with a wrapping constructor and an exported method, and a
consumer type that is nested in a plain platform type and overrides the method. -/

def sampleDraft : Draft :=
  let ios : Assembly := ⟨"Xamarin.iOS", .unknown, none⟩
  let app : Assembly := ⟨"App", .unknown, none⟩
  { types := #[
      { assembly := ios, name := exportAttribute },
      { assembly := ios, name := ⟨"Foundation", "NSObject"⟩ },
      { assembly := ios, name := ⟨"UIKit", "UIView"⟩, base := some (.ofTypeIndex 1) },
      { assembly := ios, name := ⟨"UIKit", "Host"⟩ },
      { assembly := app, name := ⟨"", "Canvas"⟩, enclosing := some (.ofTypeIndex 3),
        base := some (.ofTypeIndex 2) }]
    methods := #[
      { owner := .ofTypeIndex 2, name := MethodEntry.constructorName, flags := .constructor,
        params := [.nativeInt] },
      { owner := .ofTypeIndex 2, name := "Draw", flags := .virtual,
        attributes := [.ofTypeIndex 0] },
      { owner := .ofTypeIndex 4, name := "Draw", flags := .virtual,
        overrides := [.ofMethodIndex 1] }]
    owners_known := by decide +kernel }

def sample : Pass where
  program := sampleDraft.toProgram.toOption.getD { types := ⟨#[]⟩, methods := #[] }
  profile := .iOS

theorem toProgram_sampleDraft : sampleDraft.toProgram = .ok sample.program := by
  have hok : sampleDraft.toProgram.isOk = true := by decide +kernel
  unfold sample
  cases hbuild : sampleDraft.toProgram with
  | error fault => rw [hbuild] at hok; cases hok
  | ok p => rfl

theorem run_sample : (sample.run {}).1 = .ok ⟨5, 3, 0, 2, 2⟩ := by decide +kernel

/-! ### The outcome -/

/-- **A run that succeeds retains as a whole the bridged types of consumer code and
    the types around them, and no others.**  For a type that is retained for the
    sake of a type nested in it, neither its role nor its provenance matters. -/
theorem wholeTypes_of_run
    {d : Draft} (hbuild : d.toProgram = .ok pass.program) {s : Progress}
    (hempty : s.retention = .empty) (hmemo : s.memo.Sound pass.profile) {tally : Tally}
    (hrun : (pass.run s).1 = .ok tally) (x : Token) :
    ((pass.run s).2.retention.level x = .all ↔ pass.RetainedWhole x) ∧
      ((pass.run s).2.retention.level x = .all →
        ∃ t ∈ pass.program.types.toList, t.token = x) := by
  have hp := d.sealed_of_toProgram hbuild
  have hwhole := level_run_eq_all hbuild hempty hmemo hrun x
  refine ⟨hwhole, ?_⟩
  intro hall
  obtain ⟨u, hu, hconsumer, hencloses⟩ := hwhole.mp hall
  obtain ⟨plan, hplan⟩ := (run_ok hp hmemo hrun).1 u hu
  obtain ⟨around, hchain⟩ := nestingChain_of_settled hplan hconsumer
  obtain ⟨t, ht, htoken⟩ := (hp.mem_nestingChain_iff hu hchain x).mpr hencloses
  rcases List.mem_cons.mp ht with rfl | ht
  · exact ⟨t, hu, htoken⟩
  · exact ⟨t, hchain.mem_toList ht, htoken⟩

theorem wholeTypes_of_run_host :
    sampleDraft.toProgram = .ok sample.program ∧ (sample.run {}).1 = .ok ⟨5, 3, 0, 2, 2⟩ ∧
      (sample.run {}).2.retention.level (.ofTypeIndex 3) = .all ∧
      sample.RetainedWhole (.ofTypeIndex 3) := by
  have hlevel : (sample.run {}).2.retention.level (.ofTypeIndex 3) = .all := by decide +kernel
  have hwhole := wholeTypes_of_run toProgram_sampleDraft rfl (Provenance.Memo.sound_empty _)
    run_sample (.ofTypeIndex 3)
  exact ⟨toProgram_sampleDraft, run_sample, hlevel, hwhole.1.mp hlevel⟩

/-- **A run that succeeds retains of every type its native members, in order, and
    no method besides.**  The type is at `members` if there are any, unless it is
    retained as a whole. -/
theorem members_of_run
    {d : Draft} (hbuild : d.toProgram = .ok pass.program) {s : Progress}
    (hempty : s.retention = .empty) (hmemo : s.memo.Sound pass.profile) {tally : Tally}
    (hrun : (pass.run s).1 = .ok tally) :
    (∀ t ∈ pass.program.types.toList,
      (pass.run s).2.retention.keptUnder t.token =
          (pass.nativeMembers t).map (fun m => m.token) ∧
        ((pass.run s).2.retention.level t.token = .members ↔
          pass.nativeMembers t ≠ [] ∧ ¬ pass.RetainedWhole t.token)) ∧
      ∀ m ∈ pass.program.methods.toList,
        (pass.run s).2.retention.isKept m.token = true ↔
          ∃ t ∈ pass.program.types.toList, t.token = m.owner ∧ m ∈ pass.nativeMembers t := by
  refine ⟨?_, ?_⟩
  · intro t ht
    exact ⟨keptUnder_run hbuild hempty hmemo hrun ht,
      level_run_eq_members hbuild hempty hmemo hrun ht⟩
  · intro m hm
    exact isKept_run hbuild hempty hmemo hrun hm

theorem members_of_run_view :
    sampleDraft.toProgram = .ok sample.program ∧ (sample.run {}).1 = .ok ⟨5, 3, 0, 2, 2⟩ ∧
      (sample.run {}).2.retention.keptUnder (.ofTypeIndex 2) =
        [.ofMethodIndex 0, .ofMethodIndex 1] ∧
      ∀ t ∈ sample.program.types.toList, (sample.run {}).2.retention.keptUnder t.token =
        (sample.nativeMembers t).map fun m => m.token := by
  have hlist : (sample.run {}).2.retention.keptUnder (.ofTypeIndex 2) =
      [.ofMethodIndex 0, .ofMethodIndex 1] := by decide +kernel
  have hmembers := members_of_run toProgram_sampleDraft rfl (Provenance.Memo.sound_empty _)
    run_sample
  exact ⟨toProgram_sampleDraft, run_sample, hlist, fun t ht => (hmembers.1 t ht).1⟩

end Pass

end TrimGuard
