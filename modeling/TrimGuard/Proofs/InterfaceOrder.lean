/-
  TrimGuard/Proofs/InterfaceOrder.lean
  ====================================
  **The order in which interfaces are listed.**

  What a role says about a type does not mention any order, so two programs that
  differ only in the order of their interface lists give a type the same role, if
  they give it a role at all.  But whether they do is a matter of order: a search that
  comes to the native-object interface is over, and what would have been a path too
  long is never followed; and an interface that was entered along a short path is
  not left again by the long one.  So one program can tell the role of a type where
  the other reports a fault (`roles_detour`).

  This takes a path that is too long.  Where there is none, where the bridge root
  settles the role, and where the chain of base types is at fault itself, the order
  does not matter (`Profile.Precarious`).
-/
import TrimGuard.Proofs.RoleMeaning
import Mathlib.Data.List.Forall2

namespace TrimGuard

/-! ### Reordered interface lists -/

/-- The second type is the first but for the order in which it lists its
    interfaces. -/
structure TypeDef.Reordered (t t' : TypeDef) : Prop where
  same : t' = { t with interfaces := t'.interfaces }
  listed : t.interfaces.Perm t'.interfaces

instance (t t' : TypeDef) : Decidable (t.Reordered t') :=
  decidable_of_iff
    (t' = { t with interfaces := t'.interfaces } ∧ t.interfaces.Perm t'.interfaces)
    ⟨fun h => ⟨h.1, h.2⟩, fun h => ⟨h.same, h.listed⟩⟩

/-- The same types in the same places, but for the order of their interface lists. -/
def TypeTable.Reordered (types types' : TypeTable) : Prop :=
  List.Forall₂ TypeDef.Reordered types.toList types'.toList

namespace TypeDef.Reordered

variable {t t' : TypeDef} (h : t.Reordered t')
include h

theorem symm : t'.Reordered t := by
  refine ⟨?_, h.listed.symm⟩
  rw [h.same]

theorem base_eq : t'.base = t.base := by rw [h.same]

theorem name_eq : t'.name = t.name := by rw [h.same]

theorem mem_interfaces_iff {i : Token} : i ∈ t'.interfaces ↔ i ∈ t.interfaces :=
  h.listed.symm.mem_iff

end TypeDef.Reordered

namespace TypeTable.Reordered

variable {types types' : TypeTable} (h : types.Reordered types')
include h

theorem symm : types'.Reordered types :=
  List.Forall₂.flip (h.imp fun _ _ hd => hd.symm)

theorem find? {x : Token} {d : TypeDef} (hfind : types.find? x = some d) :
    ∃ d', types'.find? x = some d' ∧ d.Reordered d' := by
  have hsize : types.size = types'.size := h.length_eq
  obtain ⟨i, hi, hd⟩ := Option.bind_eq_some_iff.mp hfind
  obtain ⟨hlt, rfl⟩ := Array.getElem?_eq_some_iff.mp hd
  have hlt' : i < types'.size := hsize ▸ hlt
  refine ⟨types'.rows[i], ?_, h.get hlt hlt'⟩
  rw [hsize] at hi
  exact Option.bind_eq_some_iff.mpr ⟨i, hi, Array.getElem?_eq_getElem hlt'⟩

/-! What a type derives from, how far its chain goes and where its interfaces lead
can be told without regard to the order. -/

theorem path {n : Nat} {i j : Token} (hpath : types.InterfacePath n i j) :
    types'.InterfacePath n i j := by
  induction hpath with
  | here i => exact .here i
  | next hfind hj _ ih =>
    obtain ⟨d', hfind', hd⟩ := h.find? hfind
    exact .next hfind' (hd.mem_interfaces_iff.mpr hj) ih

theorem reaches {wanted : QualifiedName} {i : Token} (hreach : types.Reaches wanted i) :
    types'.Reaches wanted i := by
  obtain ⟨n, j, d, hpath, hfind, hname⟩ := hreach
  obtain ⟨d', hfind', hd⟩ := h.find? hfind
  exact ⟨n, j, d', h.path hpath, hfind', hd.name_eq.trans hname⟩

theorem climb {start : Option Token} {above : List TypeDef}
    (hclimb : types.Climb (fun d => d.base) start above) :
    ∃ above', types'.Climb (fun d => d.base) start above' ∧ above'.length = above.length := by
  induction hclimb with
  | top => exact ⟨[], .top, rfl⟩
  | step hfind _ ih =>
    obtain ⟨d', hfind', hd⟩ := h.find? hfind
    obtain ⟨rest', hrest', hlength⟩ := ih
    rw [← hd.base_eq] at hrest'
    exact ⟨d' :: rest', .step hfind' hrest', congrArg Nat.succ hlength⟩

variable {t t' : TypeDef} (ht : t.Reordered t')
include ht

theorem endsWithin {n : Nat} (hends : types.EndsWithin (fun d => d.base) n t) :
    types'.EndsWithin (fun d => d.base) n t' := by
  obtain ⟨above, hclimb, hlength⟩ := hends
  obtain ⟨above', hclimb', hsame⟩ := h.climb hclimb
  have hbase : types'.Climb (fun d => d.base) t'.base above' := by
    rw [ht.base_eq]
    exact hclimb'
  exact ⟨above', hbase, hsame ▸ hlength⟩

theorem derivesFrom {u : TypeDef} (hu : types.DerivesFrom t u) :
    ∃ u', types'.DerivesFrom t' u' ∧ u.Reordered u' := by
  induction hu with
  | refl => exact ⟨t', .refl, ht⟩
  | tail _ hstep ih =>
    obtain ⟨v', hv', hv⟩ := ih
    obtain ⟨r, hr, hfind⟩ := hstep
    obtain ⟨u', hfind', hu⟩ := h.find? hfind
    exact ⟨u', hv'.tail ⟨r, hv.base_eq.trans hr, hfind'⟩, hu⟩

variable {p : Profile}

theorem bridgeRooted (hroot : p.BridgeRooted types t) : p.BridgeRooted types' t' := by
  obtain ⟨u, hu, hname⟩ := hroot
  obtain ⟨u', hu', hsame⟩ := h.derivesFrom ht hu
  exact ⟨u', hu', hsame.name_eq.trans hname⟩

theorem nativeBacked (hnative : p.NativeBacked types t) : p.NativeBacked types' t' := by
  obtain ⟨u, hu, i, hi, hreach⟩ := hnative
  obtain ⟨u', hu', hsame⟩ := h.derivesFrom ht hu
  exact ⟨u', hu', i, hsame.mem_interfaces_iff.mpr hi, h.reaches hreach⟩

theorem overreaching (hlong : p.Overreaching types t) : p.Overreaching types' t' := by
  obtain ⟨u, hu, i, hi, n, j, hpath, hn⟩ := hlong
  obtain ⟨u', hu', hsame⟩ := h.derivesFrom ht hu
  exact ⟨u', hu', i, hsame.mem_interfaces_iff.mpr hi, n, j, h.path hpath, hn⟩

theorem describes {role : Role} (hrole : p.Describes types t role) :
    p.Describes types' t' role := by
  have hroot : ¬ p.BridgeRooted types t → ¬ p.BridgeRooted types' t' :=
    mt (h.symm.bridgeRooted ht.symm)
  rcases role with _ | _ | _
  · exact ⟨hroot hrole.1, mt (h.symm.nativeBacked ht.symm) hrole.2⟩
  · exact h.bridgeRooted ht hrole
  · exact ⟨hroot hrole.1, h.nativeBacked ht hrole.2⟩

end TypeTable.Reordered

/-! ### Roles -/

/-- The role of the type is left to its interfaces, and some path from them is too
    long. -/
structure Profile.Precarious (p : Profile) (types : TypeTable) (t : TypeDef) : Prop where
  chain : types.EndsWithin (fun d => d.base) p.maxHierarchy t
  rootless : ¬ p.BridgeRooted types t
  overreaching : p.Overreaching types t

theorem TypeTable.Reordered.precarious {types types' : TypeTable} (h : types.Reordered types')
    {t t' : TypeDef} (ht : t.Reordered t') {p : Profile} (hp : p.Precarious types t) :
    p.Precarious types' t' :=
  ⟨h.endsWithin ht hp.chain, mt (h.symm.bridgeRooted ht.symm) hp.rootless,
    h.overreaching ht hp.overreaching⟩

/-- A role that is told by one program and not by the other is precarious. -/
theorem Profile.precarious_of_reordered {d d' : Draft} {program program' : Program}
    (hbuild : d.toProgram = .ok program) (hbuild' : d'.toProgram = .ok program')
    (h : program.types.Reordered program'.types) {p : Profile} {t t' : TypeDef}
    (ht : t ∈ program.types.toList) (ht' : t' ∈ program'.types.toList) (hsame : t.Reordered t')
    {role : Role} (hok : p.roleOf program.types t = .ok role) {fault : Fault}
    (herror : p.roleOf program'.types t' = .error fault) : p.Precarious program'.types t' := by
  have hchain : program.types.EndsWithin (fun d => d.base) p.maxHierarchy t :=
    @Pass.baseChainFits_of_roleOf ⟨program, p⟩ (d.sealed_of_toProgram hbuild)
      (d.linked_of_toProgram hbuild) t ht role hok
  have hchain' := h.endsWithin hsame hchain
  obtain ⟨hrootless, hlong⟩ := (d'.sealed_of_toProgram hbuild').overreaching_of_roleOf
    (d'.linked_of_toProgram hbuild') ht' herror hchain'
  exact ⟨hchain', hrootless, hlong⟩

/-! ### A detour

The wrapper below lists the native-object interface and one from which a path of two
edges leads on.  There is room for one edge. -/

def detourDraft (listed : List Token) : Draft :=
  let ios : Assembly := ⟨"Xamarin.iOS", .unknown, none⟩
  let app : Assembly := ⟨"App", .unknown, none⟩
  { types := #[
      { assembly := ios, name := ⟨"ObjCRuntime", "INativeObject"⟩ },
      { assembly := app, name := ⟨"App", "IInner"⟩ },
      { assembly := app, name := ⟨"App", "IMiddle"⟩, interfaces := [.ofTypeIndex 1] },
      { assembly := app, name := ⟨"App", "IOuter"⟩, interfaces := [.ofTypeIndex 2] },
      { assembly := app, name := ⟨"App", "Wrapper"⟩, interfaces := listed }]
    types_fit := (by decide : 5 ≤ Token.lastRow)
    methods_fit := Nat.zero_le _ }

/-- The native-object interface comes first. -/
def straight : Program :=
  (detourDraft [.ofTypeIndex 0, .ofTypeIndex 3]).toProgram.toOption.get (by decide +kernel)

/-- The native-object interface comes last. -/
def detour : Program :=
  (detourDraft [.ofTypeIndex 3, .ofTypeIndex 0]).toProgram.toOption.get (by decide +kernel)

theorem toProgram_straight :
    (detourDraft [.ofTypeIndex 0, .ofTypeIndex 3]).toProgram = .ok straight :=
  Draft.toProgram_of_isSome (by decide +kernel)

theorem toProgram_detour :
    (detourDraft [.ofTypeIndex 3, .ofTypeIndex 0]).toProgram = .ok detour :=
  Draft.toProgram_of_isSome (by decide +kernel)

theorem reordered_detour : straight.types.Reordered detour.types := by
  unfold TypeTable.Reordered
  decide +kernel

theorem roles_detour :
    ∃ t t', straight.type? (.ofTypeIndex 4) = some t ∧ detour.type? (.ofTypeIndex 4) = some t' ∧
      (Profile.iOS.withDepth 1).roleOf straight.types t = .ok .handleWrapper ∧
      (Profile.iOS.withDepth 1).roleOf detour.types t' = .error (.depthExceeded 1) :=
  ⟨(straight.type? (.ofTypeIndex 4)).get (by decide +kernel),
    (detour.type? (.ofTypeIndex 4)).get (by decide +kernel), by decide +kernel⟩

/-! ### The outcome -/

/-- **The order of interface lists does not change a role, but it may keep one from
    being told.**  Two programs that differ in it alone agree about a type whenever
    both tell its role.  If they do not agree, one of them tells it and the other has
    reached its limit, the role is left to the interfaces of the type and its base
    types, and from one of these a path is too long. -/
theorem Profile.roleOf_reordered {d d' : Draft} {program program' : Program}
    (hbuild : d.toProgram = .ok program) (hbuild' : d'.toProgram = .ok program')
    (h : program.types.Reordered program'.types) (p : Profile) {x : Token} {t t' : TypeDef}
    (ht : program.type? x = some t) (ht' : program'.type? x = some t') :
    (∀ role role', p.roleOf program.types t = .ok role →
        p.roleOf program'.types t' = .ok role' → role = role') ∧
      (p.roleOf program.types t ≠ p.roleOf program'.types t' →
        p.Precarious program.types t ∧ ∃ role,
          p.roleOf program.types t = .ok role ∧
              p.roleOf program'.types t' = .error (.depthExceeded p.maxHierarchy) ∨
            p.roleOf program.types t = .error (.depthExceeded p.maxHierarchy) ∧
              p.roleOf program'.types t' = .ok role) := by
  have hmem := TypeTable.mem_toList_of_find? ht
  have hmem' := TypeTable.mem_toList_of_find? ht'
  have hsame : t.Reordered t' := by
    obtain ⟨u, hu, hsame⟩ := h.find? ht
    cases ht'.symm.trans hu
    exact hsame
  have hagree : ∀ role role', p.roleOf program.types t = .ok role →
      p.roleOf program'.types t' = .ok role' → role = role' := by
    intro role role' hrole hrole'
    have hfirst := (d.sealed_of_toProgram hbuild).describes_of_roleOf
      (d.linked_of_toProgram hbuild) hmem hrole
    have hsecond := (d'.sealed_of_toProgram hbuild').describes_of_roleOf
      (d'.linked_of_toProgram hbuild') hmem' hrole'
    exact (h.describes hsame hfirst).unique hsecond
  refine ⟨hagree, ?_⟩
  intro hne
  rcases hrole : p.roleOf program.types t with fault | role <;>
    rcases hrole' : p.roleOf program'.types t' with fault' | role'
  · rw [hrole, hrole', roleOf_error hrole, roleOf_error hrole'] at hne
    exact absurd rfl hne
  · cases roleOf_error hrole
    have hprec := precarious_of_reordered hbuild' hbuild h.symm hmem' hmem hsame.symm hrole' hrole
    exact ⟨hprec, role', .inr ⟨rfl, rfl⟩⟩
  · cases roleOf_error hrole'
    have hprec := precarious_of_reordered hbuild hbuild' h hmem hmem' hsame hrole hrole'
    exact ⟨h.symm.precarious hsame.symm hprec, role, .inl ⟨rfl, rfl⟩⟩
  · rw [hrole, hrole', hagree role role' hrole hrole'] at hne
    exact absurd rfl hne

theorem Profile.roleOf_reordered_detour :
    ∃ t, straight.type? (.ofTypeIndex 4) = some t ∧
      (Profile.iOS.withDepth 1).Precarious straight.types t := by
  obtain ⟨t, t', ht, ht', hrole, hfault⟩ := roles_detour
  have hne : (Profile.iOS.withDepth 1).roleOf straight.types t ≠
      (Profile.iOS.withDepth 1).roleOf detour.types t' := by
    simp [hrole, hfault]
  have h := roleOf_reordered toProgram_straight toProgram_detour reordered_detour
    (Profile.iOS.withDepth 1) ht ht'
  exact ⟨t, ht, (h.2 hne).1⟩

/-- A wrapper that lists the native-object interface itself is given its role or
    refused it, depending on the order alone. -/
theorem Profile.role_depends_on_order :
    (detourDraft [.ofTypeIndex 0, .ofTypeIndex 3]).toProgram = .ok straight ∧
      (detourDraft [.ofTypeIndex 3, .ofTypeIndex 0]).toProgram = .ok detour ∧
      straight.types.Reordered detour.types ∧ straight.methods = detour.methods ∧
      ∃ t t', straight.type? (.ofTypeIndex 4) = some t ∧
        detour.type? (.ofTypeIndex 4) = some t' ∧
        (Profile.iOS.withDepth 1).roleOf straight.types t = .ok .handleWrapper ∧
        (Profile.iOS.withDepth 1).roleOf detour.types t' = .error (.depthExceeded 1) :=
  ⟨toProgram_straight, toProgram_detour, reordered_detour, by decide +kernel, roles_detour⟩

end TrimGuard
