/-
  TrimGuard/Proofs/RenamedProgram.lean
  ====================================
  **The order of loading does not matter.**

  Tokens are handed out in the order of registration, so the same code has other
  tokens when its assemblies are loaded in another order (`Program.Renaming`).  With
  the tokens change the order in which types are processed and the order in which the
  overriders of a method are looked at.  Nothing that is retained depends on either,
  nor on the versions of the assemblies.

  The proof goes both ways between two programs that are carried into one another.
  New names are given to the types and methods of a program only, but tables of equal
  size have the same tokens, so the new names can be completed to a permutation of all
  tokens (`exists_perm_of_bijOn`).  The inverse permutation leads back.  What one run
  retains the other retains as well, and conversely, so the two agree.
-/
import TrimGuard.Proofs.CarriedRun
import Mathlib.Algebra.Group.End
import Mathlib.Logic.Equiv.Set

namespace TrimGuard

/-! ### New names for the rows of a program -/

/-- New names for the tokens of a list.  Other tokens keep their names. -/
def Token.renameIn (names : List Token) (new : Token → Token) (t : Token) : Token :=
  if t ∈ names then new t else t

theorem Token.renameIn_of_mem {names : List Token} {t : Token} (h : t ∈ names)
    (new : Token → Token) : Token.renameIn names new t = new t := if_pos h

namespace Program

def typeNames (p : Program) : List Token := p.types.toList.map fun t => t.token

def methodNames (p : Program) : List Token := p.methods.toList.map fun m => m.token

theorem mem_typeNames {p : Program} {t : TypeDef} (ht : t ∈ p.types.toList) :
    t.token ∈ p.typeNames := List.mem_map_of_mem ht

theorem mem_methodNames {p : Program} {m : MethodDef} (hm : m ∈ p.methods.toList) :
    m.token ∈ p.methodNames := List.mem_map_of_mem hm

theorem mem_typeNames_iff {p : Program} (hp : p.Sealed) (r : Token) :
    r ∈ p.typeNames ↔ ∃ t, p.types.find? r = some t := by
  simp only [typeNames, List.mem_map, hp.find?_eq_some_iff]

theorem mem_methodNames_iff {p : Program} (hp : p.Sealed) (k : Token) :
    k ∈ p.methodNames ↔ ∃ m, p.method? k = some m := by
  simp only [methodNames, List.mem_map, hp.method?_eq_some_iff]

/-- The second program is the first one under new names, one to one, of its types and
    of its methods.  Versions and cultures of assemblies are left open, and so are the
    export marks of methods, which follow from their attributes. -/
structure Renaming (type method : Token → Token) (p q : Program) : Prop where
  typeNames : Set.BijOn type {t | t ∈ p.typeNames} {t | t ∈ q.typeNames}
  methodNames : Set.BijOn method {m | m ∈ p.methodNames} {m | m ∈ q.methodNames}
  types : ∀ t ∈ p.types.toList, ∃ t' ∈ q.types.toList,
    t.Renamed type t' ∧ t'.methods = t.methods.map method
  methods : ∀ m ∈ p.methods.toList, ∃ m' ∈ q.methods.toList, m.Renamed type method m'

/-- The second program is the first one under new names of all tokens. -/
structure Permuted (f g : Equiv.Perm Token) (p q : Program) : Prop where
  types : ∀ t ∈ p.types.toList, ∃ t' ∈ q.types.toList,
    t.Renamed f t' ∧ t'.methods = t.methods.map g
  methods : ∀ m ∈ p.methods.toList, ∃ m' ∈ q.methods.toList, m.Renamed f g m'
  types_onto : ∀ t' ∈ q.types.toList, ∃ t ∈ p.types.toList, f t.token = t'.token
  methods_onto : ∀ m' ∈ q.methods.toList, ∃ m ∈ p.methods.toList, g m.token = m'.token

end Program

/-! ### Other names that come to the same

A definition can be renamed by any two functions that agree on the tokens that occur
in it, and is renamed back by the inverse. -/

theorem Param.rename_congr {f f' : Token → Token} {p : Param}
    (h : ∀ r, p.typeRef? = some r → f' r = f r) : p.rename f' = p.rename f := by
  cases p
  case classRef r => exact congrArg Param.classRef (h r rfl)
  case valueRef r => exact congrArg Param.valueRef (h r rfl)
  all_goals rfl

theorem Param.rename_rename (f f' : Token → Token) (p : Param) :
    (p.rename f).rename f' = p.rename (f' ∘ f) := by
  cases p <;> rfl

theorem TypeDef.Renamed.congr {f f' : Token → Token} {t t' : TypeDef} (h : t.Renamed f t')
    (htoken : f' t.token = f t.token) (hreferences : ∀ r ∈ t.references, f' r = f r) :
    t.Renamed f' t' where
  token := h.token.trans htoken.symm
  name := h.name
  assembly := h.assembly
  enclosing := by
    rw [h.enclosing]
    apply Option.map_congr
    intro r hr
    exact (hreferences r (by simp [TypeEntry.references, hr])).symm
  base := by
    rw [h.base]
    apply Option.map_congr
    intro r hr
    exact (hreferences r (by simp [TypeEntry.references, hr])).symm
  interfaces := by
    rw [h.interfaces]
    apply List.map_congr_left
    intro r hr
    exact (hreferences r (by simp [TypeEntry.references, hr])).symm

theorem MethodDef.Renamed.congr {f f' g g' : Token → Token} {m m' : MethodDef}
    (h : m.Renamed f g m') (htoken : g' m.token = g m.token) (howner : f' m.owner = f m.owner)
    (hreferences : ∀ r ∈ m.references, f' r = f r) (hoverrides : ∀ o ∈ m.overrides, g' o = g o) :
    m.Renamed f' g' m' where
  token := h.token.trans htoken.symm
  owner := h.owner.trans howner.symm
  name := h.name
  flags := h.flags
  params := by
    rw [h.params]
    apply List.map_congr_left
    intro p hp
    apply (Param.rename_congr _).symm
    intro r hr
    exact hreferences r (List.mem_append_right _ (List.mem_filterMap.mpr ⟨p, hp, hr⟩))
  attributes := by
    rw [h.attributes]
    apply List.map_congr_left
    intro r hr
    exact (hreferences r (List.mem_append_left _ hr)).symm
  overrides := by
    rw [h.overrides]
    apply List.map_congr_left
    intro o ho
    exact (hoverrides o ho).symm

theorem TypeDef.Renamed.symm {f : Equiv.Perm Token} {t t' : TypeDef} (h : t.Renamed f t') :
    t'.Renamed f.symm t where
  token := by rw [h.token, f.symm_apply_apply]
  name := h.name.symm
  assembly := h.assembly.symm
  enclosing := by rw [h.enclosing, Option.map_map, f.symm_comp_self, Option.map_id, id]
  base := by rw [h.base, Option.map_map, f.symm_comp_self, Option.map_id, id]
  interfaces := by rw [h.interfaces, List.map_map, f.symm_comp_self, List.map_id]

theorem MethodDef.Renamed.symm {f g : Equiv.Perm Token} {m m' : MethodDef}
    (h : m.Renamed f g m') : m'.Renamed f.symm g.symm m where
  token := by rw [h.token, g.symm_apply_apply]
  owner := by rw [h.owner, f.symm_apply_apply]
  name := h.name.symm
  flags := h.flags.symm
  params := by
    have hback : Param.rename f.symm ∘ Param.rename f = id := by
      funext p
      rw [Function.comp_apply, Param.rename_rename, f.symm_comp_self, Param.rename_id]
    rw [h.params, List.map_map, hback, List.map_id]
  attributes := by rw [h.attributes, List.map_map, f.symm_comp_self, List.map_id]
  overrides := by rw [h.overrides, List.map_map, g.symm_comp_self, List.map_id]

/-! ### Names of rows

Which tokens name rows of a table can be told from its size. -/

section Rows

variable {α : Type} {table : UInt8} {rows rows' : Array α} {name : α → Token}
  (hfit : rows.size ≤ Token.lastRow) (hfit' : rows'.size ≤ Token.lastRow)
  (hname : ∀ i (h : i < rows.size), name rows[i] = .ofRow table (UInt32.ofNat (i + 1)))
  (hname' : ∀ i (h : i < rows'.size), name rows'[i] = .ofRow table (UInt32.ofNat (i + 1)))

include hfit hname in
theorem mem_names_iff (t : Token) :
    t ∈ rows.toList.map name ↔ (t.index? table rows.size).isSome = true := by
  rw [List.mem_map]
  constructor
  · rintro ⟨d, hd, htoken⟩
    have hlookup := (lookup_eq_some_iff hfit hname t d).mpr ⟨hd, htoken⟩
    obtain ⟨i, hi, -⟩ := Option.bind_eq_some_iff.mp hlookup
    exact Option.isSome_of_eq_some hi
  · intro h
    obtain ⟨i, hi⟩ := Option.isSome_iff_exists.mp h
    have hrow := Array.getElem?_eq_getElem (Token.lt_of_index? hi)
    exact ⟨_, (lookup_eq_some_iff hfit hname t _).mp (Option.bind_eq_some_iff.mpr ⟨i, hi, hrow⟩)⟩

include hfit hfit' hname hname' in
/-- New names that match the rows of two tables are matched by tables of one size. -/
theorem mem_names_iff_of_bijOn {new : Token → Token}
    (h : Set.BijOn new {t | t ∈ rows.toList.map name} {t | t ∈ rows'.toList.map name})
    (t : Token) : t ∈ rows'.toList.map name ↔ t ∈ rows.toList.map name := by
  have hle : (rows.toList.map name).length ≤ (rows'.toList.map name).length := by
    apply length_le_of_injOn new (nodup_names hfit hname)
    · intro t ht u hu heq
      exact h.injOn ht hu heq
    · intro t ht
      exact h.mapsTo ht
  have hge : (rows'.toList.map name).length ≤ ((rows.toList.map name).map new).length := by
    apply (nodup_names hfit' hname').length_le_of_subset
    intro t' ht'
    obtain ⟨t, ht, rfl⟩ := h.surjOn ht'
    exact List.mem_map_of_mem ht
  simp only [List.length_map, Array.length_toList] at hle hge
  rw [mem_names_iff hfit hname, mem_names_iff hfit' hname', Nat.le_antisymm hle hge]

end Rows

/-- New names for the same tokens, one to one, are those of a permutation. -/
theorem exists_perm_of_bijOn {names names' : List Token} {new : Token → Token}
    (h : Set.BijOn new {t | t ∈ names} {t | t ∈ names'}) (hsame : ∀ t, t ∈ names' ↔ t ∈ names) :
    ∃ f : Equiv.Perm Token, ⇑f = Token.renameIn names new := by
  -- the new names permute the tokens of the list, and all other tokens stay
  have hset : {t | t ∈ names'} = {t | t ∈ names} := Set.ext hsame
  rw [hset] at h
  let e : Equiv.Perm {t // t ∈ names} := h.equiv new
  refine ⟨Equiv.Perm.ofSubtype e, ?_⟩
  funext t
  by_cases ht : t ∈ names
  · rw [Equiv.Perm.ofSubtype_apply_of_mem e ht, Token.renameIn_of_mem ht]
    rfl
  · rw [Equiv.Perm.ofSubtype_apply_of_not_mem e ht, Token.renameIn, if_neg ht]

/-! ### Two programs that are carried into one another -/

namespace Program

variable {p q : Program}

theorem Permuted.symm {f g : Equiv.Perm Token} (hq : q.Sealed) (h : Permuted f g p q) :
    Permuted f.symm g.symm q p where
  types := by
    intro t' ht'
    obtain ⟨t, ht, htoken⟩ := h.types_onto t' ht'
    obtain ⟨u, hu, hrenamed, hmethods⟩ := h.types t ht
    cases hq.type_ext hu ht' (hrenamed.token.trans htoken)
    refine ⟨t, ht, hrenamed.symm, ?_⟩
    rw [hmethods, List.map_map, g.symm_comp_self, List.map_id]
  methods := by
    intro m' hm'
    obtain ⟨m, hm, htoken⟩ := h.methods_onto m' hm'
    obtain ⟨n, hn, hrenamed⟩ := h.methods m hm
    cases hq.method_ext hn hm' (hrenamed.token.trans htoken)
    exact ⟨m, hm, hrenamed.symm⟩
  types_onto := by
    intro t ht
    obtain ⟨t', ht', hrenamed, -⟩ := h.types t ht
    exact ⟨t', ht', hrenamed.symm.token.symm⟩
  methods_onto := by
    intro m hm
    obtain ⟨m', hm', hrenamed⟩ := h.methods m hm
    exact ⟨m', hm', hrenamed.symm.token.symm⟩

theorem Permuted.carried {f g : Equiv.Perm Token} (h : Permuted f g p q) {d d' : Draft}
    (hbuild : d.toProgram = .ok p) (hbuild' : d'.toProgram = .ok q)
    (hexport : d'.exportName = d.exportName) : Carried f g p q := by
  have hc : TypesCarried f p q :=
    { source := d.sealed_of_toProgram hbuild
      target := d'.sealed_of_toProgram hbuild'
      linked := d.linked_of_toProgram hbuild
      types := fun t ht => by
        obtain ⟨t', ht', hrenamed, -⟩ := h.types t ht
        exact ⟨t', ht', hrenamed⟩ }
  refine { hc with declared := ?_, methods := ?_ }
  · intro t ht
    obtain ⟨t', ht', hrenamed, hmethods⟩ := h.types t ht
    obtain ⟨hmem, htoken⟩ := hc.counterpart_spec ht
    have hsame := hc.target.type_ext hmem ht' (htoken.token.trans hrenamed.token.symm)
    simp only [hsame, hmethods, List.prefix_refl]
  · intro m hm
    obtain ⟨m', hm', hrenamed⟩ := h.methods m hm
    exact ⟨m', hm', hrenamed, hc.exported_eq hbuild hbuild' hexport hm hm' hrenamed⟩

section Linked

variable {type method : Token → Token} (h : Renaming type method p q) (hp : p.Sealed)
include h hp

theorem Renaming.permuted (hlinked : p.Linked) (hmethods : p.MethodsLinked)
    {f g : Equiv.Perm Token} (hf : ⇑f = Token.renameIn p.typeNames type)
    (hg : ⇑g = Token.renameIn p.methodNames method) : Permuted f g p q := by
  have htype : ∀ r, (∃ u, p.types.find? r = some u) → f r = type r := by
    intro r hr
    rw [hf, Token.renameIn_of_mem ((mem_typeNames_iff hp r).mpr hr)]
  have hmethod : ∀ k, (∃ n, p.method? k = some n) → g k = method k := by
    intro k hk
    rw [hg, Token.renameIn_of_mem ((mem_methodNames_iff hp k).mpr hk)]
  constructor
  case types =>
    intro t ht
    obtain ⟨t', ht', hrenamed, hdeclared⟩ := h.types t ht
    refine ⟨t', ht', hrenamed.congr (htype _ ⟨t, hp.find?_token ht⟩) ?_, ?_⟩
    · intro r hr
      exact htype r (hlinked t ht r hr)
    · rw [hdeclared]
      apply List.map_congr_left
      intro k hk
      rw [hp.methods_eq t ht] at hk
      obtain ⟨m, hm, rfl⟩ := List.mem_map.mp hk
      exact (hmethod _ ⟨m, hp.method?_token (List.mem_of_mem_filter hm)⟩).symm
  case methods =>
    intro m hm
    obtain ⟨m', hm', hrenamed⟩ := h.methods m hm
    refine ⟨m', hm', hrenamed.congr (hmethod _ ⟨m, hp.method?_token hm⟩)
      (htype _ (hp.owner_known m hm)) ?_ ?_⟩
    · intro r hr
      exact htype r ((hmethods m hm).1 r hr)
    · intro o ho
      exact hmethod o ((hmethods m hm).2 o ho)
  case types_onto =>
    intro t' ht'
    obtain ⟨r, hr, htoken⟩ := h.typeNames.surjOn (mem_typeNames ht')
    obtain ⟨t, ht, rfl⟩ := List.mem_map.mp hr
    exact ⟨t, ht, (htype _ ⟨t, hp.find?_token ht⟩).trans htoken⟩
  case methods_onto =>
    intro m' hm'
    obtain ⟨k, hk, htoken⟩ := h.methodNames.surjOn (mem_methodNames hm')
    obtain ⟨m, hm, rfl⟩ := List.mem_map.mp hk
    exact ⟨m, hm, (hmethod _ ⟨m, hp.method?_token hm⟩).trans htoken⟩

/-- **New names of types and of methods can be completed to permutations of all
    tokens.** -/
theorem Renaming.exists_permuted (hq : q.Sealed) (hlinked : p.Linked)
    (hmethods : p.MethodsLinked) :
    ∃ f g : Equiv.Perm Token, ⇑f = Token.renameIn p.typeNames type ∧
      ⇑g = Token.renameIn p.methodNames method ∧ Permuted f g p q := by
  obtain ⟨f, hf⟩ := exists_perm_of_bijOn h.typeNames
    (mem_names_iff_of_bijOn hp.types_fit hq.types_fit hp.type_token hq.type_token h.typeNames)
  obtain ⟨g, hg⟩ := exists_perm_of_bijOn h.methodNames
    (mem_names_iff_of_bijOn hp.methods_fit hq.methods_fit hp.method_token hq.method_token
      h.methodNames)
  exact ⟨f, g, hf, hg, h.permuted hp hlinked hmethods hf hg⟩

end Linked

end Program

/-! ### Runs over both -/

theorem Tally.AtMost.antisymm {a b : Tally} (h : a.AtMost b) (h' : b.AtMost a) : a = b :=
  Tally.ext_fields (Nat.le_antisymm h.types h'.types)
    (Nat.le_antisymm h.bridgeObjects h'.bridgeObjects)
    (Nat.le_antisymm h.handleWrappers h'.handleWrappers)
    (Nat.le_antisymm h.wholeTypes h'.wholeTypes) (Nat.le_antisymm h.methods h'.methods)

namespace Pass

/-- The passes are over one program, to which each has its own names. -/
structure Matched (f g : Equiv.Perm Token) (pass pass' : Pass) : Prop where
  forth : Carried f g pass pass'
  back : Carried f.symm g.symm pass' pass

namespace Matched

variable {pass pass' : Pass} {f g : Equiv.Perm Token}

theorem symm (h : Matched f g pass pass') : Matched f.symm g.symm pass' pass :=
  ⟨h.back, h.forth⟩

variable {d d' : Draft} {s s' : Progress} (hs : Starts d pass s) (hs' : Starts d' pass' s')
  {tally : Tally}
include hs hs'

theorem run_ok (h : Matched f g pass pass') (hrun : (pass.run s).1 = .ok tally) :
    (pass'.run s').1 = .ok tally := by
  obtain ⟨tally', hrun'⟩ := h.back.run_ok_of_rename hs' hs ⟨tally, hrun⟩
  have hle := h.forth.tally_run_le hs hs' hrun hrun'
  have hge := h.back.tally_run_le hs' hs hrun' hrun
  rw [hrun', hle.antisymm hge]

variable (h : Matched f g pass pass') (hrun : (pass.run s).1 = .ok tally)
include h hrun

theorem level_run {t : TypeDef} (ht : t ∈ pass.program.types.toList) :
    (pass'.run s').2.retention.level (f t.token) = (pass.run s).2.retention.level t.token := by
  have hrun' := h.run_ok hs hs' hrun
  obtain ⟨hmem, hrenamed⟩ := h.forth.counterpart_spec ht
  have hle := h.forth.level_run_le hs hs' hrun hrun' ht
  have hge := h.back.level_run_le hs' hs hrun' hrun hmem
  rw [hrenamed.token, f.symm_apply_apply] at hge
  exact Level.le_antisymm hge hle

theorem keptUnder_run {t : TypeDef} (ht : t ∈ pass.program.types.toList) :
    (pass'.run s').2.retention.keptUnder (f t.token) =
      ((pass.run s).2.retention.keptUnder t.token).map g := by
  have hrun' := h.run_ok hs hs' hrun
  obtain ⟨hmem, hrenamed⟩ := h.forth.counterpart_spec ht
  have hsub :=
    h.forth.keptUnder_run_sublist hs hs' hrun hrun' ht
  have hback :=
    h.back.keptUnder_run_sublist hs' hs hrun' hrun hmem
  -- either list is part of the other
  rw [hrenamed.token, f.symm_apply_apply] at hback
  have hsup := hback.map g
  rw [List.map_map, g.self_comp_symm, List.map_id] at hsup
  exact hsup.antisymm hsub

theorem isKept_run (k : Token) :
    (pass'.run s').2.retention.isKept (g k) = (pass.run s).2.retention.isKept k := by
  have hrun' := h.run_ok hs hs' hrun
  rw [Bool.eq_iff_iff]
  constructor
  · intro hkept
    have hback :=
      h.back.isKept_run_rename hs' hs hrun' hrun hkept
    rwa [g.symm_apply_apply] at hback
  · intro hkept
    exact h.forth.isKept_run_rename hs hs' hrun hrun' hkept

end Matched

theorem matched_of_permuted {pass pass' : Pass} {f g : Equiv.Perm Token}
    (h : Program.Permuted f g pass.program pass'.program) {d d' : Draft}
    (hbuild : d.toProgram = .ok pass.program) (hbuild' : d'.toProgram = .ok pass'.program)
    (hexport : d'.exportName = d.exportName) (hprofile : pass'.profile = pass.profile.rename f) :
    Matched f g pass pass' where
  forth := { h.carried hbuild hbuild' hexport with profile := hprofile }
  back :=
    { (h.symm (d'.sealed_of_toProgram hbuild')).carried hbuild' hbuild hexport.symm with
      profile := by
        rw [hprofile]
        simp only [Profile.rename, Param.rename_rename, f.symm_comp_self, Param.rename_id, id] }

/-! ### The small program in another order

The consumer assembly is loaded first, and the platform in a later version. -/

def reorderedDraft : Draft :=
  let ios : Assembly := ⟨"Xamarin.iOS", ⟨2, 0, 0, 0⟩, none⟩
  let app : Assembly := ⟨"App", .unknown, none⟩
  { types := #[
      { assembly := app, name := ⟨"", "Canvas"⟩, enclosing := some (.ofTypeIndex 4),
        base := some (.ofTypeIndex 3) },
      { assembly := ios, name := exportAttribute },
      { assembly := ios, name := ⟨"Foundation", "NSObject"⟩ },
      { assembly := ios, name := ⟨"UIKit", "UIView"⟩, base := some (.ofTypeIndex 2) },
      { assembly := ios, name := ⟨"UIKit", "Host"⟩ }]
    methods := #[
      { owner := .ofTypeIndex 0, name := "Draw", flags := .virtual,
        overrides := [.ofMethodIndex 2] },
      { owner := .ofTypeIndex 3, name := MethodEntry.constructorName, flags := .constructor,
        params := [.nativeInt] },
      { owner := .ofTypeIndex 3, name := "Draw", flags := .virtual,
        attributes := [.ofTypeIndex 1] }]
    owners_known := by decide +kernel }

def reordered : Pass where
  program := reorderedDraft.toProgram.toOption.get (by decide +kernel)
  profile := .iOS

theorem toProgram_reorderedDraft : reorderedDraft.toProgram = .ok reordered.program :=
  reorderedDraft.toProgram_of_isSome (by decide +kernel)

def reorderType (t : Token) : Token :=
  if t = .ofTypeIndex 4 then .ofTypeIndex 0 else ⟨t.raw + 1⟩

def reorderMethod (m : Token) : Token :=
  if m = .ofMethodIndex 2 then .ofMethodIndex 0 else ⟨m.raw + 1⟩

theorem renaming_reordered :
    Program.Renaming reorderType reorderMethod sample.program reordered.program where
  typeNames := by
    have hmaps : ∀ t ∈ sample.program.typeNames, reorderType t ∈ reordered.program.typeNames := by
      decide +kernel
    have hinj : ∀ t ∈ sample.program.typeNames, ∀ u ∈ sample.program.typeNames,
        reorderType t = reorderType u → t = u := by decide +kernel
    have honto : ∀ t' ∈ reordered.program.typeNames,
        ∃ t ∈ sample.program.typeNames, reorderType t = t' := by decide +kernel
    exact ⟨hmaps, fun t ht u hu => hinj t ht u hu, honto⟩
  methodNames := by
    have hmaps : ∀ m ∈ sample.program.methodNames,
        reorderMethod m ∈ reordered.program.methodNames := by decide +kernel
    have hinj : ∀ m ∈ sample.program.methodNames, ∀ n ∈ sample.program.methodNames,
        reorderMethod m = reorderMethod n → m = n := by decide +kernel
    have honto : ∀ m' ∈ reordered.program.methodNames,
        ∃ m ∈ sample.program.methodNames, reorderMethod m = m' := by decide +kernel
    exact ⟨hmaps, fun m hm n hn => hinj m hm n hn, honto⟩
  types := by decide +kernel
  methods := by decide +kernel

/-! ### The outcome -/

/-- **A run cannot tell under which names it sees a program.**  It is through under
    the one if and only if it is under the other, with the same tally, and what is
    retained is the same under the new names: the level of each type, each method, and
    the order of the methods under a type. -/
theorem run_renamed {pass pass' : Pass} {d d' : Draft} (hbuild : d.toProgram = .ok pass.program)
    (hbuild' : d'.toProgram = .ok pass'.program) (hexport : d'.exportName = d.exportName)
    {type method : Token → Token}
    (hrenaming : Program.Renaming type method pass.program pass'.program)
    (hprofile : pass'.profile =
      pass.profile.rename (Token.renameIn pass.program.typeNames type))
    {s s' : Progress} (hempty : s.retention = .empty) (hempty' : s'.retention = .empty)
    (hmemo : s.memo.Sound pass.profile) (hmemo' : s'.memo.Sound pass'.profile) :
    (∀ tally, (pass.run s).1 = .ok tally ↔ (pass'.run s').1 = .ok tally) ∧
      ∀ tally, (pass.run s).1 = .ok tally →
        (∀ t ∈ pass.program.types.toList,
          (pass'.run s').2.retention.level (type t.token) =
              (pass.run s).2.retention.level t.token ∧
            (pass'.run s').2.retention.keptUnder (type t.token) =
              ((pass.run s).2.retention.keptUnder t.token).map method) ∧
          ∀ m ∈ pass.program.methods.toList,
            (pass'.run s').2.retention.isKept (method m.token) =
              (pass.run s).2.retention.isKept m.token := by
  have hp := d.sealed_of_toProgram hbuild
  have hq := d'.sealed_of_toProgram hbuild'
  obtain ⟨f, g, hf, hg, hpermuted⟩ := hrenaming.exists_permuted hp hq
    (d.linked_of_toProgram hbuild) (d.methodsLinked_of_toProgram hbuild)
  rw [← hf] at hprofile
  have hs : Starts d pass s := ⟨hbuild, hempty, hmemo⟩
  have hs' : Starts d' pass' s' := ⟨hbuild', hempty', hmemo'⟩
  have hmatched := matched_of_permuted hpermuted hbuild hbuild' hexport hprofile
  have htype : ∀ t ∈ pass.program.types.toList, f t.token = type t.token := by
    intro t ht
    rw [hf, Token.renameIn_of_mem (Program.mem_typeNames ht)]
  have hmethod : ∀ m ∈ pass.program.methods.toList, g m.token = method m.token := by
    intro m hm
    rw [hg, Token.renameIn_of_mem (Program.mem_methodNames hm)]
  refine ⟨?_, ?_⟩
  · intro tally
    exact ⟨hmatched.run_ok hs hs',
      hmatched.symm.run_ok hs' hs⟩
  · intro tally hrun
    refine ⟨?_, ?_⟩
    · intro t ht
      have hlevel := hmatched.level_run hs hs' hrun ht
      have hlist := hmatched.keptUnder_run hs hs' hrun ht
      have hnames : ((pass.run s).2.retention.keptUnder t.token).map g =
          ((pass.run s).2.retention.keptUnder t.token).map method := by
        apply List.map_congr_left
        intro k hk
        rw [Pass.keptUnder_run hbuild hempty hmemo hrun ht] at hk
        obtain ⟨m, hm, rfl⟩ := List.mem_map.mp hk
        exact hmethod m ((hp.mem_methodsOf_iff ht m).mp (nativeMembers_subset t hm)).1
      rw [← htype t ht, ← hnames]
      exact ⟨hlevel, hlist⟩
    · intro m hm
      rw [← hmethod m hm]
      exact hmatched.isKept_run hs hs' hrun m.token

theorem run_renamed_reordered :
    (reordered.run {}).1 = .ok ⟨5, 3, 0, 2, 2⟩ ∧
      (reordered.run {}).2.retention.level (.ofTypeIndex 4) = .all ∧
      (reordered.run {}).2.retention.keptUnder (.ofTypeIndex 3) =
        [.ofMethodIndex 1, .ofMethodIndex 2] := by
  have hempty : ({} : Progress).retention = .empty := rfl
  have hmemo := Provenance.Memo.sound_empty .iOS
  have hsame := run_renamed toProgram_sampleDraft toProgram_reorderedDraft rfl renaming_reordered
    rfl hempty hempty hmemo hmemo
  have hrun := (hsame.1 _).mp run_sample
  obtain ⟨htypes, -⟩ := hsame.2 _ run_sample
  have hhost : ∃ t ∈ sample.program.types.toList, reorderType t.token = .ofTypeIndex 4 ∧
      (sample.run {}).2.retention.level t.token = .all := by decide +kernel
  have hview : ∃ t ∈ sample.program.types.toList, reorderType t.token = .ofTypeIndex 3 ∧
      ((sample.run {}).2.retention.keptUnder t.token).map reorderMethod =
        [.ofMethodIndex 1, .ofMethodIndex 2] := by decide +kernel
  obtain ⟨host, hhost, hhostName, hwhole⟩ := hhost
  obtain ⟨view, hview, hviewName, hlist⟩ := hview
  refine ⟨hrun, ?_, ?_⟩
  · rw [← hhostName, (htypes host hhost).1, hwhole]
  · rw [← hviewName, (htypes view hview).2, hlist]

end Pass

end TrimGuard
