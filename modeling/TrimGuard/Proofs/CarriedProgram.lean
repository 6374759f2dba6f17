/-
  TrimGuard/Proofs/CarriedProgram.lean
  ====================================
  **A program that stands inside another one.**

  The same types and methods have other tokens when they are registered in another
  order, and they have company when more is registered with them.  In both cases
  every definition of the one program is found again in the other under a new
  name, and refers there to what it referred to before, under the new names
  (`Carried`).

  What is asked about a type is answered by following its references, and compares
  tokens for equality at most.  So each answer is the same for a type and for its
  counterpart: the chains, the interface search, the role, the export mark of a
  method.  Only a type may have more methods than before, behind those it had.
-/
import TrimGuard.Proofs.BoundedClimb
import TrimGuard.Role
import Mathlib.Logic.Equiv.Defs

namespace TrimGuard

/-! ### New names -/

/-- The parameter type with the type that it refers to under its new name. -/
def Param.rename (f : Token → Token) : Param → Param
  | .classRef t => .classRef (f t)
  | .valueRef t => .valueRef (f t)
  | p => p

theorem Param.rename_injective {f : Token → Token} (hf : Function.Injective f) :
    Function.Injective (Param.rename f) := by
  intro p q h
  cases p <;> cases q <;> simp_all [rename, hf.eq_iff]

@[simp] theorem Param.rename_id : Param.rename id = id := by
  funext p
  cases p <;> rfl

/-- The second type is the first one under new names.  Of its assembly nothing but
    the simple name is kept, and the methods that it declares are left open. -/
structure TypeDef.Renamed (f : Token → Token) (t t' : TypeDef) : Prop where
  token : t'.token = f t.token
  name : t'.name = t.name
  assembly : t'.assembly.name = t.assembly.name
  enclosing : t'.enclosing = t.enclosing.map f
  base : t'.base = t.base.map f
  interfaces : t'.interfaces = t.interfaces.map f

/-- The second method is the first one under new names of types and of methods. -/
structure MethodDef.Renamed (f g : Token → Token) (m m' : MethodDef) : Prop where
  token : m'.token = g m.token
  owner : m'.owner = f m.owner
  name : m'.name = m.name
  flags : m'.flags = m.flags
  params : m'.params = m.params.map (Param.rename f)
  attributes : m'.attributes = m.attributes.map f
  overrides : m'.overrides = m.overrides.map g

instance (f : Token → Token) (t t' : TypeDef) : Decidable (t.Renamed f t') :=
  decidable_of_iff
    (t'.token = f t.token ∧ t'.name = t.name ∧ t'.assembly.name = t.assembly.name ∧
      t'.enclosing = t.enclosing.map f ∧ t'.base = t.base.map f ∧
      t'.interfaces = t.interfaces.map f)
    ⟨fun ⟨htoken, hname, hassembly, henclosing, hbase, hinterfaces⟩ =>
        ⟨htoken, hname, hassembly, henclosing, hbase, hinterfaces⟩,
      fun h => ⟨h.token, h.name, h.assembly, h.enclosing, h.base, h.interfaces⟩⟩

instance (f g : Token → Token) (m m' : MethodDef) : Decidable (m.Renamed f g m') :=
  decidable_of_iff
    (m'.token = g m.token ∧ m'.owner = f m.owner ∧ m'.name = m.name ∧ m'.flags = m.flags ∧
      m'.params = m.params.map (Param.rename f) ∧ m'.attributes = m.attributes.map f ∧
      m'.overrides = m.overrides.map g)
    ⟨fun ⟨htoken, howner, hname, hflags, hparams, hattributes, hoverrides⟩ =>
        ⟨htoken, howner, hname, hflags, hparams, hattributes, hoverrides⟩,
      fun h => ⟨h.token, h.owner, h.name, h.flags, h.params, h.attributes, h.overrides⟩⟩

theorem length_le_of_injOn {α β : Type} (new : α → β) {as : List α} {bs : List β}
    (hnodup : as.Nodup) (hinj : ∀ a ∈ as, ∀ b ∈ as, new a = new b → a = b)
    (hmem : ∀ a ∈ as, new a ∈ bs) : as.length ≤ bs.length := by
  have hsub : as.map new ⊆ bs := by
    intro b hb
    obtain ⟨a, ha, rfl⟩ := List.mem_map.mp hb
    exact hmem a ha
  have hle := (List.Nodup.map_on hinj hnodup).length_le_of_subset hsub
  rwa [List.length_map] at hle

/-! ### Counterparts

A new name is given to every token, whether or not it names anything, and different
tokens have different new names. -/

/-- Every type of the first program is a type of the second one under its new
    name. -/
structure TypesCarried (f : Equiv.Perm Token) (p q : Program) : Prop where
  source : p.Sealed
  target : q.Sealed
  linked : p.Linked
  types : ∀ t ∈ p.types.toList, ∃ t' ∈ q.types.toList, t.Renamed f t'

/-- The type of the program that has the new name of `t`. -/
def Program.counterpart (q : Program) (f : Token → Token) (t : TypeDef) : TypeDef :=
  (q.types.find? (f t.token)).getD t

namespace TypesCarried

variable {f : Equiv.Perm Token} {p q : Program} (hc : TypesCarried f p q)
include hc

theorem counterpart_spec {t : TypeDef} (ht : t ∈ p.types.toList) :
    q.counterpart f t ∈ q.types.toList ∧ t.Renamed f (q.counterpart f t) := by
  obtain ⟨t', ht', hrenamed⟩ := hc.types t ht
  have hfind := (hc.target.find?_eq_some_iff (f t.token) t').mpr ⟨ht', hrenamed.token⟩
  rw [Program.counterpart, hfind]
  exact ⟨ht', hrenamed⟩

theorem counterpart_mem {t : TypeDef} (ht : t ∈ p.types.toList) :
    q.counterpart f t ∈ q.types.toList := (hc.counterpart_spec ht).1

theorem counterpart_renamed {t : TypeDef} (ht : t ∈ p.types.toList) :
    t.Renamed f (q.counterpart f t) := (hc.counterpart_spec ht).2

theorem counterpart_injective {t u : TypeDef} (ht : t ∈ p.types.toList) (hu : u ∈ p.types.toList)
    (h : q.counterpart f t = q.counterpart f u) : t = u := by
  apply hc.source.type_ext ht hu
  apply f.injective
  rw [← (hc.counterpart_renamed ht).token, ← (hc.counterpart_renamed hu).token, h]

/-- There are no fewer types of a kind if a counterpart is of that kind too. -/
theorem countP_types_le {kind kind' : TypeDef → Bool}
    (h : ∀ t ∈ p.types.toList, kind t = true → kind' (q.counterpart f t) = true) :
    p.types.toList.countP kind ≤ q.types.toList.countP kind' := by
  rw [List.countP_eq_length_filter, List.countP_eq_length_filter]
  apply length_le_of_injOn (q.counterpart f) (hc.source.nodup_types.filter _)
  · intro t ht u hu heq
    exact hc.counterpart_injective (List.mem_of_mem_filter ht) (List.mem_of_mem_filter hu) heq
  · intro t ht
    obtain ⟨ht, hkind⟩ := List.mem_filter.mp ht
    exact List.mem_filter.mpr ⟨hc.counterpart_mem ht, h t ht hkind⟩

theorem find?_rename {r : Token} {d : TypeDef} (h : p.types.find? r = some d) :
    q.types.find? (f r) = some (q.counterpart f d) := by
  obtain ⟨hd, rfl⟩ := (hc.source.find?_eq_some_iff r d).mp h
  obtain ⟨hmem, hrenamed⟩ := hc.counterpart_spec hd
  exact (hc.target.find?_eq_some_iff _ _).mpr ⟨hmem, hrenamed.token⟩

end TypesCarried

/-! ### Walks -/

def Ascent.End.rename (f : Token → Token) : Ascent.End → Ascent.End
  | .top => .top
  | .repeats t => .repeats (f t)
  | .tooHigh => .tooHigh
  | .outside t => .outside (f t)

def Search.rename (f : Token → Token) : Search → Search
  | .found => .found
  | .missed entered => .missed (entered.map f)

theorem Search.through_rename {f : Token → Token}
    {visit visit' : List Token → Token → Except Fault Search} {is : List Token}
    (hvisit : ∀ i ∈ is, ∀ entered,
      visit' (entered.map f) (f i) = (visit entered i).map (Search.rename f))
    (entered : List Token) :
    Search.through visit' (entered.map f) (is.map f) =
      (Search.through visit entered is).map (Search.rename f) := by
  induction is generalizing entered with
  | nil => rfl
  | cons i is ih =>
    obtain ⟨hhead, htail⟩ := List.forall_mem_cons.mp hvisit
    simp only [List.map_cons, Search.through, hhead entered]
    rcases visit entered i with fault | _ | entered'
    · rfl
    · rfl
    · exact ih htail entered'

namespace TypesCarried

variable {f : Equiv.Perm Token} {p q : Program} (hc : TypesCarried f p q)
include hc

/-- **A walk from a counterpart passes the counterparts, and ends for the same
    reason.** -/
theorem ascend_rename {up : TypeDef → Option Token}
    (hup : ∀ d ∈ p.types.toList, up (q.counterpart f d) = (up d).map f)
    (hknown : ∀ d ∈ p.types.toList, ∀ r, up d = some r → ∃ u, p.types.find? r = some u)
    (steps : Nat) (met : List Token) {start : Option Token}
    (hstart : ∀ r, start = some r → ∃ u, p.types.find? r = some u) :
    q.types.ascend up steps (met.map f) (start.map f) =
      ⟨(p.types.ascend up steps met start).passed.map (q.counterpart f),
        (p.types.ascend up steps met start).finish.rename f⟩ := by
  induction steps generalizing met start with
  | zero =>
    rcases start with _ | t
    · rfl
    · simp only [Option.map_some, TypeTable.ascend, List.mem_map_of_injective f.injective]
      split <;> rfl
  | succ steps ih =>
    rcases start with _ | t
    · rfl
    · obtain ⟨d, hfind⟩ := hstart t rfl
      have hd := TypeTable.mem_toList_of_find? hfind
      simp only [Option.map_some, TypeTable.ascend, List.mem_map_of_injective f.injective]
      by_cases hmet : t ∈ met
      · simp only [if_pos hmet]
        rfl
      · have habove := ih (t :: met) (hknown d hd)
        rw [List.map_cons] at habove
        simp only [if_neg hmet, hfind, hc.find?_rename hfind, hup d hd, habove, List.map_cons]

theorem enclosing_known : ∀ d ∈ p.types.toList, ∀ r, d.enclosing = some r →
    ∃ u, p.types.find? r = some u := by
  intro d hd r hr
  apply hc.linked d hd r
  simp [TypeEntry.references, hr]

theorem base_known : ∀ d ∈ p.types.toList, ∀ r, d.base = some r →
    ∃ u, p.types.find? r = some u := by
  intro d hd r hr
  apply hc.linked d hd r
  simp [TypeEntry.references, hr]

theorem interfaces_known : ∀ d ∈ p.types.toList, ∀ i ∈ d.interfaces,
    ∃ u, p.types.find? i = some u := by
  intro d hd i hi
  apply hc.linked d hd i
  simp [TypeEntry.references, hi]

theorem enclosing_rename {t : TypeDef} (ht : t ∈ p.types.toList) (limit : Nat) :
    (q.types.enclosing limit (q.counterpart f t)).toOption =
      (p.types.enclosing limit t).toOption.map (List.map (q.counterpart f)) := by
  have hrenamed := hc.counterpart_renamed ht
  have hwalk := hc.ascend_rename (fun d hd => (hc.counterpart_renamed hd).enclosing)
    hc.enclosing_known limit [t.token] (hc.enclosing_known t ht)
  rw [List.map_singleton, ← hrenamed.token, ← hrenamed.enclosing] at hwalk
  simp only [TypeTable.enclosing, hwalk]
  rcases (p.types.ascend (fun d => d.enclosing) limit [t.token] t.enclosing).finish with
    _ | r | _ | r <;> rfl

theorem lineage_rename {t : TypeDef} (ht : t ∈ p.types.toList) (limit : Nat) :
    q.types.lineage limit (q.counterpart f t) =
      (p.types.lineage limit t).map (List.map (q.counterpart f)) := by
  have hrenamed := hc.counterpart_renamed ht
  have hwalk := hc.ascend_rename (fun d hd => (hc.counterpart_renamed hd).base)
    hc.base_known limit [t.token] (hc.base_known t ht)
  rw [List.map_singleton, ← hrenamed.token, ← hrenamed.base] at hwalk
  simp only [TypeTable.lineage, hwalk]
  rcases (p.types.ascend (fun d => d.base) limit [t.token] t.base).finish with
    _ | r | _ | r <;> rfl

theorem mem_of_lineage {t : TypeDef} (ht : t ∈ p.types.toList) {limit : Nat}
    {line : List TypeDef} (h : p.types.lineage limit t = .ok line) :
    ∀ d ∈ line, d ∈ p.types.toList := by
  obtain ⟨bases, hclimb, -, rfl⟩ := (hc.source.lineage_eq_ok_iff hc.linked ht limit line).mp h
  intro d hd
  rcases List.mem_cons.mp hd with rfl | hd
  · exact ht
  · exact hclimb.mem_toList hd

/-- Whether a chain has a type of a given name can be told from the
    counterparts. -/
theorem any_name_rename {line : List TypeDef} (hline : ∀ d ∈ line, d ∈ p.types.toList)
    (name : QualifiedName) :
    ((line.map (q.counterpart f)).any fun d => d.name = name) =
      line.any fun d => d.name = name := by
  induction line with
  | nil => rfl
  | cons d line ih =>
    obtain ⟨hd, hrest⟩ := List.forall_mem_cons.mp hline
    simp only [List.map_cons, List.any_cons, (hc.counterpart_renamed hd).name, ih hrest]

theorem search_rename (wanted : QualifiedName) (limit depth : Nat) (entered : List Token)
    {i : Token} (hi : ∃ u, p.types.find? i = some u) :
    q.types.search wanted limit depth (entered.map f) (f i) =
      (p.types.search wanted limit depth entered i).map (Search.rename f) := by
  induction depth generalizing entered i with
  | zero => rfl
  | succ depth ih =>
    obtain ⟨d, hfind⟩ := hi
    have hd := TypeTable.mem_toList_of_find? hfind
    have hrenamed := hc.counterpart_renamed hd
    simp only [TypeTable.search, List.mem_map_of_injective f.injective, hfind,
      hc.find?_rename hfind, hrenamed.name, hrenamed.interfaces]
    split
    · rfl
    · split
      · rfl
      · have hrest := Search.through_rename (f := f)
          (fun j hj entered => ih entered (hc.interfaces_known d hd j hj)) (i :: entered)
        rw [List.map_cons] at hrest
        exact hrest

/-- **A counterpart has the role of the type.** -/
theorem roleOf_rename (profile : Profile) {t : TypeDef} (ht : t ∈ p.types.toList) :
    profile.roleOf q.types (q.counterpart f t) = profile.roleOf p.types t := by
  simp only [Profile.roleOf, hc.lineage_rename ht]
  rcases hline : p.types.lineage profile.maxHierarchy t with fault | line
  · rfl
  · have hmem := hc.mem_of_lineage ht hline
    have hinterfaces : ((line.map (q.counterpart f)).flatMap fun d => d.interfaces) =
        (line.flatMap fun d => d.interfaces).map f := by
      rw [List.flatMap_map, List.map_flatMap]
      apply List.flatMap_congr
      intro d hd
      exact (hc.counterpart_renamed (hmem d hd)).interfaces
    have hvisit : ∀ i ∈ line.flatMap fun d => d.interfaces, ∀ entered,
        q.types.search profile.nativeObject profile.maxHierarchy (profile.maxHierarchy + 1)
            (entered.map f) (f i) =
          (p.types.search profile.nativeObject profile.maxHierarchy (profile.maxHierarchy + 1)
            entered i).map (Search.rename f) := by
      intro i hi entered
      obtain ⟨d, hd, hi⟩ := List.mem_flatMap.mp hi
      exact hc.search_rename _ _ _ entered (hc.interfaces_known d (hmem d hd) i hi)
    have hsearch := Search.through_rename hvisit []
    rw [List.map_nil, ← hinterfaces] at hsearch
    simp only [Except.map, hc.any_name_rename hmem, hsearch]
    split
    · rfl
    · rcases hanswer : Search.through (p.types.search profile.nativeObject profile.maxHierarchy
        (profile.maxHierarchy + 1)) [] (line.flatMap fun d => d.interfaces) with
        fault | _ | entered <;> rw [hanswer] <;> rfl

/-- Attributes mark a method as exported under their new names too. -/
theorem anyExport_rename (exportName : QualifiedName) {attributes : List Token}
    (hknown : ∀ r ∈ attributes, ∃ u, p.types.find? r = some u) :
    q.types.anyExport exportName (attributes.map f) = p.types.anyExport exportName attributes := by
  induction attributes with
  | nil => rfl
  | cons r rest ih =>
    obtain ⟨⟨d, hfind⟩, hrest⟩ := List.forall_mem_cons.mp hknown
    have hd := TypeTable.mem_toList_of_find? hfind
    have hhead : q.types.isExport exportName (f r) = p.types.isExport exportName r := by
      simp only [TypeTable.isExport, hfind, hc.find?_rename hfind, hc.lineage_rename hd]
      rcases hline : p.types.lineage TypeTable.attributeDepth d with fault | line
      · rfl
      · simp only [Except.map, hc.any_name_rename (hc.mem_of_lineage hd hline)]
    simp only [List.map_cons, TypeTable.anyExport, hhead, ih hrest]

/-- A type encloses what it enclosed under its new name. -/
theorem encloses_rename {t u : Token} (h : p.types.Encloses t u) :
    q.types.Encloses (f t) (f u) := by
  refine Relation.ReflTransGen.lift f ?_ t u h
  rintro inner outer ⟨d, hfind, houter⟩
  have hd := TypeTable.mem_toList_of_find? hfind
  refine ⟨q.counterpart f d, hc.find?_rename hfind, ?_⟩
  rw [(hc.counterpart_renamed hd).enclosing, houter, Option.map_some]

/-- Methods with the same attributes are marked alike when both programs go by the
    same export attribute. -/
theorem exported_eq {d d' : Draft} (hbuild : d.toProgram = .ok p) (hbuild' : d'.toProgram = .ok q)
    (hname : d'.exportName = d.exportName) {g : Token → Token} {m m' : MethodDef}
    (hm : m ∈ p.methods.toList) (hm' : m' ∈ q.methods.toList) (hrenamed : m.Renamed f g m') :
    m'.exported = m.exported := by
  have hknown : ∀ r ∈ m.attributes, ∃ u, p.types.find? r = some u := by
    intro r hr
    exact (d.methodsLinked_of_toProgram hbuild m hm).1 r (List.mem_append_left _ hr)
  have hmark := d.anyExport_of_toProgram hbuild hm
  have hmark' := d'.anyExport_of_toProgram hbuild' hm'
  rw [hname, hrenamed.attributes, hc.anyExport_rename d.exportName hknown, hmark] at hmark'
  exact (Except.ok.inj hmark').symm

end TypesCarried

/-! ### Methods -/

/-- Every type and every method of the first program is one of the second under its
    new name, and a type declares there what it declared before, and then perhaps
    more. -/
structure Carried (f g : Equiv.Perm Token) (p q : Program) : Prop extends TypesCarried f p q where
  declared : ∀ t ∈ p.types.toList, t.methods.map g <+: (q.counterpart f t).methods
  methods : ∀ m ∈ p.methods.toList, ∃ m' ∈ q.methods.toList,
    m.Renamed f g m' ∧ m'.exported = m.exported

/-- The method of the program that has the new name of `m`. -/
def Program.methodCounterpart (q : Program) (g : Token → Token) (m : MethodDef) : MethodDef :=
  (q.method? (g m.token)).getD m

namespace Carried

variable {f g : Equiv.Perm Token} {p q : Program} (hc : Carried f g p q)
include hc

theorem method_spec {m : MethodDef} (hm : m ∈ p.methods.toList) :
    q.methodCounterpart g m ∈ q.methods.toList ∧ m.Renamed f g (q.methodCounterpart g m) ∧
      (q.methodCounterpart g m).exported = m.exported := by
  obtain ⟨m', hm', hrenamed, hexported⟩ := hc.methods m hm
  have hfind := (hc.target.method?_eq_some_iff (g m.token) m').mpr ⟨hm', hrenamed.token⟩
  rw [Program.methodCounterpart, hfind]
  exact ⟨hm', hrenamed, hexported⟩

theorem method_mem {m : MethodDef} (hm : m ∈ p.methods.toList) :
    q.methodCounterpart g m ∈ q.methods.toList := (hc.method_spec hm).1

theorem method_renamed {m : MethodDef} (hm : m ∈ p.methods.toList) :
    m.Renamed f g (q.methodCounterpart g m) := (hc.method_spec hm).2.1

theorem methodCounterpart_injective {m n : MethodDef} (hm : m ∈ p.methods.toList)
    (hn : n ∈ p.methods.toList) (h : q.methodCounterpart g m = q.methodCounterpart g n) :
    m = n := by
  apply hc.source.method_ext hm hn
  apply g.injective
  rw [← (hc.method_renamed hm).token, ← (hc.method_renamed hn).token, h]

theorem method?_rename {k : Token} {m : MethodDef} (h : p.method? k = some m) :
    q.method? (g k) = some (q.methodCounterpart g m) := by
  obtain ⟨hm, rfl⟩ := (hc.source.method?_eq_some_iff k m).mp h
  exact (hc.target.method?_eq_some_iff _ _).mpr ⟨hc.method_mem hm, (hc.method_renamed hm).token⟩

/-- A counterpart has the counterparts of the methods of the type in front of any
    others. -/
theorem methodsOf_rename {t : TypeDef} (ht : t ∈ p.types.toList) :
    (p.methodsOf t).map (q.methodCounterpart g) <+: q.methodsOf (q.counterpart f t) := by
  have hmap : (p.methodsOf t).map (q.methodCounterpart g) =
      (t.methods.map g).filterMap q.method? := by
    rw [Program.methodsOf, List.map_filterMap, List.filterMap_map]
    apply List.filterMap_congr
    intro k hk
    rw [hc.source.methods_eq t ht] at hk
    obtain ⟨m, hm, rfl⟩ := List.mem_map.mp hk
    have hfind := hc.source.method?_token (List.mem_of_mem_filter hm)
    simp only [hfind, Option.map_some, Function.comp_apply, hc.method?_rename hfind]
  rw [hmap, Program.methodsOf]
  exact (hc.declared t ht).filterMap q.method?

theorem mem_methods_of_methodsOf {t : TypeDef} (ht : t ∈ p.types.toList) {m : MethodDef}
    (hm : m ∈ p.methodsOf t) : m ∈ p.methods.toList := ((hc.source.mem_methodsOf_iff ht m).mp hm).1

end Carried

end TrimGuard
