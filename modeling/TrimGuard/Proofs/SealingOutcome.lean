/-
  TrimGuard/Proofs/SealingOutcome.lean
  ====================================
  **Which drafts can be sealed.**

  Registrations may refer to types and methods that come later, or never.  A draft is
  `Closed` if in the end everything that is referred to is there.  The references are
  looked at in a fixed order, and the first one that leads nowhere is the fault of the
  draft.

  Only when nothing dangles are the attribute hierarchies walked.  A draft can be
  sealed if it is closed and every overgrown attribute stands behind one that marks an
  export (`Shielded`), and in no other case: the same attributes can be in order on one
  method and a fault on another that lists them the other way round.

  A workbench is sealed to what its draft is sealed to (`Workbench.toProgram_attempt`),
  so the same two conditions decide about it
  (`Workbench.exists_toProgram_attempt_iff`), and its faults are the same.
-/
import TrimGuard.Proofs.ExportMarkers
import TrimGuard.Proofs.SealedProgram

namespace TrimGuard

namespace Draft

/-! ### Registered tokens -/

/-- The token is that of a registered type. -/
def IsType (d : Draft) (t : Token) : Prop := ∃ i < d.types.size, t = .ofTypeIndex i

/-- The token is that of a registered method. -/
def IsMethod (d : Draft) (m : Token) : Prop := ∃ i < d.methods.size, m = .ofMethodIndex i

variable {d : Draft}

theorem hasType_iff {t : Token} : d.hasType t = true ↔ d.IsType t :=
  Token.isSome_index?_iff d.types_fit

theorem hasMethod_iff {m : Token} : d.hasMethod m = true ↔ d.IsMethod m :=
  Token.isSome_index?_iff d.methods_fit

theorem isType_iff_row {t : Token} :
    d.IsType t ↔ t.table = Token.typeTable ∧ t.row ≠ 0 ∧ t.row.toNat ≤ d.types.size :=
  hasType_iff.symm.trans Token.isSome_index?_iff_row

theorem isMethod_iff_row {m : Token} :
    d.IsMethod m ↔ m.table = Token.methodTable ∧ m.row ≠ 0 ∧ m.row.toNat ≤ d.methods.size :=
  hasMethod_iff.symm.trans Token.isSome_index?_iff_row

/-! ### References -/

/-- A reference from one definition to another, with the token and the name of the
    definition that makes it. -/
inductive Reference where
  | ofType (owner : Token) (name : QualifiedName) (target : Token)
  | ofMethod (owner : Token) (name : String) (target : Token)
  | ofOverride (owner : Token) (name : String) (target : Token)
deriving DecidableEq

/-- What is reported of a reference that leads nowhere. -/
def Reference.fault : Reference → Fault
  | .ofType owner name target => .danglingType owner name target
  | .ofMethod owner name target => .danglingMethodType owner name target
  | .ofOverride owner name target => .danglingOverride owner name target

/-- The definition that is referred to is registered. -/
def Knows (d : Draft) : Reference → Prop
  | .ofType _ _ t => d.IsType t
  | .ofMethod _ _ t => d.IsType t
  | .ofOverride _ _ m => d.IsMethod m

/-- The references of a type: what it is nested in, what it is derived from, then its
    interfaces. -/
def typeReferences (t : Token) (e : TypeEntry) : List Reference :=
  e.enclosing.toList.map (.ofType t e.name) ++ e.base.toList.map (.ofType t e.name) ++
    e.interfaces.map (.ofType t e.name)

/-- The references of a method: its attributes, the types of its parameters, then what
    it overrides. -/
def methodReferences (m : Token) (e : MethodEntry) : List Reference :=
  e.attributes.map (.ofMethod m e.name) ++
    (e.params.filterMap Param.typeRef?).map (.ofMethod m e.name) ++
    e.overrides.map (.ofOverride m e.name)

/-- All references of the draft, in the order of registration, types before methods. -/
def references (d : Draft) : List Reference :=
  (d.typeRows.flatMap fun (t, e) => typeReferences t e) ++
    d.methodRows.flatMap fun (m, e) => methodReferences m e

/-- Everything that is referred to is registered. -/
structure Closed (d : Draft) : Prop where
  enclosing : ∀ e ∈ d.types, ∀ t, e.enclosing = some t → d.IsType t
  base : ∀ e ∈ d.types, ∀ t, e.base = some t → d.IsType t
  interfaces : ∀ e ∈ d.types, ∀ t ∈ e.interfaces, d.IsType t
  attributes : ∀ e ∈ d.methods, ∀ t ∈ e.attributes, d.IsType t
  params : ∀ e ∈ d.methods, ∀ t, .classRef t ∈ e.params ∨ .valueRef t ∈ e.params → d.IsType t
  overrides : ∀ e ∈ d.methods, ∀ m ∈ e.overrides, d.IsMethod m

theorem map_snd_typeRows : d.typeRows.map Prod.snd = d.types.toList := by
  rw [typeRows, List.map_map]
  exact List.zipIdx_map_fst 0 d.types.toList

theorem map_snd_methodRows : d.methodRows.map Prod.snd = d.methods.toList := by
  rw [methodRows, List.map_map]
  exact List.zipIdx_map_fst 0 d.methods.toList

theorem forall_typeRows_iff (P : TypeEntry → Prop) :
    (∀ row ∈ d.typeRows, P row.2) ↔ ∀ e ∈ d.types, P e := by
  simp only [← Array.mem_toList_iff, ← map_snd_typeRows, List.forall_mem_map]

theorem forall_methodRows_iff (P : MethodEntry → Prop) :
    (∀ row ∈ d.methodRows, P row.2) ↔ ∀ e ∈ d.methods, P e := by
  simp only [← Array.mem_toList_iff, ← map_snd_methodRows, List.forall_mem_map]

theorem forall_typeReferences_iff (t : Token) (e : TypeEntry) :
    (∀ x ∈ typeReferences t e, d.Knows x) ↔
      ((∀ r, e.enclosing = some r → d.IsType r) ∧ ∀ r, e.base = some r → d.IsType r) ∧
        ∀ r ∈ e.interfaces, d.IsType r := by
  simp only [typeReferences, List.forall_mem_append, List.forall_mem_map, Option.mem_toList, Knows]

theorem forall_methodReferences_iff (m : Token) (e : MethodEntry) :
    (∀ x ∈ methodReferences m e, d.Knows x) ↔
      ((∀ r ∈ e.attributes, d.IsType r) ∧
        ∀ r, .classRef r ∈ e.params ∨ .valueRef r ∈ e.params → d.IsType r) ∧
        ∀ o ∈ e.overrides, d.IsMethod o := by
  have hparam : ∀ r, r ∈ e.params.filterMap Param.typeRef? ↔
      .classRef r ∈ e.params ∨ .valueRef r ∈ e.params := by
    intro r
    simp only [List.mem_filterMap, Param.typeRef?_eq_some_iff, and_or_left, exists_or,
      exists_eq_right]
  simp only [methodReferences, List.forall_mem_append, List.forall_mem_map, hparam, Knows]

/-- A draft is closed if it knows the target of each of its references. -/
theorem closed_iff_references : d.Closed ↔ ∀ x ∈ d.references, d.Knows x := by
  simp only [references, List.forall_mem_append, List.forall_mem_flatMap,
    forall_typeReferences_iff, forall_methodReferences_iff]
  rw [forall_typeRows_iff fun e => ((∀ r, e.enclosing = some r → d.IsType r) ∧
      ∀ r, e.base = some r → d.IsType r) ∧ ∀ r ∈ e.interfaces, d.IsType r,
    forall_methodRows_iff fun e => ((∀ r ∈ e.attributes, d.IsType r) ∧
      ∀ r, .classRef r ∈ e.params ∨ .valueRef r ∈ e.params → d.IsType r) ∧
        ∀ o ∈ e.overrides, d.IsMethod o]
  constructor
  · intro h
    refine ⟨?_, ?_⟩
    · intro e he
      exact ⟨⟨h.enclosing e he, h.base e he⟩, h.interfaces e he⟩
    · intro e he
      exact ⟨⟨h.attributes e he, h.params e he⟩, h.overrides e he⟩
  · rintro ⟨ht, hm⟩
    constructor
    case enclosing => exact fun e he => (ht e he).1.1
    case base => exact fun e he => (ht e he).1.2
    case interfaces => exact fun e he => (ht e he).2
    case attributes => exact fun e he => (hm e he).1.1
    case params => exact fun e he => (hm e he).1.2
    case overrides => exact fun e he => (hm e he).2

instance (x : Reference) : Decidable (d.Knows x) :=
  match x with
  | .ofType _ _ _ => decidable_of_iff _ hasType_iff
  | .ofMethod _ _ _ => decidable_of_iff _ hasType_iff
  | .ofOverride _ _ _ => decidable_of_iff _ hasMethod_iff

theorem danglingInType?_eq (t : Token) (e : TypeEntry) :
    d.danglingInType? t e =
      ((typeReferences t e).find? fun x => ¬ d.Knows x).map Reference.fault := by
  have hunknown : ((fun x => decide (¬ d.Knows x)) ∘ Reference.ofType t e.name) =
      fun r => !d.hasType r := by
    funext r
    simp [Knows, ← hasType_iff]
  simp only [typeReferences, ← List.map_append, List.find?_map, Option.map_map, hunknown]
  rfl

theorem danglingInMethod?_eq (m : Token) (e : MethodEntry) :
    d.danglingInMethod? m e =
      ((methodReferences m e).find? fun x => ¬ d.Knows x).map Reference.fault := by
  have htype : ((fun x => decide (¬ d.Knows x)) ∘ Reference.ofMethod m e.name) =
      fun r => !d.hasType r := by
    funext r
    simp [Knows, ← hasType_iff]
  have hoverride : ((fun x => decide (¬ d.Knows x)) ∘ Reference.ofOverride m e.name) =
      fun r => !d.hasMethod r := by
    funext r
    simp [Knows, ← hasMethod_iff]
  simp only [danglingInMethod?, MethodEntry.references, methodReferences, ← List.map_append,
    List.find?_append, List.find?_map, Option.map_or, Option.map_map, htype, hoverride]
  rfl

/-- **What is reported is the first reference that leads nowhere.** -/
theorem dangling?_eq :
    d.dangling? = (d.references.find? fun x => ¬ d.Knows x).map Reference.fault := by
  simp only [dangling?, references, List.find?_append, List.find?_flatMap, Option.map_or,
    List.map_findSome?, danglingInType?_eq, danglingInMethod?_eq, Function.comp_def]

theorem closed_iff_dangling? : d.Closed ↔ d.dangling? = none := by
  rw [closed_iff_references, dangling?_eq, Option.map_eq_none_iff, List.find?_eq_none]
  simp

theorem dangling?_of_not_closed (h : ¬ d.Closed) :
    ∃ before x after, d.references = before ++ x :: after ∧ (∀ y ∈ before, d.Knows y) ∧
      ¬ d.Knows x ∧ d.dangling? = some x.fault := by
  rw [closed_iff_dangling?, dangling?_eq, Option.map_eq_none_iff] at h
  obtain ⟨x, hx⟩ := Option.ne_none_iff_exists'.mp h
  obtain ⟨hunknown, before, after, hsplit, hbefore⟩ := List.find?_eq_some_iff_append.mp hx
  refine ⟨before, x, after, hsplit, ?_, ?_, ?_⟩
  · intro y hy
    simpa using hbefore y hy
  · simpa using hunknown
  · rw [dangling?_eq, hx]
    rfl

/-! ### Sealing -/

/-- Every attribute that is overgrown stands behind one that marks an export. -/
def Shielded (d : Draft) : Prop :=
  ∀ e ∈ d.methods, d.typeTable.Shielded d.exportName e.attributes

theorem selfNamed_typeTable : d.typeTable.SelfNamed := by
  have hfit : d.typeTable.rows.size ≤ Token.lastRow := by
    rw [size_typeTable]
    exact d.types_fit
  intro t u hfind
  exact ((lookup_eq_some_iff hfit token_typeTable t u).mp hfind).2

theorem Closed.closedUnder_base (h : d.Closed) :
    d.typeTable.ClosedUnder fun u => u.base := by
  intro u hu r hr
  simp only [typeTable, TypeTable.toList, List.mem_map] at hu
  obtain ⟨⟨t, e⟩, hrow, rfl⟩ := hu
  have hentry : e ∈ d.types := by
    rw [← Array.mem_toList_iff, ← map_snd_typeRows]
    exact List.mem_map_of_mem hrow
  exact find?_of_hasType (hasType_iff.mpr (h.base e hentry r hr))

section Closed

variable (h : d.Closed)
include h

theorem sealMethod_eq_ok {e : MethodEntry}
    (hmethod : d.typeTable.Shielded d.exportName e.attributes) (m : Token) :
    ∃ sealed, d.sealMethod d.typeTable m e = .ok sealed := by
  obtain ⟨exported, hexported, -⟩ := TypeTable.anyExport_eq_ok selfNamed_typeTable
    h.closedUnder_base hmethod
  refine ⟨{ toMethodEntry := e, token := m, exported }, ?_⟩
  rw [sealMethod, hexported]
  rfl

theorem sealMethod_eq_error {e : MethodEntry}
    (hmethod : ¬ d.typeTable.Shielded d.exportName e.attributes) (m : Token) :
    d.sealMethod d.typeTable m e = .error (.depthExceeded TypeTable.attributeDepth) := by
  rw [sealMethod, TypeTable.anyExport_eq_error selfNamed_typeTable h.closedUnder_base hmethod]
  rfl

theorem sealMethods_eq_ok (hshielded : d.Shielded) :
    ∃ ms, d.sealMethods d.typeTable = .ok ms := by
  apply exists_mapM_eq_ok
  rintro ⟨m, e⟩ hrow
  exact sealMethod_eq_ok h ((forall_methodRows_iff _).mpr hshielded (m, e) hrow) m

theorem sealMethods_eq_error (hunshielded : ¬ d.Shielded) :
    d.sealMethods d.typeTable = .error (.depthExceeded TypeTable.attributeDepth) := by
  rw [Shielded, ← forall_methodRows_iff] at hunshielded
  push Not at hunshielded
  obtain ⟨⟨m, e⟩, hrow, hmethod⟩ := hunshielded
  refine mapM_eq_error ?_ hrow (sealMethod_eq_error h hmethod m)
  rintro ⟨m', e'⟩ - fault hfault
  by_cases hother : d.typeTable.Shielded d.exportName e'.attributes
  · obtain ⟨sealed, hsealed⟩ := sealMethod_eq_ok h hother m'
    simp only [hsealed] at hfault
    cases hfault
  · simp only [sealMethod_eq_error h hother m'] at hfault
    cases hfault
    rfl

/-- Of a draft that is closed, the methods decide. -/
theorem toProgram_eq_map :
    d.toProgram = (d.sealMethods d.typeTable).map fun methods =>
      { types := d.typeTable, methods := methods.toArray } := by
  rw [toProgram, closed_iff_dangling?.mp h]

theorem toProgram_of_shielded (hshielded : d.Shielded) : ∃ p, d.toProgram = .ok p := by
  obtain ⟨ms, hms⟩ := sealMethods_eq_ok h hshielded
  refine ⟨{ types := d.typeTable, methods := ms.toArray }, ?_⟩
  rw [toProgram_eq_map h, hms]
  rfl

theorem toProgram_of_not_shielded (hunshielded : ¬ d.Shielded) :
    d.toProgram = .error (.depthExceeded 64) := by
  rw [toProgram_eq_map h, sealMethods_eq_error h hunshielded]
  rfl

end Closed

theorem toProgram_of_not_closed (h : ¬ d.Closed) :
    ∃ before x after, d.references = before ++ x :: after ∧ (∀ y ∈ before, d.Knows y) ∧
      ¬ d.Knows x ∧ d.toProgram = .error x.fault := by
  obtain ⟨before, x, after, hsplit, hbefore, hx, hfault⟩ := dangling?_of_not_closed h
  refine ⟨before, x, after, hsplit, hbefore, hx, ?_⟩
  rw [toProgram, hfault]

theorem exists_toProgram_iff : (∃ p, d.toProgram = .ok p) ↔ d.Closed ∧ d.Shielded := by
  constructor
  · rintro ⟨p, hp⟩
    have hclosed : d.Closed := by
      by_contra hopen
      obtain ⟨_, x, _, -, -, -, hfault⟩ := toProgram_of_not_closed hopen
      rw [hp] at hfault
      cases hfault
    refine ⟨hclosed, ?_⟩
    by_contra hunshielded
    rw [toProgram_of_not_shielded hclosed hunshielded] at hp
    cases hp
  · rintro ⟨hclosed, hshielded⟩
    exact toProgram_of_shielded hclosed hshielded

/-- **A draft can be sealed if and only if nothing dangles and every overgrown attribute
    stands behind one that marks an export.**  Otherwise the fault is that of the first
    reference that leads nowhere or, where there is none, that a walk along more than 64
    base types was given up.  A reference leads somewhere only if its token is of the
    right table and its row is one of the rows of that table, which count from one. -/
theorem toProgram_outcome (d : Draft) :
    ((∃ p, d.toProgram = .ok p) ↔ d.Closed ∧ d.Shielded) ∧
      (¬ d.Closed → ∃ before x after, d.references = before ++ x :: after ∧
        (∀ y ∈ before, d.Knows y) ∧ ¬ d.Knows x ∧ d.toProgram = .error x.fault) ∧
      (d.Closed → ¬ d.Shielded → d.toProgram = .error (.depthExceeded 64)) ∧
      (∀ t, d.IsType t ↔
        t.table = Token.typeTable ∧ t.row ≠ 0 ∧ t.row.toNat ≤ d.types.size) ∧
      ∀ m, d.IsMethod m ↔
        m.table = Token.methodTable ∧ m.row ≠ 0 ∧ m.row.toNat ≤ d.methods.size := by
  refine ⟨exists_toProgram_iff, toProgram_of_not_closed, ?_, fun t => isType_iff_row,
    fun m => isMethod_iff_row⟩
  intro hclosed hunshielded
  exact toProgram_of_not_shielded hclosed hunshielded

/-! One method in a program with the export attribute and an attribute that is derived
from itself. -/

def endlessDraft (attributes : List Token) : Draft :=
  let app : Assembly := ⟨"App", .unknown, none⟩
  empty.registerAll [
    .type { assembly := app, name := exportAttribute },
    .type { assembly := app, name := ⟨"App", "Endless"⟩, base := some (.ofTypeIndex 1) },
    .method { owner := .ofTypeIndex 0, name := "Run", attributes }]

theorem toProgram_outcome_endless :
    let behind := endlessDraft [.ofTypeIndex 0, .ofTypeIndex 1]
    let inFront := endlessDraft [.ofTypeIndex 1, .ofTypeIndex 0]
    let stray := endlessDraft [.ofTypeIndex 0, .ofTypeIndex 2]
    (behind.Closed ∧ behind.Shielded) ∧
      (inFront.Closed ∧ ¬ inFront.Shielded ∧ inFront.toProgram = .error (.depthExceeded 64)) ∧
      ¬ stray.Closed ∧ ∃ before x after, stray.references = before ++ x :: after ∧
        (∀ y ∈ before, stray.Knows y) ∧ ¬ stray.Knows x ∧ stray.toProgram = .error x.fault := by
  intro behind inFront stray
  have hbehind : behind.toProgram.toOption.isSome = true := by decide +kernel
  have hclosed : inFront.Closed := closed_iff_dangling?.mpr (by decide +kernel)
  have hopen : ¬ stray.Closed := closed_iff_dangling?.not.mpr (by decide +kernel)
  have hunshielded : ¬ inFront.Shielded := by
    intro hshielded
    have hbase : (inFront.typeTable.find? (.ofTypeIndex 1)).map (fun u => u.base) =
        some (some (.ofTypeIndex 1)) := by decide +kernel
    have hattributes : ∃ e ∈ inFront.methods.toList,
        e.attributes = [.ofTypeIndex 1, .ofTypeIndex 0] := by decide +kernel
    obtain ⟨u, hfind, hbase⟩ := Option.map_eq_some_iff.mp hbase
    obtain ⟨e, he, hattributes⟩ := hattributes
    have hself : inFront.typeTable.LeadsTo (fun u => u.base) u u := ⟨.ofTypeIndex 1, hbase, hfind⟩
    obtain ⟨_, hshield, -⟩ := hshielded e (Array.mem_toList_iff.mp he) [] (.ofTypeIndex 1)
      [.ofTypeIndex 0] hattributes ⟨u, hfind, .inl ⟨u, .refl, .single hself⟩⟩
    cases hshield
  exact ⟨behind.toProgram_outcome.1.mp ⟨_, toProgram_of_isSome hbehind⟩,
    ⟨hclosed, hunshielded, inFront.toProgram_outcome.2.2.1 hclosed hunshielded⟩,
    hopen, stray.toProgram_outcome.2.1 hopen⟩

end Draft

end TrimGuard
