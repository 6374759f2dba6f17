/-
  TrimGuard/Proofs/RegistrationHistory.lean
  =========================================
  **A program is what was registered.**

  Tokens are handed out when a definition is registered, used by later registrations,
  and worked out again when the draft is sealed.  What ties the three together is the
  history of the registrations that were carried out, each with the token that it was
  answered with.  The rows of a draft can be read off its history (`Records`): the
  definitions in the order in which they came, each under the token it was given, and
  every type nested where it was last said to be.

  Sealing adds nothing to this.  The types and methods of the program are those of the
  history, each method is listed by its owner and by no other type, and every token
  that is stored anywhere leads to a definition (`Program.Reflects`).

  On a workbench the history is the log of the calls without those that failed
  (`Workbench.history_attempt`), and what is sealed there reflects it
  (`Workbench.reflects_attempt`).
-/
import TrimGuard.Proofs.FirstOccurrences
import TrimGuard.Proofs.SealedProgram

namespace TrimGuard

namespace Draft

/-! ### What a registration does -/

/-- A registration that succeeds adds a type, adds a method to a type that is there, or
    nests one type that is there in another. -/
theorem register_cases {d d' : Draft} {r : Registration} {t : Token}
    (h : d.register r = .ok (t, d')) :
    d'.exportName = d.exportName ∧
      ((∃ e, r = .type e ∧ e.name.name.isEmpty = false ∧ d.types.size < Token.lastRow ∧
          t = .ofTypeIndex d.types.size ∧ d'.types = d.types.push e ∧ d'.methods = d.methods) ∨
        (∃ e, r = .method e ∧ e.name.isEmpty = false ∧ d.methods.size < Token.lastRow ∧
          d.hasType e.owner = true ∧ t = .ofMethodIndex d.methods.size ∧ d'.types = d.types ∧
          d'.methods = d.methods.push e) ∨
        ∃ outer i, r = .nest t outer ∧ d.hasType outer = true ∧
          t.typeIndex? d.types.size = some i ∧
          d'.types = d.types.modify i (fun e => { e with enclosing := some outer }) ∧
          d'.methods = d.methods) := by
  rcases r with e | e | ⟨inner, outer⟩
  · simp only [register, addType] at h
    split at h
    · cases h
    next hname =>
      split at h
      next hroom =>
        cases h
        exact ⟨rfl, .inl ⟨e, rfl, by simpa using hname, hroom, rfl, rfl, rfl⟩⟩
      · cases h
  · simp only [register, addMethod] at h
    split at h
    · cases h
    next hname =>
      split at h
      next hroom =>
        split at h
        next howner =>
          cases h
          exact ⟨rfl, .inr (.inl
            ⟨e, rfl, by simpa using hname, hroom, howner, rfl, rfl, rfl⟩)⟩
        · cases h
      · cases h
  · simp only [register, nest] at h
    split at h
    next houter =>
      rcases hinner : inner.typeIndex? d.types.size with _ | i <;> rw [hinner] at h
      · cases h
      · cases h
        exact ⟨rfl, .inr (.inr ⟨outer, i, rfl, houter, hinner, rfl, rfl⟩)⟩
    · cases h

/-- Registration does not change which type marks an export. -/
theorem exportName_registerAll (d : Draft) (rs : List Registration) :
    (d.registerAll rs).exportName = d.exportName := by
  induction rs generalizing d with
  | nil => rfl
  | cons r rs ih =>
    simp only [registerAll, List.foldl_cons]
    rcases hregister : d.register r with fault | ⟨t, d'⟩
    · exact ih d
    · exact (ih d').trans (register_cases hregister).1

variable {d d' : Draft}

theorem typeRows_of_push {e : TypeEntry} (h : d'.types = d.types.push e) :
    d'.typeRows = d.typeRows ++ [(.ofTypeIndex d.types.size, e)] := by
  simp [typeRows, h, List.zipIdx_append]

theorem methodRows_of_push {e : MethodEntry} (h : d'.methods = d.methods.push e) :
    d'.methodRows = d.methodRows ++ [(.ofMethodIndex d.methods.size, e)] := by
  simp [methodRows, h, List.zipIdx_append]

/-- Changing the entry at a position changes the row of its token. -/
theorem typeRows_of_modify {f : TypeEntry → TypeEntry} {t : Token} {i : Nat}
    (hi : t.typeIndex? d.types.size = some i) (h : d'.types = d.types.modify i f) :
    d'.typeRows = d.typeRows.map fun row => if row.1 = t then (row.1, f row.2) else row := by
  apply List.ext_getElem
  · simp [typeRows, h]
  · intro j hj _
    have hrow : j < d.types.size := by simpa [typeRows, h] using hj
    have hsame : Token.ofTypeIndex j = t ↔ j = i := Token.ofRow_eq_iff d.types_fit hi hrow
    simp only [typeRows, h, Array.toList_modify, List.getElem_map, List.getElem_zipIdx, Nat.zero_add,
      hsame, List.getElem_modify, eq_comm (a := i)]
    split <;> rfl

/-! ### Histories -/

/-- Registrations that were carried out, each with the token it was answered with. -/
abbrev History := List (Registration × Token)

/-- What becomes of registrations that are tried one after the other: those that fail
    leave no trace. -/
def accepted (d : Draft) : List Registration → History
  | [] => []
  | r :: rs =>
    match d.register r with
    | .ok (t, d) => (r, t) :: d.accepted rs
    | .error _ => d.accepted rs

namespace History

/-- The types that were added, in order, as they were described at the time. -/
def addedTypes (h : History) : List (Token × TypeEntry) :=
  h.filterMap fun
    | (.type e, t) => some (t, e)
    | _ => none

/-- The methods that were added, in order. -/
def addedMethods (h : History) : List (Token × MethodEntry) :=
  h.filterMap fun
    | (.method e, m) => some (m, e)
    | _ => none

/-- The type that `t` was nested in last, if it was nested after it had been added. -/
def lastOuter? (h : History) (t : Token) : Option Token :=
  (h.filterMap fun
    | (.nest inner outer, _) => if inner = t then some outer else none
    | _ => none).getLast?

/-- The types that were added, in order, each nested where it was last said to be. -/
def types (h : History) : List (Token × TypeEntry) :=
  h.addedTypes.map fun (t, e) => (t, { e with enclosing := (h.lastOuter? t).or e.enclosing })

/-- The assemblies of the types that were added, in order. -/
def owners (h : History) : List Assembly := h.addedTypes.map fun (_, e) => e.assembly

theorem lastOuter?_concat_nest (h : History) (inner outer t u : Token) :
    lastOuter? (h ++ [(.nest inner outer, t)]) u =
      if inner = u then some outer else h.lastOuter? u := by
  rw [lastOuter?, List.filterMap_append]
  by_cases hsame : inner = u <;> simp [hsame, lastOuter?]

/-- A type that is added is where it says, if its token is new. -/
theorem types_concat_type (h : History) (e : TypeEntry) {t : Token} (hnew : h.lastOuter? t = none) :
    types (h ++ [(.type e, t)]) = h.types ++ [(t, e)] := by
  have hadded : addedTypes (h ++ [(.type e, t)]) = h.addedTypes ++ [(t, e)] := by
    simp [addedTypes]
  have houter : ∀ u, lastOuter? (h ++ [(.type e, t)]) u = h.lastOuter? u := by
    intro u
    simp [lastOuter?]
  simp only [types, hadded, houter, List.map_append, List.map_cons, List.map_nil, hnew,
    Option.none_or]

theorem types_concat_method (h : History) (e : MethodEntry) (m : Token) :
    types (h ++ [(.method e, m)]) = h.types := by
  simp [types, addedTypes, lastOuter?]

theorem types_concat_nest (h : History) (inner outer t : Token) :
    types (h ++ [(.nest inner outer, t)]) =
      h.types.map fun row =>
        if row.1 = inner then (row.1, { row.2 with enclosing := some outer }) else row := by
  have hadded : addedTypes (h ++ [(.nest inner outer, t)]) = h.addedTypes := by
    simp [addedTypes]
  rw [types, types, hadded, List.map_map]
  apply List.map_congr_left
  rintro ⟨u, e⟩ -
  simp only [lastOuter?_concat_nest, Function.comp_apply, eq_comm (a := u)]
  split <;> rfl

end History

/-! ### The rows of a draft -/

/-- The rows of the draft are those of the history, and only types that are there were
    nested. -/
structure Records (d : Draft) (h : History) : Prop where
  types : d.typeRows = h.types
  methods : d.methodRows = h.addedMethods
  nested : ∀ t, d.hasType t = false → h.lastOuter? t = none

theorem records_empty (exportName : QualifiedName) : (empty exportName).Records [] :=
  ⟨rfl, rfl, fun _ _ => rfl⟩

/-- The token of a new type is not that of a type that is there. -/
theorem hasType_ofTypeIndex_size (hroom : d.types.size < Token.lastRow) :
    d.hasType (.ofTypeIndex d.types.size) = false := by
  have hindex := @Token.index?_ofRow Token.typeTable d.types.size _ hroom
  rw [if_neg (Nat.lt_irrefl _)] at hindex
  exact congrArg Option.isSome hindex

theorem hasType_mono (hsize : d.types.size ≤ d'.types.size) {t : Token}
    (h : d'.hasType t = false) : d.hasType t = false := by
  by_contra hknown
  rw [Bool.not_eq_false] at hknown
  obtain ⟨i, hi⟩ := Option.isSome_iff_exists.mp hknown
  have hlater := Option.isSome_of_eq_some (Token.index?_mono hsize hi)
  exact Bool.false_ne_true (h.symm.trans hlater)

theorem records_register {r : Registration} {t : Token} (hregister : d.register r = .ok (t, d'))
    {h : History} (hd : d.Records h) : d'.Records (h ++ [(r, t)]) := by
  obtain ⟨-, hcase⟩ := register_cases hregister
  rcases hcase with ⟨e, rfl, -, hroom, rfl, htypes, hmethods⟩ |
    ⟨e, rfl, -, -, -, rfl, htypes, hmethods⟩ | ⟨outer, i, rfl, -, hi, htypes, hmethods⟩
  · constructor
    case types =>
      rw [typeRows_of_push htypes, hd.types,
        h.types_concat_type e (hd.nested _ (hasType_ofTypeIndex_size hroom))]
    case methods =>
      rw [methodRows, hmethods, ← methodRows, hd.methods]
      simp [History.addedMethods]
    case nested =>
      intro t ht
      have hold := hd.nested t (hasType_mono (by simp [htypes]) ht)
      simpa [History.lastOuter?] using hold
  · constructor
    case types => rw [typeRows, htypes, ← typeRows, hd.types, h.types_concat_method]
    case methods =>
      rw [methodRows_of_push hmethods, hd.methods]
      simp [History.addedMethods]
    case nested =>
      intro t ht
      have hold := hd.nested t (hasType_mono (by simp [htypes]) ht)
      simpa [History.lastOuter?] using hold
  · constructor
    case types => rw [typeRows_of_modify hi htypes, hd.types, h.types_concat_nest]
    case methods =>
      rw [methodRows, hmethods, ← methodRows, hd.methods]
      simp [History.addedMethods]
    case nested =>
      intro u hu
      have hunknown : d.hasType u = false := hasType_mono (by simp [htypes]) hu
      have hother : t ≠ u := by
        rintro rfl
        rw [hasType, hi] at hunknown
        cases hunknown
      rw [History.lastOuter?_concat_nest, if_neg hother]
      exact hd.nested u hunknown

theorem records_registerAll {h : History} (hd : d.Records h) (rs : List Registration) :
    (d.registerAll rs).Records (h ++ d.accepted rs) := by
  induction rs generalizing d h with
  | nil => simpa [registerAll, accepted] using hd
  | cons r rs ih =>
    simp only [registerAll, List.foldl_cons, accepted]
    rcases hregister : d.register r with fault | ⟨t, d'⟩
    · exact ih hd
    · have hrest := ih (records_register hregister hd)
      rwa [List.append_assoc, List.singleton_append] at hrest

end Draft

/-! ### Sealed programs -/

/-- The program holds what was registered, and nothing in it leads elsewhere. -/
structure Program.Reflects (p : Program) (h : Draft.History) : Prop where
  types : p.types.toList.map (fun t => (t.token, t.toTypeEntry)) = h.types
  methods : p.methods.toList.map (fun m => (m.token, m.toMethodEntry)) = h.addedMethods
  /-- A type declares the methods that were registered on it, in that order. -/
  declared : ∀ t ∈ p.types.toList,
    t.methods = (h.addedMethods.filter fun row => row.2.owner = t.token).map Prod.fst
  /-- Looking them up loses none. -/
  methodsOf : ∀ t ∈ p.types.toList, (p.methodsOf t).map (fun m => m.token) = t.methods
  /-- A method is declared by its owner, once, and by no other type. -/
  owned : ∀ m ∈ p.methods.toList, ∃ t ∈ p.types.toList, t.token = m.owner ∧
    ∀ u ∈ p.types.toList, u.methods.count m.token = if u = t then 1 else 0
  /-- Every type and method is found under its token. -/
  typeFound : ∀ t ∈ p.types.toList, p.type? t.token = some t
  methodFound : ∀ m ∈ p.methods.toList, p.method? m.token = some m
  /-- Every token that a definition stores leads to a definition. -/
  declaredFound : ∀ t ∈ p.types.toList, ∀ m ∈ t.methods, ∃ d, p.method? m = some d
  ownerFound : ∀ m ∈ p.methods.toList, ∃ t, p.type? m.owner = some t
  typesLinked : p.Linked
  methodsLinked : p.MethodsLinked
  /-- Each owner of a type is listed once, in the order of first mention. -/
  mem_assemblies : ∀ a, a ∈ p.types.assemblies ↔ a ∈ h.owners
  nodup_assemblies : p.types.assemblies.Nodup
  assemblies_order : p.types.assemblies.Pairwise fun a b => h.owners.idxOf a < h.owners.idxOf b

/-- A type lists a method once if it owns it, and else not at all. -/
theorem Program.Sealed.count_methods {p : Program} (hp : p.Sealed) {t : TypeDef}
    (ht : t ∈ p.types.toList) {m : MethodDef} (hm : m ∈ p.methods.toList) :
    t.methods.count m.token = if m.owner = t.token then 1 else 0 := by
  have hlist : t.methods = (p.methodsOf t).map fun m => m.token := by
    rw [hp.methodsOf_eq ht, hp.methods_eq t ht]
  have hmem : m.token ∈ t.methods ↔ m.owner = t.token := by
    rw [hlist, List.mem_map]
    constructor
    · rintro ⟨n, hn, htoken⟩
      obtain ⟨hn, howner⟩ := (hp.mem_methodsOf_iff ht n).mp hn
      rw [← hp.method_ext hn hm htoken]
      exact howner
    · intro howner
      exact ⟨m, (hp.mem_methodsOf_iff ht m).mpr ⟨hm, howner⟩, rfl⟩
  have hnodup : t.methods.Nodup := by
    rw [hlist]
    exact hp.nodup_methodsOf ht
  rw [hnodup.count]
  simp only [hmem]

namespace Draft

theorem rows_typeTable {d : Draft} :
    d.typeTable.toList.map (fun t => (t.token, t.toTypeEntry)) = d.typeRows := by
  simp [typeTable, TypeTable.toList, Function.comp_def]

theorem owners_types (h : History) : h.types.map (fun row => row.2.assembly) = h.owners := by
  simp [History.types, History.owners, Function.comp_def]

/-- **A sealed program reflects the history of its draft.** -/
theorem reflects_of_records {d : Draft} {h : History} (hd : d.Records h) {p : Program}
    (hbuild : d.toProgram = .ok p) : p.Reflects h := by
  have hp := sealed_of_toProgram hbuild
  obtain ⟨-, htable, ms, hms, hmethods⟩ := toProgram_eq_ok hbuild
  have htypes : p.types.toList.map (fun t => (t.token, t.toTypeEntry)) = h.types := by
    rw [htable, rows_typeTable, hd.types]
  have howners : p.types.assemblies = h.owners.eraseDups := by
    rw [TypeTable.assemblies, ← owners_types, ← htypes, List.map_map]
    rfl
  constructor
  case types => exact htypes
  case methods => rw [hmethods, sealMethods_rows hms, hd.methods]
  case declared =>
    intro t ht
    rw [← hd.methods, ← sealMethods_rows hms, hp.methods_eq t ht, hmethods, List.filter_map,
      List.map_map]
    rfl
  case methodsOf =>
    intro t ht
    rw [hp.methodsOf_eq ht, hp.methods_eq t ht]
  case owned =>
    intro m hm
    obtain ⟨t, ht, howner, -⟩ := hp.ownerOf_eq hm
    refine ⟨t, ht, howner, ?_⟩
    intro u hu
    have hsame : m.owner = u.token ↔ u = t := by
      rw [← howner]
      constructor
      · intro htoken
        exact hp.type_ext hu ht htoken.symm
      · rintro rfl
        rfl
    rw [hp.count_methods hu hm]
    simp only [hsame]
  case typeFound => exact fun t ht => hp.find?_token ht
  case methodFound => exact fun m hm => hp.method?_token hm
  case declaredFound =>
    intro t ht m hm
    rw [hp.methods_eq t ht] at hm
    obtain ⟨d, hd, rfl⟩ := List.mem_map.mp hm
    exact ⟨d, hp.method?_token (List.mem_filter.mp hd).1⟩
  case ownerFound => exact hp.owner_known
  case typesLinked => exact linked_of_toProgram hbuild
  case methodsLinked => exact methodsLinked_of_toProgram hbuild
  case mem_assemblies =>
    intro a
    rw [howners, List.mem_eraseDups]
  case nodup_assemblies =>
    rw [howners]
    exact nodup_eraseDups h.owners
  case assemblies_order =>
    rw [howners]
    exact pairwise_idxOf_eraseDups h.owners

/-- **Whatever is registered, in whatever order, and whichever registrations fail: if
    the result can be sealed, the program reflects the registrations that were carried
    out.**  The limits of the tables need not be assumed, a registration that exceeds
    them fails. -/
theorem reflects_accepted {exportName : QualifiedName} {rs : List Registration} {p : Program}
    (hbuild : ((empty exportName).registerAll rs).toProgram = .ok p) :
    p.Reflects ((empty exportName).accepted rs) :=
  reflects_of_records (records_registerAll (records_empty exportName) rs) hbuild

/-- Types and methods in turn, with two registrations that fail, and with a type that
    is nested anew twice. -/
def interleaved : List Registration :=
  let ios : Assembly := ⟨"Xamarin.iOS", .unknown, none⟩
  let app : Assembly := ⟨"App", .unknown, none⟩
  [ .type { assembly := ios, name := ⟨"UIKit", "View"⟩ },
    .method { owner := .ofTypeIndex 0, name := "Draw" },
    .type { assembly := app, name := ⟨"App", ""⟩ },
    .type { assembly := app, name := ⟨"App", "Inner"⟩, enclosing := some (.ofTypeIndex 0) },
    .method { owner := .ofTypeIndex 1, name := "Draw", overrides := [.ofMethodIndex 0] },
    .method { owner := .ofTypeIndex 2, name := "Lost" },
    .type { assembly := ios, name := ⟨"UIKit", "Layer"⟩ },
    .nest (.ofTypeIndex 1) (.ofTypeIndex 1),
    .method { owner := .ofTypeIndex 0, name := "Hide" },
    .nest (.ofTypeIndex 1) (.ofTypeIndex 2) ]

theorem reflects_accepted_interleaved :
    ∃ p, (empty.registerAll interleaved).toProgram = .ok p ∧
      p.types.toList.map (fun t => (t.token, t.enclosing)) =
        [(.ofTypeIndex 0, none), (.ofTypeIndex 1, some (.ofTypeIndex 2)),
          (.ofTypeIndex 2, none)] ∧
      p.Reflects (empty.accepted interleaved) := by
  have hbuild := toProgram_of_isSome
    (d := empty.registerAll interleaved) (by decide +kernel)
  have hreflects := reflects_accepted hbuild
  refine ⟨_, hbuild, ?_, hreflects⟩
  have htypes := congrArg (List.map fun row => (row.1, row.2.enclosing)) hreflects.types
  rw [List.map_map] at htypes
  refine htypes.trans ?_
  decide +kernel

end Draft

end TrimGuard
