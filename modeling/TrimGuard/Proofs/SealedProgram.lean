/-
  TrimGuard/Proofs/SealedProgram.lean
  ===================================
  **What can be relied on in a sealed program.**

  The pass finds its way through a program by tokens, and tokens are positions.
  A program made by hand may say anything; one that comes out of `Draft.toProgram`
  names every type and method by its own position, lists each method under its
  owner and under no other type, and has the owner of every method.  `Sealed`
  collects these facts, `Draft.sealed_of_toProgram` proves them once, and the
  theorems about the pass use nothing else of how a program was made.

  A program that comes off a workbench is sealed in the same sense.  It is the one that
  the draft of the same calls is sealed to (`Workbench.toProgram_attempt`), so a theorem
  with the hypothesis `d.toProgram = .ok p` applies to it with that draft for `d`.
-/
import TrimGuard.Draft.Seal
import Mathlib.Data.List.Forall2
import Mathlib.Data.List.Nodup

namespace TrimGuard

/-! ### Rows that carry their own token

Types and methods are looked up in the same way, in an array whose position `i`
holds row `i + 1`.  If every row is named by its own position, then a lookup by
token is a search for the row of that name. -/

section Rows

variable {α : Type} {table : UInt8} {rows : Array α} {name : α → Token}

theorem lookup_eq_some_iff (hfit : rows.size ≤ Token.lastRow)
    (hname : ∀ i (h : i < rows.size), name rows[i] = .ofRow table (UInt32.ofNat (i + 1)))
    (t : Token) (d : α) :
    ((t.index? table rows.size).bind fun i => rows[i]?) = some d ↔ d ∈ rows.toList ∧ name d = t := by
  constructor
  · intro h
    obtain ⟨i, hi, hd⟩ := Option.bind_eq_some_iff.mp h
    obtain ⟨hlt, rfl⟩ := Array.getElem?_eq_some_iff.mp hd
    refine ⟨Array.mem_toList_iff.mpr (Array.getElem_mem hlt), ?_⟩
    rw [hname i hlt]
    exact Token.ofRow_of_index? hi
  · rintro ⟨hd, rfl⟩
    obtain ⟨i, hlt, rfl⟩ := Array.mem_iff_getElem.mp (Array.mem_toList_iff.mp hd)
    have hrow : i < Token.lastRow := Nat.lt_of_lt_of_le hlt hfit
    rw [hname i hlt, Token.index?_ofRow hrow, if_pos hlt]
    exact Array.getElem?_eq_getElem hlt

theorem nodup_names (hfit : rows.size ≤ Token.lastRow)
    (hname : ∀ i (h : i < rows.size), name rows[i] = .ofRow table (UInt32.ofNat (i + 1))) :
    (rows.toList.map name).Nodup := by
  rw [List.Nodup, List.pairwise_iff_getElem]
  intro i j hi hj hij heq
  simp only [List.length_map, Array.length_toList] at hi hj
  simp only [List.getElem_map, Array.getElem_toList, hname i hi, hname j hj] at heq
  exact Nat.ne_of_lt hij ((Token.ofRow_inj (Nat.lt_of_lt_of_le hi hfit)
    (Nat.lt_of_lt_of_le hj hfit)).mp heq)

end Rows

/-! ### Sealed programs -/

/-- The program is one that sealing can lead to: every definition is named by its
    position, and methods and owners know each other. -/
structure Program.Sealed (p : Program) : Prop where
  types_fit : p.types.rows.size ≤ Token.lastRow
  methods_fit : p.methods.size ≤ Token.lastRow
  type_token : ∀ i (h : i < p.types.rows.size), p.types.rows[i].token = .ofTypeIndex i
  method_token : ∀ i (h : i < p.methods.size), p.methods[i].token = .ofMethodIndex i
  methods_eq : ∀ t ∈ p.types.toList,
    t.methods = (p.methods.toList.filter fun m => m.owner = t.token).map fun m => m.token
  owner_known : ∀ m ∈ p.methods.toList, ∃ t, p.types.find? m.owner = some t

namespace Program.Sealed

variable {p : Program} (hp : p.Sealed)
include hp

theorem find?_eq_some_iff (t : Token) (d : TypeDef) :
    p.types.find? t = some d ↔ d ∈ p.types.toList ∧ d.token = t :=
  lookup_eq_some_iff hp.types_fit hp.type_token t d

theorem method?_eq_some_iff (m : Token) (d : MethodDef) :
    p.method? m = some d ↔ d ∈ p.methods.toList ∧ d.token = m :=
  lookup_eq_some_iff hp.methods_fit hp.method_token m d

theorem nodup_typeTokens : (p.types.toList.map fun t => t.token).Nodup :=
  nodup_names hp.types_fit hp.type_token

theorem nodup_methodTokens : (p.methods.toList.map fun m => m.token).Nodup :=
  nodup_names hp.methods_fit hp.method_token

theorem nodup_types : p.types.toList.Nodup := List.Nodup.of_map _ hp.nodup_typeTokens

theorem find?_token {t : TypeDef} (ht : t ∈ p.types.toList) : p.types.find? t.token = some t :=
  (hp.find?_eq_some_iff t.token t).mpr ⟨ht, rfl⟩

theorem method?_token {m : MethodDef} (hm : m ∈ p.methods.toList) :
    p.method? m.token = some m :=
  (hp.method?_eq_some_iff m.token m).mpr ⟨hm, rfl⟩

theorem type_ext {t u : TypeDef} (ht : t ∈ p.types.toList) (hu : u ∈ p.types.toList)
    (h : t.token = u.token) : t = u := by
  have hfind := hp.find?_token ht
  rw [h, hp.find?_token hu] at hfind
  exact (Option.some.inj hfind).symm

theorem method_ext {m n : MethodDef} (hm : m ∈ p.methods.toList) (hn : n ∈ p.methods.toList)
    (h : m.token = n.token) : m = n := by
  have hfind := hp.method?_token hm
  rw [h, hp.method?_token hn] at hfind
  exact (Option.some.inj hfind).symm

/-- The methods of a type are the methods it owns. -/
theorem methodsOf_eq {t : TypeDef} (ht : t ∈ p.types.toList) :
    p.methodsOf t = p.methods.toList.filter fun m => m.owner = t.token := by
  rw [Program.methodsOf, hp.methods_eq t ht, List.filterMap_map]
  have hself : ∀ m ∈ p.methods.toList.filter (fun m => m.owner = t.token),
      (p.method? ∘ fun m => m.token) m = some m := by
    intro m hm
    exact hp.method?_token (List.mem_filter.mp hm).1
  rw [List.filterMap_congr hself]
  exact List.filterMap_some

theorem mem_methodsOf_iff {t : TypeDef} (ht : t ∈ p.types.toList) (m : MethodDef) :
    m ∈ p.methodsOf t ↔ m ∈ p.methods.toList ∧ m.owner = t.token := by
  rw [hp.methodsOf_eq ht, List.mem_filter, decide_eq_true_eq]

theorem nodup_methodsOf {t : TypeDef} (ht : t ∈ p.types.toList) :
    ((p.methodsOf t).map fun m => m.token).Nodup := by
  rw [hp.methodsOf_eq ht]
  exact hp.nodup_methodTokens.sublist (List.filter_sublist.map _)

theorem ownerOf_eq {m : MethodDef} (hm : m ∈ p.methods.toList) :
    ∃ t ∈ p.types.toList, t.token = m.owner ∧ p.ownerOf m = .ok t := by
  obtain ⟨t, ht⟩ := hp.owner_known m hm
  obtain ⟨hmem, htoken⟩ := (hp.find?_eq_some_iff _ _).mp ht
  refine ⟨t, hmem, htoken, ?_⟩
  simp only [Program.ownerOf, Program.type?, ht]

end Program.Sealed

/-- The types that a type refers to are types of the program. -/
def Program.Linked (p : Program) : Prop :=
  ∀ t ∈ p.types.toList, ∀ r ∈ t.references, ∃ u, p.types.find? r = some u

/-- The types and methods that a method refers to are those of the program. -/
def Program.MethodsLinked (p : Program) : Prop :=
  ∀ m ∈ p.methods.toList,
    (∀ r ∈ m.references, ∃ u, p.types.find? r = some u) ∧
      ∀ o ∈ m.overrides, ∃ n, p.method? o = some n

/-- The overriders of a method are the methods that record the override. -/
theorem Program.mem_overridersOf_iff (p : Program) (m o : Token) :
    o ∈ p.overridersOf m ↔ ∃ d ∈ p.methods.toList, m ∈ d.overrides ∧ d.token = o := by
  rw [Program.overridersOf, p.overriders_eq, Token.Index.under_ofPairs]
  simp only [overrideEdges, List.mem_map, List.mem_filter, List.mem_flatMap, decide_eq_true_eq]
  constructor
  · rintro ⟨_, ⟨⟨d, hd, b, hb, rfl⟩, rfl⟩, rfl⟩
    exact ⟨d, hd, hb, rfl⟩
  · rintro ⟨d, hd, hm, rfl⟩
    exact ⟨(m, d.token), ⟨⟨d, hd, m, hm, rfl⟩, rfl⟩, rfl⟩

/-! ### Sealing

Sealing builds the rows of a program from the rows of a draft, one by one.  What
is read back from them is what was registered. -/

/-- There is a list of results if and only if there is a result for each, one by one. -/
theorem mapM_eq_ok_iff {α β ε : Type} {f : α → Except ε β} {as : List α} {bs : List β} :
    as.mapM f = .ok bs ↔ List.Forall₂ (fun a b => f a = .ok b) as bs := by
  induction as generalizing bs with
  | nil => simp [pure, Except.pure, eq_comm]
  | cons a as ih =>
    rw [List.mapM_cons, List.forall₂_cons_left_iff]
    rcases ha : f a with fault | b
    · simp [bind, Except.bind]
    · rcases has : as.mapM f with fault | cs
      · simp [bind, Except.bind, ← ih, has]
      · simp [bind, Except.bind, pure, Except.pure, ← ih, has, eq_comm]

/-- What can be read back from each single result can be read back from all. -/
theorem map_of_mapM_eq_ok {α β ε : Type} {f : α → Except ε β} {read : β → α}
    (hread : ∀ a b, f a = .ok b → read b = a) {as : List α} {bs : List β}
    (h : as.mapM f = .ok bs) : bs.map read = as := by
  rw [mapM_eq_ok_iff] at h
  induction h with
  | nil => rfl
  | cons hhead _ ih => rw [List.map_cons, hread _ _ hhead, ih]

theorem mem_of_mapM_eq_ok {α β ε : Type} {f : α → Except ε β} {as : List α} {bs : List β}
    (h : as.mapM f = .ok bs) {b : β} (hb : b ∈ bs) : ∃ a ∈ as, f a = .ok b := by
  rw [mapM_eq_ok_iff] at h
  induction h with
  | nil => cases hb
  | @cons a _ as _ hhead _ ih =>
    rcases List.mem_cons.mp hb with rfl | hb
    · exact ⟨a, List.mem_cons_self, hhead⟩
    · obtain ⟨a', ha', hfound⟩ := ih hb
      exact ⟨a', List.mem_cons_of_mem a ha', hfound⟩

theorem exists_of_mapM_eq_ok {α β ε : Type} {f : α → Except ε β} {as : List α} {bs : List β}
    (h : as.mapM f = .ok bs) {a : α} (ha : a ∈ as) : ∃ b, f a = .ok b := by
  rw [mapM_eq_ok_iff] at h
  induction h with
  | nil => cases ha
  | cons hhead _ ih =>
    rcases List.mem_cons.mp ha with rfl | ha
    · exact ⟨_, hhead⟩
    · exact ih ha

theorem exists_mapM_eq_ok {α β ε : Type} {f : α → Except ε β} {as : List α}
    (h : ∀ a ∈ as, ∃ b, f a = .ok b) : ∃ bs, as.mapM f = .ok bs := by
  induction as with
  | nil => exact ⟨[], rfl⟩
  | cons a as ih =>
    obtain ⟨⟨b, hb⟩, hrest⟩ := List.forall_mem_cons.mp h
    obtain ⟨bs, hbs⟩ := ih hrest
    refine ⟨b :: bs, ?_⟩
    rw [List.mapM_cons, hb, hbs]
    rfl

/-- The last result is that for the last element. -/
theorem getLast?_of_mapM_eq_ok {α β ε : Type} {f : α → Except ε β} {as : List α} {bs : List β}
    (h : as.mapM f = .ok bs) {a : α} (ha : as.getLast? = some a) :
    ∃ b, bs.getLast? = some b ∧ f a = .ok b := by
  have hreverse := List.forall₂_reverse_iff.mpr (mapM_eq_ok_iff.mp h)
  rw [← List.head?_reverse] at ha ⊢
  generalize as.reverse = as at hreverse ha
  generalize bs.reverse = bs at hreverse
  cases hreverse with
  | nil => cases ha
  | cons hhead _ =>
    cases ha
    exact ⟨_, rfl, hhead⟩

/-- The first failure is the one that is reported. -/
theorem mapM_eq_first_error {α β ε : Type} {f : α → Except ε β} {before after : List α} {a : α}
    {e : ε} (hbefore : ∀ x ∈ before, ∃ b, f x = .ok b) (h : f a = .error e) :
    (before ++ a :: after).mapM f = .error e := by
  obtain ⟨bs, hbs⟩ := exists_mapM_eq_ok hbefore
  rw [List.mapM_append, hbs, List.mapM_cons, h]
  rfl

theorem mapM_eq_error_iff {α β ε : Type} {f : α → Except ε β} {as : List α} {e : ε} :
    as.mapM f = .error e ↔ ∃ before a after, as = before ++ a :: after ∧
      (∀ x ∈ before, ∃ b, f x = .ok b) ∧ f a = .error e := by
  constructor
  · intro h
    induction as with
    | nil => cases h
    | cons a as ih =>
      rw [List.mapM_cons] at h
      rcases ha : f a with e' | b <;> rw [ha] at h
      · cases h
        exact ⟨[], a, as, rfl, List.forall_mem_nil _, ha⟩
      · rcases has : as.mapM f with e' | bs <;> rw [has] at h <;> cases h
        obtain ⟨before, c, after, rfl, hbefore, hc⟩ := ih has
        exact ⟨a :: before, c, after, rfl, List.forall_mem_cons.mpr ⟨⟨b, ha⟩, hbefore⟩, hc⟩
  · rintro ⟨before, a, after, rfl, hbefore, ha⟩
    exact mapM_eq_first_error hbefore ha

/-- Where all failures are alike, one is enough to tell the outcome. -/
theorem mapM_eq_error {α β ε : Type} {f : α → Except ε β} {as : List α} {e : ε}
    (halike : ∀ a ∈ as, ∀ e', f a = .error e' → e' = e) {a : α} (ha : a ∈ as)
    (h : f a = .error e) : as.mapM f = .error e := by
  induction as with
  | nil => cases ha
  | cons c as ih =>
    obtain ⟨hhead, htail⟩ := List.forall_mem_cons.mp halike
    rw [List.mapM_cons]
    rcases hc : f c with e' | b
    · rw [hhead e' hc]
      rfl
    · have hmem : a ∈ as := by
        rcases List.mem_cons.mp ha with rfl | hmem
        · rw [hc] at h
          cases h
        · exact hmem
      rw [ih htail hmem]
      rfl

namespace Draft

variable {d : Draft}

theorem size_typeTable : d.typeTable.rows.size = d.types.size := by
  simp [typeTable, typeRows]

theorem token_typeTable (i : Nat) (h : i < d.typeTable.rows.size) :
    d.typeTable.rows[i].token = .ofTypeIndex i := by
  simp [typeTable, typeRows]

theorem methods_typeTable {t : TypeDef} (ht : t ∈ d.typeTable.toList) :
    t.methods = d.methodIndex.under t.token := by
  simp only [typeTable, TypeTable.toList, List.mem_map] at ht
  obtain ⟨_, _, rfl⟩ := ht
  rfl

theorem find?_of_hasType {t : Token} (h : d.hasType t = true) :
    ∃ u, d.typeTable.find? t = some u := by
  obtain ⟨i, hi⟩ := Option.isSome_iff_exists.mp h
  have hlt : i < d.typeTable.rows.size := by
    rw [size_typeTable]
    exact Token.lt_of_index? hi
  refine ⟨d.typeTable.rows[i], Option.bind_eq_some_iff.mpr ⟨i, ?_, Array.getElem?_eq_getElem hlt⟩⟩
  rw [TypeTable.size, size_typeTable]
  exact hi

theorem sealMethods_rows {types : TypeTable} {ms : List MethodDef}
    (h : d.sealMethods types = .ok ms) :
    ms.map (fun m => (m.token, m.toMethodEntry)) = d.methodRows := by
  refine map_of_mapM_eq_ok ?_ h
  rintro ⟨m, e⟩ sealed hsealed
  simp only [sealMethod] at hsealed
  cases hexport : types.anyExport d.exportName e.attributes with
  | error fault => rw [hexport] at hsealed; cases hsealed
  | ok exported =>
    rw [hexport] at hsealed
    cases hsealed
    rfl

theorem length_sealMethods {types : TypeTable} {ms : List MethodDef}
    (h : d.sealMethods types = .ok ms) : ms.length = d.methods.size := by
  have hlength := congrArg List.length (sealMethods_rows h)
  simpa [methodRows] using hlength

theorem token_sealMethods {types : TypeTable} {ms : List MethodDef}
    (h : d.sealMethods types = .ok ms) (i : Nat) (hi : i < ms.length) :
    ms[i].token = .ofMethodIndex i := by
  have hget := congrArg (fun rows => rows[i]?) (sealMethods_rows h)
  have hi' : i < d.methods.size := by
    rw [← length_sealMethods h]
    exact hi
  simp only [methodRows, List.getElem?_map, List.getElem?_eq_getElem hi, Option.map_some,
    List.getElem?_zipIdx, Array.getElem?_toList, Array.getElem?_eq_getElem hi', Nat.zero_add,
    Option.some.injEq, Prod.mk.injEq] at hget
  exact hget.1

/-- Sealing succeeds only where nothing dangles and every method can be sealed. -/
theorem toProgram_eq_ok {p : Program} (h : d.toProgram = .ok p) :
    d.dangling? = none ∧ p.types = d.typeTable ∧
      ∃ ms, d.sealMethods d.typeTable = .ok ms ∧ p.methods = ms.toArray := by
  unfold toProgram at h
  cases hdangling : d.dangling? with
  | some fault => rw [hdangling] at h; cases h
  | none =>
    rw [hdangling] at h
    cases hms : d.sealMethods d.typeTable with
    | error fault => simp only [hms] at h; cases h
    | ok ms =>
      simp only [hms] at h
      cases h
      exact ⟨rfl, rfl, ms, rfl, rfl⟩

theorem toProgram_of_isSome (h : d.toProgram.toOption.isSome = true) :
    d.toProgram = .ok (d.toProgram.toOption.get h) := by
  obtain ⟨p, hp⟩ := Option.isSome_iff_exists.mp h
  rw [Option.get_of_eq_some h hp]
  rcases hbuild : d.toProgram with fault | q <;> rw [hbuild] at hp
  · cases hp
  · exact congrArg Except.ok (Option.some.inj hp)

/-- The methods of the program are those that were registered. -/
theorem mem_methodRows_iff {p : Program} (h : d.toProgram = .ok p) (row : Token × MethodEntry) :
    row ∈ d.methodRows ↔ ∃ m ∈ p.methods.toList, (m.token, m.toMethodEntry) = row := by
  obtain ⟨-, -, ms, hms, hmethods⟩ := toProgram_eq_ok h
  rw [← sealMethods_rows hms, hmethods]
  exact List.mem_map

/-- **What sealing makes is sealed.** -/
theorem sealed_of_toProgram {p : Program} (h : d.toProgram = .ok p) : p.Sealed := by
  obtain ⟨-, htypes, ms, hms, hmethods⟩ := toProgram_eq_ok h
  have hrows := sealMethods_rows hms
  have hsize : p.methods.size = d.methods.size := by
    rw [hmethods, List.size_toArray]
    exact length_sealMethods hms
  constructor
  case types_fit =>
    rw [htypes, size_typeTable]
    exact d.types_fit
  case methods_fit =>
    rw [hsize]
    exact d.methods_fit
  case type_token =>
    rw [htypes]
    exact token_typeTable
  case method_token =>
    simp only [hmethods, List.getElem_toArray, List.size_toArray]
    exact token_sealMethods hms
  case methods_eq =>
    intro t ht
    rw [htypes] at ht
    rw [methods_typeTable ht, methodIndex, Token.Index.under_ofPairs, ← hrows, hmethods]
    simp only [List.map_map, List.filter_map, Function.comp_def]
  case owner_known =>
    intro m hm
    obtain ⟨⟨e, i⟩, he, heq⟩ := List.mem_map.mp ((mem_methodRows_iff h _).mpr ⟨m, hm, rfl⟩)
    have hentry : m.toMethodEntry ∈ d.methods := by
      have hfst := List.fst_mem_of_mem_zipIdx he
      simp only [Prod.mk.injEq] at heq
      rw [← heq.2]
      exact Array.mem_toList_iff.mp hfst
    rw [htypes]
    exact find?_of_hasType (d.owners_known _ hentry)

/-- **What sealing makes refers to nothing outside.** -/
theorem linked_of_toProgram {p : Program} (h : d.toProgram = .ok p) : p.Linked := by
  obtain ⟨hdangling, htypes, -⟩ := toProgram_eq_ok h
  have hrows := (Option.or_eq_none_iff.mp hdangling).1
  intro t ht r hr
  rw [htypes] at ht ⊢
  simp only [typeTable, TypeTable.toList, List.mem_map] at ht
  obtain ⟨⟨m, e⟩, hrow, rfl⟩ := ht
  have hnone : d.danglingInType? m e = none := List.findSome?_eq_none_iff.mp hrows _ hrow
  have hfind := Option.map_eq_none_iff.mp hnone
  apply find?_of_hasType
  simpa using List.find?_eq_none.mp hfind r hr

theorem methodsLinked_of_toProgram {p : Program} (h : d.toProgram = .ok p) : p.MethodsLinked := by
  obtain ⟨hdangling, htypes, ms, hms, hmethods⟩ := toProgram_eq_ok h
  have hsize : p.methods.size = d.methods.size := by
    rw [hmethods, List.size_toArray]
    exact length_sealMethods hms
  have hrows := (Option.or_eq_none_iff.mp hdangling).2
  intro m hm
  have hnone : d.danglingInMethod? m.token m.toMethodEntry = none :=
    List.findSome?_eq_none_iff.mp hrows _ ((mem_methodRows_iff h _).mpr ⟨m, hm, rfl⟩)
  obtain ⟨htypeRefs, hoverrides⟩ := Option.or_eq_none_iff.mp hnone
  constructor
  · intro r hr
    rw [htypes]
    apply find?_of_hasType
    simpa using List.find?_eq_none.mp (Option.map_eq_none_iff.mp htypeRefs) r hr
  · intro o ho
    have hhas : d.hasMethod o = true := by
      simpa using List.find?_eq_none.mp (Option.map_eq_none_iff.mp hoverrides) o ho
    obtain ⟨i, hi⟩ := Option.isSome_iff_exists.mp hhas
    rw [← hsize] at hi
    have hlt : i < p.methods.size := Token.lt_of_index? hi
    exact ⟨p.methods[i], Option.bind_eq_some_iff.mpr ⟨i, hi, Array.getElem?_eq_getElem hlt⟩⟩

/-- A method is marked as exported for what its attributes say. -/
theorem anyExport_of_toProgram {p : Program} (h : d.toProgram = .ok p) {m : MethodDef}
    (hm : m ∈ p.methods.toList) :
    p.types.anyExport d.exportName m.attributes = .ok m.exported := by
  obtain ⟨-, htypes, ms, hms, hmethods⟩ := toProgram_eq_ok h
  rw [hmethods] at hm
  obtain ⟨⟨token, e⟩, -, hsealed⟩ := mem_of_mapM_eq_ok hms hm
  simp only [sealMethod] at hsealed
  rw [htypes]
  rcases hexport : d.typeTable.anyExport d.exportName e.attributes with fault | exported <;>
    rw [hexport] at hsealed <;> cases hsealed
  exact hexport

end Draft

end TrimGuard
