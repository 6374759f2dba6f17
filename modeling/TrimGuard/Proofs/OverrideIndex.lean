/-
  TrimGuard/Proofs/OverrideIndex.lean
  ===================================
  **The override edges, read backwards.**

  Every method records the methods that it overrides, and a program is asked for the
  methods that override a given one.  The index that answers is filled edge by edge,
  method after method, and nothing is said of the edges: a method may override
  several others, the same one twice, itself, or one that comes later.

  The answer is the transpose of what is recorded, with multiplicity and in the order
  of the methods (`overridersOf_eq`).  All else follows from that: which methods are
  listed and how often, that they are in the order of their tokens, and that each of
  them is found again.
-/
import TrimGuard.Proofs.SealedProgram

namespace TrimGuard

/-! ### Edges from one side and from the other -/

/-- What a method contributes to the answer for `b` is its token, as many times as it
    records `b`. -/
theorem overrideEdges_to (m : MethodDef) (b : Token) :
    ((m.overrides.map fun o => (o, m.token)).filter fun e => e.1 = b).map Prod.snd =
      List.replicate (m.overrides.count b) m.token := by
  have hsource : (fun o : Token => decide (o = b)) = fun o => o == b := by
    funext o
    rfl
  rw [List.filter_map, List.map_map, List.count_eq_length_filter, ← hsource]
  exact List.map_const'

/-- **The overriders of a method are read off the methods of the program one by one.** -/
theorem Program.overridersOf_eq (p : Program) (b : Token) :
    p.overridersOf b =
      p.methods.toList.flatMap fun m => List.replicate (m.overrides.count b) m.token := by
  rw [overridersOf, p.overriders_eq, Token.Index.under_ofPairs, overrideEdges,
    List.filter_flatMap, List.map_flatMap]
  simp only [overrideEdges_to]

theorem Program.overridersOf_eq_nil_iff (p : Program) (b : Token) :
    p.overridersOf b = [] ↔ ∀ m ∈ p.methods.toList, b ∉ m.overrides := by
  simp only [overridersOf_eq, List.flatMap_eq_nil_iff, List.replicate_eq_nil_iff,
    List.count_eq_zero]

/-- Where names are unique, what is listed under one name is counted there. -/
theorem count_flatMap_replicate {α : Type} {as : List α} {name : α → Token} (times : α → Nat)
    (hnames : (as.map name).Nodup) {a : α} (ha : a ∈ as) :
    (as.flatMap fun c => List.replicate (times c) (name c)).count (name a) = times a := by
  induction as with
  | nil => cases ha
  | cons c as ih =>
    obtain ⟨hhead, htail⟩ := List.nodup_cons.mp hnames
    rw [List.flatMap_cons, List.count_append, List.count_replicate]
    rcases List.mem_cons.mp ha with rfl | ha
    · have hnone : (as.flatMap fun c => List.replicate (times c) (name c)).count (name a) = 0 := by
        rw [List.count_eq_zero]
        intro hmem
        obtain ⟨c, hc, hname⟩ := List.mem_flatMap.mp hmem
        rw [(List.mem_replicate.mp hname).2] at hhead
        exact hhead (List.mem_map_of_mem hc)
      rw [hnone]
      simp
    · have hother : (name c == name a) = false := by
        rw [beq_eq_false_iff_ne]
        intro hname
        rw [hname] at hhead
        exact hhead (List.mem_map_of_mem ha)
      rw [hother, ih htail ha]
      simp

/-! ### The order of tokens -/

namespace Program.Sealed

variable {p : Program} (hp : p.Sealed)
include hp

theorem pairwise_methods : p.methods.toList.Pairwise fun m n => m.token.raw < n.token.raw := by
  rw [List.pairwise_iff_getElem]
  intro i j hi hj hij
  simp only [Array.length_toList] at hi hj
  have hlast : j < Token.lastRow := Nat.lt_of_lt_of_le hj hp.methods_fit
  rw [Array.getElem_toList, Array.getElem_toList, hp.method_token i hi, hp.method_token j hj,
    UInt32.lt_iff_toNat_lt]
  simp only [Token.ofMethodIndex, Token.methodDef]
  rw [Token.toNat_raw_ofRow _ (Nat.lt_trans hij hlast), Token.toNat_raw_ofRow _ hlast]
  omega

theorem count_overridersOf (b : Token) {m : MethodDef} (hm : m ∈ p.methods.toList) :
    (p.overridersOf b).count m.token = m.overrides.count b := by
  rw [p.overridersOf_eq]
  exact count_flatMap_replicate (fun n => n.overrides.count b) hp.nodup_methodTokens hm

theorem pairwise_overridersOf (b : Token) :
    (p.overridersOf b).Pairwise fun o o' => o.raw ≤ o'.raw := by
  rw [p.overridersOf_eq, List.pairwise_flatMap]
  constructor
  · intro m _
    exact List.pairwise_replicate.mpr (.inr (UInt32.le_refl _))
  · apply hp.pairwise_methods.imp
    intro m n hlt o ho o' ho'
    rw [(List.mem_replicate.mp ho).2, (List.mem_replicate.mp ho').2]
    exact UInt32.le_of_lt hlt

end Program.Sealed

/-! ### The outcome -/

/-- **The overriders of a method are the methods that record the override, each as often
    as it records it, in the order of their tokens.**  All of them are methods of the
    program whose owner is there, and for what is not overridden there are none. -/
theorem Program.overriders_transposed {d : Draft} {p : Program} (hbuild : d.toProgram = .ok p) :
    (p.methods.toList.Pairwise fun m n => m.token.raw < n.token.raw) ∧
    ∀ b : Token,
      p.overridersOf b =
        p.methods.toList.flatMap (fun m => List.replicate (m.overrides.count b) m.token) ∧
      (∀ m ∈ p.methods.toList, (p.overridersOf b).count m.token = m.overrides.count b ∧
        (m.token ∈ p.overridersOf b ↔ b ∈ m.overrides)) ∧
      ((p.overridersOf b).Pairwise fun o o' => o.raw ≤ o'.raw) ∧
      (∀ o ∈ p.overridersOf b, ∃ m ∈ p.methods.toList, p.method? o = some m ∧
        ∃ t ∈ p.types.toList, p.ownerOf m = .ok t) ∧
      (p.overridersOf b = [] ↔ ∀ m ∈ p.methods.toList, b ∉ m.overrides) := by
  have hp := d.sealed_of_toProgram hbuild
  refine ⟨hp.pairwise_methods, fun b => ⟨p.overridersOf_eq b, ?_, hp.pairwise_overridersOf b, ?_,
    p.overridersOf_eq_nil_iff b⟩⟩
  · intro m hm
    have hcount := hp.count_overridersOf b hm
    refine ⟨hcount, ?_⟩
    rw [← List.count_pos_iff, hcount, List.count_pos_iff]
  · intro o ho
    obtain ⟨m, hm, -, rfl⟩ := (p.mem_overridersOf_iff b o).mp ho
    obtain ⟨t, ht, -, howner⟩ := hp.ownerOf_eq hm
    exact ⟨m, hm, hp.method?_token hm, t, ht, howner⟩

/-! Four methods, with an override of a later method, one of itself, and one that is
recorded twice. -/

def entangledDraft : Draft :=
  let app : Assembly := ⟨"App", .unknown, none⟩
  Draft.empty.registerAll [
    .type { assembly := app, name := ⟨"App", "View"⟩ },
    .method { owner := .ofTypeIndex 0, name := "A", overrides := [.ofMethodIndex 2] },
    .method { owner := .ofTypeIndex 0, name := "B",
              overrides := [.ofMethodIndex 2, .ofMethodIndex 0, .ofMethodIndex 2] },
    .method { owner := .ofTypeIndex 0, name := "C", overrides := [.ofMethodIndex 2] },
    .method { owner := .ofTypeIndex 0, name := "D" }]

theorem Program.overriders_transposed_entangled :
    ∃ p, entangledDraft.toProgram = .ok p ∧
      p.overridersOf (.ofMethodIndex 2) =
        [.ofMethodIndex 0, .ofMethodIndex 1, .ofMethodIndex 1, .ofMethodIndex 2] ∧
      (∀ o ∈ p.overridersOf (.ofMethodIndex 2), ∃ m ∈ p.methods.toList, p.method? o = some m ∧
        ∃ t ∈ p.types.toList, p.ownerOf m = .ok t) ∧
      p.overridersOf (.ofMethodIndex 3) = [] := by
  have hbuild := Draft.toProgram_of_isSome (d := entangledDraft) (by decide +kernel)
  obtain ⟨-, hall⟩ := overriders_transposed hbuild
  obtain ⟨htranspose, -, -, hfound, -⟩ := hall (.ofMethodIndex 2)
  have hlisted : ((entangledDraft.toProgram.toOption.get (by decide +kernel)).methods.toList.flatMap
      fun m => List.replicate (m.overrides.count (.ofMethodIndex 2)) m.token) =
        [.ofMethodIndex 0, .ofMethodIndex 1, .ofMethodIndex 1, .ofMethodIndex 2] := by
    decide +kernel
  have hunused : ∀ m ∈ (entangledDraft.toProgram.toOption.get (by decide +kernel)).methods.toList,
      .ofMethodIndex 3 ∉ m.overrides := by decide +kernel
  exact ⟨_, hbuild, htranspose.trans hlisted, hfound, (hall _).2.2.2.2.mpr hunused⟩

end TrimGuard
