/-
  TrimGuard/Proofs/ExportFlag.lean
  ================================
  **What it means that a method is exported.**

  A method of a sealed program is exported if one of its attributes marks an export,
  and in no other case (`exported_iff`).  This says nothing of the order of the
  attributes or of other methods, so neither matters, as long as the draft can be
  sealed at all; and of the types it reads the names and the base types, which is why
  the methods that a type declares do not matter either (`SameEntries.marksExport`).

  Sealing that recalls what it found out about attribute types comes to the same
  program.  What is known at any time was found by looking (`Markers.Sound`), so an
  answer that is recalled is the one that another look would give, in whatever order
  the types were looked at first.  Sealing a workbench recalls answers as well, and its
  methods are exported under the same condition (`Workbench.exported_attempt_iff`).
-/
import TrimGuard.Draft.Recall
import TrimGuard.Proofs.SealingOutcome
import Mathlib.Data.List.Perm.Basic

namespace TrimGuard

/-! ### What the flag depends on -/

namespace TypeTable

/-- The two tables hold the same entries.  The methods that their types declare may
    differ. -/
def SameEntries (types types' : TypeTable) : Prop :=
  ∀ r, (types.find? r).map TypeDef.toTypeEntry = (types'.find? r).map TypeDef.toTypeEntry

namespace SameEntries

variable {types types' : TypeTable}

theorem symm (h : types.SameEntries types') : types'.SameEntries types := fun r => (h r).symm

theorem find? (h : types.SameEntries types') {r : Token} {t : TypeDef}
    (hfind : types.find? r = some t) :
    ∃ t', types'.find? r = some t' ∧ t'.toTypeEntry = t.toTypeEntry := by
  have hsame := h r
  rw [hfind, Option.map_some] at hsame
  exact Option.map_eq_some_iff.mp hsame.symm

/-- The same types are derived from a type in both tables. -/
theorem derived (h : types.SameEntries types') {t t' u : TypeDef}
    (hentry : t'.toTypeEntry = t.toTypeEntry)
    (hreach : Relation.ReflTransGen (types.LeadsTo fun d => d.base) t u) :
    ∃ u', Relation.ReflTransGen (types'.LeadsTo fun d => d.base) t' u' ∧
      u'.toTypeEntry = u.toTypeEntry := by
  induction hreach with
  | refl => exact ⟨t', .refl, hentry⟩
  | @tail v u _ hstep ih =>
    obtain ⟨v', hreach', hv⟩ := ih
    obtain ⟨r, hr, hfind⟩ := hstep
    obtain ⟨u', hfind', hu⟩ := h.find? hfind
    have hbase : v'.base = some r := by
      rw [hv]
      exact hr
    exact ⟨u', hreach'.tail ⟨r, hbase, hfind'⟩, hu⟩

theorem marksExport (h : types.SameEntries types') {exportName : QualifiedName} {marker : Token}
    (hmarks : types.MarksExport exportName marker) : types'.MarksExport exportName marker := by
  obtain ⟨t, u, hfind, hreach, hname⟩ := hmarks
  obtain ⟨t', hfind', ht⟩ := h.find? hfind
  obtain ⟨u', hreach', hu⟩ := h.derived ht hreach
  refine ⟨t', u', hfind', hreach', ?_⟩
  rw [hu]
  exact hname

end SameEntries

end TypeTable

namespace Draft

variable {d : Draft}

theorem entry_typeTable (d : Draft) (r : Token) :
    (d.typeTable.find? r).map TypeDef.toTypeEntry =
      (r.typeIndex? d.types.size).bind fun i => d.types[i]? := by
  rw [TypeTable.find?, TypeTable.size, size_typeTable, Option.map_bind]
  congr 1
  funext i
  simp [typeTable, typeRows, Function.comp_def]

theorem sameEntries_typeTable {d' : Draft} (h : d'.types = d.types) :
    d.typeTable.SameEntries d'.typeTable := by
  intro r
  rw [entry_typeTable, entry_typeTable, h]

/-- **A method is exported if and only if one of its attributes marks an export.** -/
theorem exported_iff {p : Program} (hbuild : d.toProgram = .ok p) {m : MethodDef}
    (hm : m ∈ p.methods.toList) :
    m.exported = true ↔ ∃ marker ∈ m.attributes, p.types.MarksExport d.exportName marker := by
  have hnamed := (d.sealed_of_toProgram hbuild).selfNamed
  have hbase := (d.linked_of_toProgram hbuild).closedUnder_base
  have hlook := anyExport_of_toProgram hbuild hm
  by_cases hshielded : p.types.Shielded d.exportName m.attributes
  · obtain ⟨exported, hexported, hmarks⟩ := TypeTable.anyExport_eq_ok hnamed hbase hshielded
    rw [hlook] at hexported
    cases hexported
    exact hmarks
  · rw [TypeTable.anyExport_eq_error hnamed hbase hshielded] at hlook
    cases hlook

/-- The flag is the same in every draft with the same types, whatever other methods
    there are and in whatever order the attributes are given. -/
theorem exported_congr {p p' : Program} (hbuild : d.toProgram = .ok p) {d' : Draft}
    (hbuild' : d'.toProgram = .ok p') (hname : d'.exportName = d.exportName)
    (htypes : d'.types = d.types) {m m' : MethodDef} (hm : m ∈ p.methods.toList)
    (hm' : m' ∈ p'.methods.toList) (hattributes : m'.attributes.Perm m.attributes) :
    m'.exported = m.exported := by
  have hsame : p.types.SameEntries p'.types := by
    rw [(toProgram_eq_ok hbuild).2.1, (toProgram_eq_ok hbuild').2.1]
    exact sameEntries_typeTable htypes
  rw [Bool.eq_iff_iff, exported_iff hbuild hm, exported_iff hbuild' hm', hname]
  constructor
  · rintro ⟨marker, hmem, hmarks⟩
    exact ⟨marker, hattributes.mem_iff.mp hmem, hsame.symm.marksExport hmarks⟩
  · rintro ⟨marker, hmem, hmarks⟩
    exact ⟨marker, hattributes.mem_iff.mpr hmem, hsame.marksExport hmarks⟩

end Draft

/-! ### Recalled answers -/

/-- What is known was found by looking at the table. -/
def Markers.Sound (types : TypeTable) (exportName : QualifiedName) (known : Markers) : Prop :=
  ∀ marker exported, known[marker]? = some exported →
    types.isExport exportName marker = .ok exported

/-- The result is the one that is found without recalling anything, and what is known
    afterwards is sound. -/
def Markers.Agrees {α : Type} (types : TypeTable) (exportName : QualifiedName)
    (result : Except Fault α) (recalled : Except Fault (α × Markers)) : Prop :=
  recalled.map Prod.fst = result ∧
    ∀ a known, recalled = .ok (a, known) → known.Sound types exportName

namespace Markers

variable {types : TypeTable} {exportName : QualifiedName}

theorem sound_empty (types : TypeTable) (exportName : QualifiedName) :
    Sound types exportName ∅ := by
  intro marker exported h
  simp at h

theorem Sound.insert {known : Markers} (h : known.Sound types exportName) {marker : Token}
    {exported : Bool} (hlook : types.isExport exportName marker = .ok exported) :
    Sound types exportName (known.insert marker exported) := by
  intro m found hfound
  rw [Std.ExtTreeMap.getElem?_insert] at hfound
  by_cases hm : marker = m
  · subst hm
    simp only [Std.ReflOrd.compare_self, if_true, Option.some.injEq] at hfound
    rw [← hfound]
    exact hlook
  · simp only [Std.LawfulEqOrd.compare_eq_iff_eq, hm, if_false] at hfound
    exact h m found hfound

theorem agrees_ok {α : Type} {known : Markers} (h : known.Sound types exportName) (a : α) :
    Agrees types exportName (.ok a) (.ok (a, known)) := by
  refine ⟨rfl, ?_⟩
  intro b known' heq
  cases heq
  exact h

theorem agrees_error {α : Type} (fault : Fault) :
    Agrees types exportName (.error fault : Except Fault α) (.error fault) := by
  refine ⟨rfl, ?_⟩
  intro a known heq
  cases heq

/-- Where the results agree, both are faults or both are answers. -/
theorem Agrees.cases {α : Type} {result : Except Fault α}
    {recalled : Except Fault (α × Markers)} (h : Agrees types exportName result recalled) :
    (∃ fault, result = .error fault ∧ recalled = .error fault) ∨
      ∃ a known, result = .ok a ∧ recalled = .ok (a, known) ∧ known.Sound types exportName := by
  obtain ⟨rfl, hsound⟩ := h
  rcases recalled with fault | ⟨a, known⟩
  · exact .inl ⟨fault, rfl, rfl⟩
  · exact .inr ⟨a, known, rfl, rfl, hsound a known rfl⟩

end Markers

namespace TypeTable

variable {types : TypeTable} {exportName : QualifiedName} {known : Markers}
  (h : known.Sound types exportName)
include h

theorem agrees_recallExport (marker : Token) :
    Markers.Agrees types exportName (types.isExport exportName marker)
      (types.recallExport exportName marker known) := by
  unfold recallExport
  rcases hknown : known[marker]? with _ | exported
  · rcases hlook : types.isExport exportName marker with fault | exported
    · exact Markers.agrees_error fault
    · exact Markers.agrees_ok (h.insert hlook) exported
  · rw [h marker exported hknown]
    exact Markers.agrees_ok h exported

theorem agrees_recallAnyExport (markers : List Token) :
    Markers.Agrees types exportName (types.anyExport exportName markers)
      (types.recallAnyExport exportName markers known) := by
  induction markers generalizing known with
  | nil => exact Markers.agrees_ok h false
  | cons marker markers ih =>
    rcases (agrees_recallExport h marker).cases with
      ⟨fault, hlook, hrecall⟩ | ⟨exported, known', hlook, hrecall, hsound⟩
    · simp only [anyExport, recallAnyExport, hlook, hrecall]
      exact Markers.agrees_error fault
    · simp only [anyExport, recallAnyExport, hlook, hrecall]
      cases exported with
      | true => exact Markers.agrees_ok hsound true
      | false => exact ih hsound

end TypeTable

namespace Draft

variable {d : Draft}

/-- **Methods are sealed alike with and without recalling.** -/
theorem agrees_recallMethods {types : TypeTable} {known : Markers}
    (h : known.Sound types d.exportName) (rows : List (Token × MethodEntry)) :
    Markers.Agrees types d.exportName (rows.mapM fun (m, e) => d.sealMethod types m e)
      (d.recallMethods types rows known) := by
  induction rows generalizing known with
  | nil => exact Markers.agrees_ok h []
  | cons row rows ih =>
    obtain ⟨m, e⟩ := row
    simp only [List.mapM_cons, recallMethods, sealMethod]
    rcases (TypeTable.agrees_recallAnyExport h e.attributes).cases with
      ⟨fault, hlook, hrecall⟩ | ⟨exported, known', hlook, hrecall, hsound⟩
    · rw [hlook, hrecall]
      exact Markers.agrees_error fault
    · rw [hlook, hrecall]
      rcases (ih hsound).cases with ⟨fault, hrest, hrecallRest⟩ |
        ⟨ms, known'', hrest, hrecallRest, hsound'⟩
      · simp only [sealMethod] at hrest
        simp only [hrest, hrecallRest]
        exact Markers.agrees_error fault
      · simp only [sealMethod] at hrest
        simp only [hrest, hrecallRest]
        exact Markers.agrees_ok hsound' _

/-- **Recalling makes no difference to the program that results.** -/
theorem toProgramRecalling_eq (d : Draft) : d.toProgramRecalling = d.toProgram := by
  unfold toProgramRecalling toProgram
  rcases d.dangling? with _ | fault
  · have hempty := Markers.sound_empty d.typeTable d.exportName
    rcases (agrees_recallMethods hempty d.methodRows).cases with
      ⟨fault, hseal, hrecall⟩ | ⟨ms, known, hseal, hrecall, -⟩
    · simp only [sealMethods, hseal, hrecall]
      rfl
    · simp only [sealMethods, hseal, hrecall]
      rfl
  · rfl

/-! ### Any order -/

/-- The methods can be sealed in any order, and come out the same. -/
theorem recallMethods_perm {p : Program} (hbuild : d.toProgram = .ok p)
    {rows : List (Token × MethodEntry)} (hrows : rows.Perm d.methodRows) {known : Markers}
    (hknown : known.Sound p.types d.exportName) :
    ∃ ms known', d.recallMethods p.types rows known = .ok (ms, known') ∧
      ms.Perm p.methods.toList := by
  obtain ⟨-, htypes, ms, hms, hmethods⟩ := toProgram_eq_ok hbuild
  rw [← htypes] at hms
  obtain ⟨ms', hms', hperm⟩ := List.perm_comp_forall₂ hrows (mapM_eq_ok_iff.mp hms)
  rcases (agrees_recallMethods hknown rows).cases with
    ⟨fault, hseal, -⟩ | ⟨found, known', hseal, hrecall, -⟩
  · rw [mapM_eq_ok_iff.mpr hms'] at hseal
    cases hseal
  · rw [mapM_eq_ok_iff.mpr hms'] at hseal
    cases hseal
    refine ⟨ms', known', hrecall, ?_⟩
    rw [hmethods]
    exact hperm

/-! ### The outcome -/

/-- **The flag of a method says whether one of its attributes is of the export attribute
    type or of a type derived from it.**  It is the same in all drafts with the same
    types that can be sealed, wherever the attribute stands and whatever other methods
    there are.  Nor does it matter whether sealing recalls what it found out before, or
    which types it looked at first: from anything it may know, and with the methods in
    any order, the same methods result. -/
theorem export_flag_meaning {p : Program} (hbuild : d.toProgram = .ok p) :
    (∀ m ∈ p.methods.toList, m.exported = true ↔
      ∃ marker ∈ m.attributes, p.types.MarksExport d.exportName marker) ∧
    (∀ (d' : Draft) (p' : Program), d'.toProgram = .ok p' → d'.exportName = d.exportName →
      d'.types = d.types → ∀ m ∈ p.methods.toList, ∀ m' ∈ p'.methods.toList,
        m'.attributes.Perm m.attributes → m'.exported = m.exported) ∧
    d.toProgramRecalling = .ok p ∧
    ∀ rows : List (Token × MethodEntry), rows.Perm d.methodRows →
      ∀ known : Markers, known.Sound p.types d.exportName →
        ∃ ms known', d.recallMethods p.types rows known = .ok (ms, known') ∧
          ms.Perm p.methods.toList := by
  refine ⟨fun _ => exported_iff hbuild, ?_, ?_, fun _ hrows _ => recallMethods_perm hbuild hrows⟩
  · intro d' p' hbuild' hname htypes m hm m' hm'
    exact exported_congr hbuild hbuild' hname htypes hm hm'
  · rw [toProgramRecalling_eq, hbuild]

/-! A program with an export attribute of its own, an attribute derived from it, and one
that is not. -/

def outletDraft (rs : List Registration) : Draft :=
  let app : Assembly := ⟨"App", .unknown, none⟩
  (empty ⟨"App", "Callable"⟩).registerAll
    ([ .type { assembly := app, name := ⟨"App", "Callable"⟩ },
       .type { assembly := app, name := ⟨"App", "Outlet"⟩, base := some (.ofTypeIndex 0) },
       .type { assembly := app, name := ⟨"App", "Plain"⟩ } ] ++ rs)

theorem export_flag_meaning_outlet :
    let run (attributes : List Token) : Registration :=
      .method { owner := .ofTypeIndex 2, name := "Run", attributes }
    let alone := outletDraft [run [.ofTypeIndex 2, .ofTypeIndex 1]]
    let second := outletDraft [run [.ofTypeIndex 2], run [.ofTypeIndex 1, .ofTypeIndex 2]]
    ∃ p p', alone.toProgram = .ok p ∧ second.toProgram = .ok p' ∧
      (∃ m ∈ p.methods.toList, m.exported = true ∧
        ∃ marker ∈ m.attributes, p.types.MarksExport alone.exportName marker) ∧
      (∀ m ∈ p.methods.toList, ∀ m' ∈ p'.methods.toList,
        m'.attributes.Perm m.attributes → m'.exported = m.exported) ∧
      second.toProgramRecalling = .ok p' ∧
      ∃ ms known, second.recallMethods p'.types second.methodRows.reverse ∅ = .ok (ms, known) ∧
        ms.Perm p'.methods.toList := by
  intro run alone second
  have hbuild := toProgram_of_isSome (d := alone) (by decide +kernel)
  have hbuild' := toProgram_of_isSome (d := second) (by decide +kernel)
  have hexported : ∃ m ∈ (alone.toProgram.toOption.get (by decide +kernel)).methods.toList,
      m.exported = true := by decide +kernel
  have hsame : second.exportName = alone.exportName ∧ second.types = alone.types := by
    decide +kernel
  obtain ⟨m, hm, hflag⟩ := hexported
  obtain ⟨hmeaning, hcongr, -⟩ := export_flag_meaning hbuild
  obtain ⟨-, -, hrecalling, hany⟩ := export_flag_meaning hbuild'
  refine ⟨_, _, hbuild, hbuild', ⟨m, hm, hflag, (hmeaning m hm).mp hflag⟩,
    hcongr second _ hbuild' hsame.1 hsame.2, hrecalling, ?_⟩
  exact hany _ (List.reverse_perm _) ∅ (Markers.sound_empty _ _)

end Draft

end TrimGuard
