/-
  TrimGuard/Proofs/ExportMarkers.lean
  ===================================
  **Which attributes mark a method as exported.**

  An attribute marks its method as exported if its type is the export attribute or
  derived from it (`MarksExport`).  Finding this out takes a walk along base types,
  which is given up if the hierarchy is `Overgrown`.  The attributes of a method are
  looked at one after the other, up to the first one that marks an export: what stands
  behind it is not looked at, and may be overgrown (`Shielded`).

  All that is used of the table is that types are found under their own token and
  that no base type is missing, so the theorems hold while a program is being sealed.
-/
import TrimGuard.Draft.Seal
import TrimGuard.Proofs.EndlessClimb

namespace TrimGuard.TypeTable

/-! ### Conditions -/

/-- The marker's type has the name of the export attribute, or one of the types it is
    derived from has. -/
def MarksExport (types : TypeTable) (exportName : QualifiedName) (marker : Token) : Prop :=
  ∃ t u, types.find? marker = some t ∧
    Relation.ReflTransGen (types.LeadsTo fun d => d.base) t u ∧ u.name = exportName

/-- The base types of the marker's type come to a cycle, or there are too many. -/
def Overgrown (types : TypeTable) (marker : Token) : Prop :=
  ∃ t, types.find? marker = some t ∧
    (types.Cyclic (fun d => d.base) t ∨
      ∃ bases, types.Climb (fun d => d.base) t.base bases ∧ attributeDepth < bases.length)

/-- In front of each overgrown marker there is one that marks an export. -/
def Shielded (types : TypeTable) (exportName : QualifiedName) (markers : List Token) : Prop :=
  ∀ before marker after, markers = before ++ marker :: after → types.Overgrown marker →
    ∃ shield ∈ before, types.MarksExport exportName shield

variable {types : TypeTable} {exportName : QualifiedName} {marker : Token} {markers : List Token}

theorem shielded_nil : types.Shielded exportName [] := by
  intro before marker after h
  simp at h

theorem shielded_cons :
    types.Shielded exportName (marker :: markers) ↔
      ¬ types.Overgrown marker ∧
        (types.MarksExport exportName marker ∨ types.Shielded exportName markers) := by
  constructor
  · intro h
    refine ⟨?_, ?_⟩
    · intro hovergrown
      obtain ⟨shield, hshield, -⟩ := h [] marker markers rfl hovergrown
      cases hshield
    · by_cases hmarks : types.MarksExport exportName marker
      · exact .inl hmarks
      · right
        rintro before m after rfl hovergrown
        obtain ⟨shield, hshield, hexport⟩ := h (marker :: before) m after rfl hovergrown
        rcases List.mem_cons.mp hshield with rfl | hshield
        · exact absurd hexport hmarks
        · exact ⟨shield, hshield, hexport⟩
  · rintro ⟨hsound, hrest⟩ before m after hsplit hovergrown
    rcases before with _ | ⟨first, before⟩
    · cases hsplit
      exact absurd hovergrown hsound
    · obtain ⟨rfl, htail⟩ := List.cons.inj hsplit
      rcases hrest with hmarks | hrest
      · exact ⟨marker, List.mem_cons_self, hmarks⟩
      · obtain ⟨shield, hshield, hexport⟩ := hrest before m after htail hovergrown
        exact ⟨shield, List.mem_cons_of_mem marker hshield, hexport⟩

/-! ### Looking at attributes -/

variable (hnamed : types.SelfNamed) (hbase : types.ClosedUnder fun d => d.base)
include hnamed hbase

theorem isExport_eq_ok (h : ¬ types.Overgrown marker) :
    ∃ exported, types.isExport exportName marker = .ok exported ∧
      (exported = true ↔ types.MarksExport exportName marker) := by
  unfold isExport
  rcases hfind : types.find? marker with _ | t
  · exact ⟨false, rfl, by simp [MarksExport, hfind]⟩
  · have hself : types.find? t.token = some t := by
      rw [hnamed marker t hfind]
      exact hfind
    have hends : types.EndsWithin (fun d => d.base) attributeDepth t := by
      by_contra hendless
      exact h ⟨t, hfind, (not_endsWithin_iff hbase (mem_toList_of_find? hfind)).mp hendless⟩
    obtain ⟨bases, hclimb, hlength⟩ := hends
    have hline := (hnamed.lineage_eq_ok_iff hself hbase attributeDepth _).mpr
      ⟨bases, hclimb, hlength, rfl⟩
    refine ⟨_, by simp only [hline]; rfl, ?_⟩
    simp only [List.any_eq_true, decide_eq_true_eq, hclimb.mem_cons_iff]
    constructor
    · rintro ⟨u, hreach, hname⟩
      exact ⟨t, u, hfind, hreach, hname⟩
    · rintro ⟨t', u, hfind', hreach, hname⟩
      rw [hfind] at hfind'
      cases hfind'
      exact ⟨u, hreach, hname⟩

theorem isExport_eq_error (h : types.Overgrown marker) :
    types.isExport exportName marker = .error (.depthExceeded attributeDepth) := by
  obtain ⟨t, hfind, hendless⟩ := h
  have hself : types.find? t.token = some t := by
    rw [hnamed marker t hfind]
    exact hfind
  simp only [isExport, hfind]
  rcases hline : types.lineage attributeDepth t with fault | line
  · rw [lineage_error hline]
    rfl
  · obtain ⟨bases, hclimb, hlength, -⟩ := (hnamed.lineage_eq_ok_iff hself hbase _ _).mp hline
    exact absurd ⟨bases, hclimb, hlength⟩
      ((not_endsWithin_iff hbase (mem_toList_of_find? hfind)).mpr hendless)

/-- **Attributes that are shielded are looked at without fault**, and what is found is
    whether one of them marks an export. -/
theorem anyExport_eq_ok (h : types.Shielded exportName markers) :
    ∃ exported, types.anyExport exportName markers = .ok exported ∧
      (exported = true ↔ ∃ marker ∈ markers, types.MarksExport exportName marker) := by
  induction markers with
  | nil => exact ⟨false, rfl, by simp⟩
  | cons marker markers ih =>
    obtain ⟨hsound, hrest⟩ := shielded_cons.mp h
    obtain ⟨exported, hexported, hmarks⟩ := isExport_eq_ok hnamed hbase hsound
    rcases exported with _ | _
    · have hplain : ¬ types.MarksExport exportName marker := by
        rw [← hmarks]
        exact Bool.false_ne_true
      obtain ⟨found, hfound, hiff⟩ := ih (hrest.resolve_left hplain)
      refine ⟨found, ?_, ?_⟩
      · simp only [anyExport, hexported, hfound]
      · simp only [hiff, List.exists_mem_cons_iff, hplain, false_or]
    · refine ⟨true, ?_, ?_⟩
      · simp only [anyExport, hexported]
      · simp only [List.exists_mem_cons_iff, hmarks.mp rfl, true_or]

theorem anyExport_eq_error (h : ¬ types.Shielded exportName markers) :
    types.anyExport exportName markers = .error (.depthExceeded attributeDepth) := by
  induction markers with
  | nil => exact absurd shielded_nil h
  | cons marker markers ih =>
    by_cases hovergrown : types.Overgrown marker
    · simp only [anyExport, isExport_eq_error hnamed hbase hovergrown]
    · obtain ⟨exported, hexported, hmarks⟩ := isExport_eq_ok hnamed hbase hovergrown
      have hrest : ¬ (types.MarksExport exportName marker ∨ types.Shielded exportName markers) :=
        fun hrest => h (shielded_cons.mpr ⟨hovergrown, hrest⟩)
      obtain ⟨hplain, hunshielded⟩ := not_or.mp hrest
      have hfalse : exported = false := by
        rw [← Bool.not_eq_true, hmarks]
        exact hplain
      simp only [anyExport, hexported, hfalse]
      exact ih hunshielded

end TrimGuard.TypeTable
