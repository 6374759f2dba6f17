/-
  TrimGuard/Proofs/WorkbenchProgram.lean
  ======================================
  **What comes off a workbench.**

  Results about programs are stated on drafts, since a draft is a value.  They carry
  over to a workbench, on which the tables are changed in place: calls come to the draft
  of the same registrations (`toDraft_attempt`), and what the workbench is sealed to is
  what that draft is sealed to (`toProgram_attempt`).

  Some of them are stated here for the workbench.  The log of the calls tells which
  registrations were carried out (`history_attempt`), so it is the log that the program
  reflects (`reflects_attempt`).  Which calls come to a program at all, and which of its
  methods are exported, is decided as it is for the draft, and a pass can rely on what
  it relies on for any sealed program (`sealed_attempt`).
-/
import TrimGuard.Proofs.FailedRegistrations

namespace TrimGuard

namespace Workbench

open Draft

/-! ### The history of a log -/

/-- The registrations that were carried out, each with the token it was answered with. -/
def Log.history (log : Log) : History :=
  log.filterMap fun
    | (r, .ok t) => some (r, t)
    | (_, .error _) => none

@[simp] theorem Log.history_cons_ok (r : Registration) (t : Token) (log : Log) :
    history ((r, .ok t) :: log) = (r, t) :: log.history := rfl

@[simp] theorem Log.history_cons_error (r : Registration) (fault : Fault) (log : Log) :
    history ((r, .error fault) :: log) = log.history := rfl

/-- **The log tells what registration on the draft comes to.** -/
theorem history_attempt (rs : List Registration) (w : Workbench) :
    (attempt rs w).1.history = w.toDraft.accepted rs := by
  induction rs generalizing w with
  | nil => rfl
  | cons r rs ih =>
    rcases hrun : (perform r).run w with ⟨fault | t, w'⟩
    · obtain ⟨hregister, rfl⟩ := register_of_run_error hrun
      simp only [attempt, hrun, Log.history_cons_error, ih w', Draft.accepted, hregister]
    · have hregister := (register_of_run_ok hrun).1
      simp only [attempt, hrun, Log.history_cons_ok, ih w', Draft.accepted, hregister]

/-! ### The program of the calls -/

variable {exportName : QualifiedName} {rs : List Registration}

/-- **A workbench can be sealed if and only if nothing on it dangles and every overgrown
    attribute stands behind one that marks an export.** -/
theorem exists_toProgram_attempt_iff :
    (∃ p, (attempt rs (empty exportName)).2.toProgram = .ok p) ↔
      (attempt rs (empty exportName)).2.Closed ∧ (attempt rs (empty exportName)).2.Shielded := by
  rw [toProgram_attempt, toDraft_attempt]
  exact exists_toProgram_iff

section Sealed

variable {p : Program} (hbuild : (attempt rs (empty exportName)).2.toProgram = .ok p)
include hbuild

theorem sealed_attempt : p.Sealed := by
  rw [toProgram_attempt] at hbuild
  exact sealed_of_toProgram hbuild

/-- **The program is what the calls were answered with.** -/
theorem reflects_attempt : p.Reflects (attempt rs (empty exportName)).1.history := by
  rw [toProgram_attempt] at hbuild
  rw [history_attempt]
  exact reflects_of_records (records_registerAll (records_empty exportName) rs) hbuild

/-- **A method is exported if and only if one of its attributes marks an export.** -/
theorem exported_attempt_iff {m : MethodDef} (hm : m ∈ p.methods.toList) :
    m.exported = true ↔ ∃ marker ∈ m.attributes, p.types.MarksExport exportName marker := by
  rw [toProgram_attempt] at hbuild
  rw [exported_iff hbuild hm, exportName_registerAll]
  rfl

end Sealed

end Workbench

end TrimGuard
