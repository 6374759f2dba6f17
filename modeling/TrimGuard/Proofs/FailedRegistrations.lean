/-
  TrimGuard/Proofs/FailedRegistrations.lean
  =========================================
  **Failed registrations leave no trace.**

  A call on a workbench does what registration does to the draft that the workbench
  is, and does nothing if that fails (`run_perform`): all that can go wrong is looked at
  before the first change.  So a log of calls can be tried again without those that
  failed.  The calls that are left get the answers they had before, and the workbench
  that results is the same (`attempt_accepted`), although every token that is handed out
  is the position that a table happens to have reached by then.

  Which calls fail can be read off the log as well.  The types on the workbench are
  those that earlier calls were answered with (`hasType_attempt`).  As long as there is
  room, a call fails if what it registers has no name, or if it needs a type that is not
  among them, and in no other case.

  In the end the workbench holds the draft of the same registrations
  (`toDraft_attempt`) and is sealed to the same program (`toProgram_attempt`), because
  the lists of declared methods keep in step with the table of methods (`InStep`).
-/
import TrimGuard.Draft.Workbench
import TrimGuard.Proofs.ExportFlag
import TrimGuard.Proofs.RegistrationHistory

namespace TrimGuard

namespace Draft

variable {d d' : Draft}

/-! ### What a registration needs -/

namespace Registration

/-- The fault of a definition without a name. -/
def nameless? : Registration → Option Fault
  | .type e => if e.name.name.isEmpty then some (.emptyTypeName e.name.namespace) else none
  | .method e => if e.name.isEmpty then some (.emptyMethodName e.owner) else none
  | .nest _ _ => none

/-- The types that must be there before, in the order in which they are looked for. -/
def requires : Registration → List Token
  | .type _ => []
  | .method e => [e.owner]
  | .nest inner outer => [outer, inner]

/-- The fault of the registration where only the types of the given tokens are there. -/
def fault? (known : List Token) (r : Registration) : Option Fault :=
  r.nameless?.or ((r.requires.find? fun t => t ∉ known).map .unknownType)

end Registration

/-- With room in the tables, a registration fails for what it is given or for a type
    that it needs. -/
theorem register_eq_error_iff {known : List Token} (hknown : ∀ t, d.hasType t = true ↔ t ∈ known)
    (htypes : d.types.size < Token.lastRow) (hmethods : d.methods.size < Token.lastRow)
    (r : Registration) (fault : Fault) :
    d.register r = .error fault ↔ r.fault? known = some fault := by
  rcases r with e | e | ⟨inner, outer⟩
  · by_cases hname : e.name.name.isEmpty <;>
      simp [register, addType, Registration.fault?, Registration.nameless?,
        Registration.requires, hname, htypes]
  · by_cases hname : e.name.isEmpty
    · simp [register, addMethod, Registration.fault?, Registration.nameless?, hname]
    · by_cases howner : e.owner ∈ known <;>
        simp [register, addMethod, Registration.fault?, Registration.nameless?,
          Registration.requires, hname, hmethods, hknown, howner]
  · by_cases houter : outer ∈ known
    · rcases hindex : inner.typeIndex? d.types.size with _ | i
      · have hinner : inner ∉ known := by
          rw [← hknown, hasType, hindex]
          exact Bool.false_ne_true
        simp [register, nest, Registration.fault?, Registration.nameless?,
          Registration.requires, hknown, houter, hindex, hinner]
      · have hinner : inner ∈ known := by
          rw [← hknown, hasType, hindex]
          rfl
        simp [register, nest, Registration.fault?, Registration.nameless?,
          Registration.requires, hknown, houter, hindex, hinner]
    · simp [register, nest, Registration.fault?, Registration.nameless?,
        Registration.requires, hknown, houter]

/-- A registration adds one type to those that are there, if it registers a type, and
    else none. -/
theorem hasType_register {r : Registration} {t : Token} (h : d.register r = .ok (t, d'))
    (u : Token) :
    d'.hasType u = true ↔ d.hasType u = true ∨ (∃ e, r = .type e) ∧ u = t := by
  obtain ⟨-, hcase⟩ := register_cases h
  rcases hcase with ⟨e, rfl, -, -, rfl, htypes, -⟩ | ⟨e, rfl, -, -, -, rfl, htypes, -⟩ |
    ⟨outer, i, rfl, -, -, htypes, -⟩
  · have hsize : d'.types.size = d.types.size + 1 := by
      rw [htypes, Array.size_push]
    have hnew : (∃ e', Registration.type e = .type e') := ⟨e, rfl⟩
    simp only [hasType_iff, IsType, hsize, Nat.lt_succ_iff_lt_or_eq, hnew, true_and]
    constructor
    · rintro ⟨i, hi | rfl, rfl⟩
      · exact .inl ⟨i, hi, rfl⟩
      · exact .inr rfl
    · rintro (⟨i, hi, rfl⟩ | rfl)
      · exact ⟨i, .inl hi, rfl⟩
      · exact ⟨_, .inr rfl, rfl⟩
  · simp [hasType, htypes]
  · simp [hasType, htypes]

end Draft

namespace Workbench

open Draft

/-! ### What a call does -/

/-- The lists of declared methods after a registration was carried out. -/
def declaredAfter (w : Workbench) : Registration → Token → Array (Array Token)
  | .type _, _ => w.declared.push #[]
  | .method e, m =>
    match e.owner.typeIndex? w.types.size with
    | some i => w.declared.modify i fun ms => ms.push m
    | none => w.declared
  | .nest _ _, _ => w.declared

theorem run_position {t : Token} {i : Nat} {w : Workbench}
    (h : t.typeIndex? w.types.size = some i) : (position t).run w = (.ok i, w) := by
  simp only [position, Call.run_bind, Call.run_get, h, Call.run_pure]

theorem run_position_of_eq_none {t : Token} {w : Workbench}
    (h : t.typeIndex? w.types.size = none) :
    (position t).run w = (.error (.unknownType t), w) := by
  simp only [position, Call.run_bind, Call.run_get, h, Call.run_throw]

/-- **A call does what registration does, and nothing if that fails.** -/
theorem run_perform (r : Registration) (w : Workbench) :
    (perform r).run w =
      match w.register r with
      | .error fault => (.error fault, w)
      | .ok (t, d) => (.ok t, { toDraft := d, declared := w.declaredAfter r t }) := by
  rcases r with e | e | ⟨inner, outer⟩
  · simp only [perform, addType, register, Draft.addType]
    split
    · rfl
    · simp only [Call.run_bind, Call.run_get]
      split
      · simp only [Call.run_bind, Call.run_set, Call.run_get, Call.run_pure, Array.size_push]
        rfl
      · rfl
  · simp only [perform, addMethod, register, Draft.addMethod]
    split
    · rfl
    · simp only [Call.run_bind, Call.run_get]
      split
      · split
        next i hi =>
          have howner : w.hasType e.owner = true := Option.isSome_of_eq_some hi
          simp only [Call.run_bind, Call.run_set, Call.run_get, Call.run_modify, Call.run_pure,
            Array.size_push, dif_pos howner, declaredAfter, hi]
          rfl
        next hi =>
          have howner : ¬ w.hasType e.owner = true := by
            simp [hasType, hi]
          rw [dif_neg howner]
          rfl
      · rfl
  · simp only [perform, nest, register, Draft.nest]
    rcases houter : outer.typeIndex? w.types.size with _ | o
    · have hunknown : ¬ w.hasType outer = true := by
        simp [hasType, houter]
      rw [Call.run_bind, run_position_of_eq_none houter, if_neg hunknown]
    · have hknown : w.hasType outer = true := Option.isSome_of_eq_some houter
      rw [Call.run_bind, run_position houter, if_pos hknown]
      rcases hinner : inner.typeIndex? w.types.size with _ | i
      · simp only [Call.run_bind, run_position_of_eq_none hinner]
      · simp only [Call.run_bind, run_position hinner, Call.run_modify, Call.run_pure,
          declaredAfter]

/-- A call that fails leaves the workbench as it was. -/
theorem register_of_run_error {r : Registration} {w w' : Workbench} {fault : Fault}
    (h : (perform r).run w = (.error fault, w')) :
    w.register r = .error fault ∧ w' = w := by
  rw [run_perform] at h
  rcases hregister : w.register r with found | ⟨t, d⟩ <;> rw [hregister] at h
  · rw [Prod.mk.injEq, Except.error.injEq] at h
    exact ⟨congrArg _ h.1, h.2.symm⟩
  · cases h

theorem register_of_run_ok {r : Registration} {w w' : Workbench} {t : Token}
    (h : (perform r).run w = (.ok t, w')) :
    w.register r = .ok (t, w'.toDraft) ∧ w'.declared = w.declaredAfter r t := by
  rw [run_perform] at h
  rcases hregister : w.register r with found | ⟨u, d⟩ <;> rw [hregister] at h
  · cases h
  · cases h
    exact ⟨rfl, rfl⟩

/-! ### The lists of declared methods -/

/-- The lists on the workbench are those that the table of methods gives. -/
def InStep (w : Workbench) : Prop :=
  w.declared.toList = w.typeRows.map fun row => (w.methodIndex.under row.1).toArray

theorem inStep_empty (exportName : QualifiedName) : (empty exportName).InStep := rfl

theorem methodIndex_of_push {d d' : Draft} {e : MethodEntry}
    (h : d'.methods = d.methods.push e) (t : Token) :
    d'.methodIndex.under t =
      d.methodIndex.under t ++ if e.owner = t then [.ofMethodIndex d.methods.size] else [] := by
  rw [methodIndex, methodIndex, Token.Index.under_ofPairs, Token.Index.under_ofPairs,
    methodRows_of_push h, List.map_append, List.filter_append, List.map_append]
  by_cases howner : e.owner = t <;> simp [howner]

/-- Nothing is filed under a type that is not there. -/
theorem methodIndex_of_unknown {d : Draft} {t : Token} (h : d.hasType t = false) :
    d.methodIndex.under t = [] := by
  rw [methodIndex, Token.Index.under_ofPairs, List.map_eq_nil_iff, List.filter_eq_nil_iff]
  intro pair hpair
  obtain ⟨⟨m, e⟩, hrow, rfl⟩ := List.mem_map.mp hpair
  have hmem : e ∈ d.methodRows.map Prod.snd := List.mem_map.mpr ⟨_, hrow, rfl⟩
  rw [map_snd_methodRows, Array.mem_toList_iff] at hmem
  have howner : d.hasType e.owner = true := d.owners_known e hmem
  rw [decide_eq_true_eq]
  rintro rfl
  exact Bool.false_ne_true (h.symm.trans howner)

theorem methodIndex_congr {d d' : Draft} (h : d'.methods = d.methods) :
    d'.methodIndex = d.methodIndex := by
  rw [methodIndex, methodIndex, methodRows, methodRows, h]

theorem inStep_perform {w w' : Workbench} {r : Registration} {t : Token}
    (h : (perform r).run w = (.ok t, w')) (hw : w.InStep) : w'.InStep := by
  obtain ⟨hregister, hdeclared⟩ := register_of_run_ok h
  obtain ⟨-, hcase⟩ := register_cases hregister
  unfold InStep at hw ⊢
  rcases hcase with ⟨e, rfl, -, hroom, rfl, htypes, hmethods⟩ |
    ⟨e, rfl, -, -, howner, rfl, htypes, hmethods⟩ | ⟨outer, i, rfl, -, hi, htypes, hmethods⟩
  · -- nothing can have been declared on a type that is new
    have hnone := methodIndex_of_unknown (hasType_ofTypeIndex_size hroom)
    simp [hdeclared, declaredAfter, hw, typeRows_of_push htypes, methodIndex_congr hmethods, hnone]
  · obtain ⟨i, hi⟩ := Option.isSome_iff_exists.mp howner
    have hrows : w'.typeRows = w.typeRows := by
      rw [typeRows, typeRows, htypes]
    simp only [hdeclared, declaredAfter, hi, hrows, Array.toList_modify, hw,
      methodIndex_of_push hmethods]
    -- the list at a position grows if the position is that of the owner
    apply List.ext_getElem
    · simp
    · intro j hj _
      have hrow : j < w.types.size := by simpa [typeRows] using hj
      have hsame : e.owner = Token.ofTypeIndex j ↔ i = j := by
        rw [eq_comm, eq_comm (a := i)]
        exact Token.ofRow_eq_iff w.types_fit hi hrow
      by_cases hij : i = j <;> simp [typeRows, hsame, hij]
  · rw [hdeclared, declaredAfter, hw, typeRows_of_modify hi htypes, methodIndex_congr hmethods,
      List.map_map]
    apply List.map_congr_left
    intro row _
    simp only [Function.comp_apply]
    split <;> rfl

/-- **The program is that of the draft, as long as the lists are in step.** -/
theorem toProgram_of_inStep {w : Workbench} (h : w.InStep) :
    w.toProgram = w.toDraft.toProgram := by
  unfold InStep at h
  have htable : w.typeTable = w.toDraft.typeTable := by
    simp [typeTable, Draft.typeTable, h, List.zipWith_map_right, List.zipWith_self]
  rw [← toProgramRecalling_eq, toProgram, htable]
  rfl

/-! ### Logs -/

namespace Log

/-- The calls of a log, whatever came of them. -/
def registrations (log : Log) : List Registration := log.map Prod.fst

/-- The calls that did not fail. -/
def accepted (log : Log) : Log := log.filter fun entry => entry.2.isOk

/-- The types that were registered by the calls of a log, by their tokens. -/
def types (log : Log) : List Token :=
  log.filterMap fun
    | (.type _, .ok t) => some t
    | _ => none

@[simp] theorem registrations_cons (r : Registration) (answer : Except Fault Token) (log : Log) :
    registrations ((r, answer) :: log) = r :: log.registrations := rfl

@[simp] theorem accepted_cons_ok (r : Registration) (t : Token) (log : Log) :
    accepted ((r, .ok t) :: log) = (r, .ok t) :: log.accepted := rfl

@[simp] theorem accepted_cons_error (r : Registration) (fault : Fault) (log : Log) :
    accepted ((r, .error fault) :: log) = log.accepted := rfl

end Log

variable {w w' : Workbench} {rs : List Registration}

/-- There is one entry for each call. -/
theorem registrations_attempt (rs : List Registration) (w : Workbench) :
    (attempt rs w).1.registrations = rs := by
  induction rs generalizing w with
  | nil => rfl
  | cons r rs ih => simp only [attempt, Log.registrations_cons, ih]

theorem inStep_attempt (rs : List Registration) (hw : w.InStep) : (attempt rs w).2.InStep := by
  induction rs generalizing w with
  | nil => exact hw
  | cons r rs ih =>
    rcases hrun : (perform r).run w with ⟨fault | t, w'⟩ <;> simp only [attempt, hrun]
    · rw [(register_of_run_error hrun).2]
      exact ih hw
    · exact ih (inStep_perform hrun hw)

/-- **Without the calls that failed, the others get the same answers and come to the
    same workbench.** -/
theorem attempt_accepted (rs : List Registration) (w : Workbench) :
    attempt (attempt rs w).1.accepted.registrations w =
      ((attempt rs w).1.accepted, (attempt rs w).2) := by
  induction rs generalizing w with
  | nil => rfl
  | cons r rs ih =>
    rcases hrun : (perform r).run w with ⟨fault | t, w'⟩
    · obtain rfl := (register_of_run_error hrun).2
      simp only [attempt, hrun, Log.accepted_cons_error, ih w']
    · simp only [attempt, hrun, Log.accepted_cons_ok, Log.registrations_cons, ih w']

/-- The workbench comes to the same draft as registration does. -/
theorem toDraft_attempt (rs : List Registration) (w : Workbench) :
    (attempt rs w).2.toDraft = w.toDraft.registerAll rs := by
  induction rs generalizing w with
  | nil => rfl
  | cons r rs ih =>
    rcases hrun : (perform r).run w with ⟨fault | t, w'⟩ <;>
      simp only [attempt, hrun, registerAll, List.foldl_cons]
    · obtain ⟨hregister, rfl⟩ := register_of_run_error hrun
      rw [hregister]
      exact ih w'
    · rw [(register_of_run_ok hrun).1]
      exact ih w'

/-- **What is sealed on a workbench is what the draft of the same calls is sealed to.** -/
theorem toProgram_attempt (exportName : QualifiedName) (rs : List Registration) :
    (attempt rs (empty exportName)).2.toProgram =
      ((Draft.empty exportName).registerAll rs).toProgram := by
  rw [toProgram_of_inStep (inStep_attempt rs (inStep_empty exportName)), toDraft_attempt]
  rfl

/-- The types on the workbench are those that calls were answered with. -/
theorem hasType_attempt (rs : List Registration) (w : Workbench) (t : Token) :
    (attempt rs w).2.hasType t = true ↔ w.hasType t = true ∨ t ∈ (attempt rs w).1.types := by
  induction rs generalizing w with
  | nil => simp [attempt, Log.types]
  | cons r rs ih =>
    rcases hrun : (perform r).run w with ⟨fault | u, w'⟩ <;> simp only [attempt, hrun]
    · obtain rfl := (register_of_run_error hrun).2
      rw [ih w']
      simp [Log.types]
    · rw [ih w', hasType_register (register_of_run_ok hrun).1 t]
      rcases r with e | e | ⟨inner, outer⟩ <;> simp [Log.types, or_assoc]

/-- A call adds at most one row to a table. -/
theorem sizes_attempt (rs : List Registration) (w : Workbench) :
    (attempt rs w).2.types.size ≤ w.types.size + rs.length ∧
      (attempt rs w).2.methods.size ≤ w.methods.size + rs.length := by
  induction rs generalizing w with
  | nil => simp [attempt]
  | cons r rs ih =>
    rcases hrun : (perform r).run w with ⟨fault | t, w'⟩ <;>
      simp only [attempt, hrun, List.length_cons]
    · obtain rfl := (register_of_run_error hrun).2
      have hrest := ih w'
      omega
    · have hrest := ih w'
      obtain ⟨-, hcase⟩ := register_cases (register_of_run_ok hrun).1
      have hstep : w'.types.size ≤ w.types.size + 1 ∧ w'.methods.size ≤ w.methods.size + 1 := by
        rcases hcase with ⟨e, -, -, -, -, htypes, hmethods⟩ |
          ⟨e, -, -, -, -, -, htypes, hmethods⟩ | ⟨outer, i, -, -, -, htypes, hmethods⟩ <;>
          simp [htypes, hmethods]
      omega

/-- The calls before an entry lead to the workbench on which its call was tried. -/
theorem exists_before {before after : Log} {r : Registration} {answer : Except Fault Token}
    (h : (attempt rs w).1 = before ++ (r, answer) :: after) :
    ∃ w', attempt before.registrations w = (before, w') ∧ ((perform r).run w').1 = answer := by
  induction rs generalizing w before with
  | nil => simp [attempt] at h
  | cons s rs ih =>
    rw [attempt] at h
    rcases before with _ | ⟨entry, before⟩
    · simp only [List.nil_append, List.cons.injEq, Prod.mk.injEq] at h
      obtain ⟨⟨rfl, hanswer⟩, -⟩ := h
      exact ⟨w, rfl, hanswer⟩
    · simp only [List.cons_append, List.cons.injEq] at h
      obtain ⟨rfl, hrest⟩ := h
      obtain ⟨w', hbefore, hanswer⟩ := ih hrest
      refine ⟨w', ?_, hanswer⟩
      simp only [Log.registrations_cons, attempt, hbefore]

/-- An answer tells what the call needs of the types that earlier calls registered. -/
theorem answer_eq_error_iff {exportName : QualifiedName} (hlength : rs.length ≤ Token.lastRow)
    {before after : Log} {r : Registration} {answer : Except Fault Token}
    (h : (attempt rs (empty exportName)).1 = before ++ (r, answer) :: after) (fault : Fault) :
    answer = .error fault ↔ r.fault? before.types = some fault := by
  obtain ⟨w, hbefore, rfl⟩ := exists_before h
  have hshorter : before.registrations.length < rs.length := by
    rw [← registrations_attempt rs (empty exportName), h]
    simp [Log.registrations]
  have hsizes : w.types.size ≤ before.registrations.length ∧
      w.methods.size ≤ before.registrations.length := by
    have hall := sizes_attempt before.registrations (empty exportName)
    rw [hbefore] at hall
    simpa [empty, Draft.empty] using hall
  have hknown : ∀ t, w.hasType t = true ↔ t ∈ before.types := by
    intro t
    have htypes := hasType_attempt before.registrations (empty exportName) t
    have hnone : (empty exportName).hasType t = false := by
      rw [Bool.eq_false_iff, Ne, hasType_iff]
      rintro ⟨i, hi, -⟩
      exact Nat.not_lt_zero i hi
    rwa [hbefore, hnone, Bool.false_eq_true, false_or] at htypes
  rw [← register_eq_error_iff hknown (by omega) (by omega), run_perform]
  rcases w.register r with found | ⟨t, d⟩ <;> simp

/-! ### The outcome -/

/-- **Calls that fail leave no trace.**  Every call of any sequence gets its answer; and
    if those that failed are left out, the others get the answers that they had before,
    the same workbench results, and so does the same program or the same fault when it is
    sealed.  As long as no table can be full, a call fails if and only if it
    registers something without a name, or needs a type that no earlier call has
    registered; and the fault says which. -/
theorem failed_calls_leave_no_trace (exportName : QualifiedName) (rs : List Registration) :
    let tried := attempt rs (empty exportName)
    let again := attempt tried.1.accepted.registrations (empty exportName)
    tried.1.registrations = rs ∧
    again = (tried.1.accepted, tried.2) ∧
    again.2.toProgram = tried.2.toProgram ∧
    (rs.length ≤ Token.lastRow →
      ∀ (before after : Log) r answer, tried.1 = before ++ (r, answer) :: after →
        ∀ fault, answer = .error fault ↔ r.fault? before.types = some fault) := by
  intro tried again
  have hagain : again = (tried.1.accepted, tried.2) := attempt_accepted rs (empty exportName)
  refine ⟨registrations_attempt rs _, hagain, by rw [hagain], ?_⟩
  intro hlength before after r answer hlog fault
  exact answer_eq_error_iff hlength hlog fault

/-- Five calls that fail among five that do not: without a name, on a type that comes
    only later, in no type at all, on a method, and once more without a name. -/
def mishaps : List Registration :=
  let app : Assembly := ⟨"App", .unknown, none⟩
  [ .type { assembly := app, name := ⟨"App", ""⟩ },
    .method { owner := .ofTypeIndex 0, name := "Early" },
    .type { assembly := app, name := ⟨"App", "View"⟩ },
    .method { owner := .ofTypeIndex 0, name := "Draw", overrides := [.ofMethodIndex 1] },
    .nest (.ofTypeIndex 0) ⟨0⟩,
    .method { owner := .ofMethodIndex 0, name := "Draw" },
    .type { assembly := app, name := ⟨"App", "Layer"⟩, base := some (.ofTypeIndex 0) },
    .method { owner := .ofTypeIndex 1, name := "" },
    .method { owner := .ofTypeIndex 1, name := "Draw" },
    .nest (.ofTypeIndex 1) (.ofTypeIndex 0) ]

theorem failed_calls_leave_no_trace_mishaps :
    let tried := attempt mishaps empty
    let again := attempt tried.1.accepted.registrations empty
    mishaps.length ≤ Token.lastRow ∧ tried.1.accepted.length = 5 ∧
      again = (tried.1.accepted, tried.2) ∧
      tried.2.toProgram.toOption.isSome ∧ again.2.toProgram = tried.2.toProgram ∧
      ∀ (before after : Log) r answer, tried.1 = before ++ (r, answer) :: after →
        ∀ fault, answer = .error fault ↔ r.fault? before.types = some fault := by
  intro tried again
  obtain ⟨-, hagain, hprogram, hfault⟩ := failed_calls_leave_no_trace exportAttribute mishaps
  have hlength : mishaps.length ≤ Token.lastRow := by decide
  exact ⟨hlength, by decide +kernel, hagain, by decide +kernel, hprogram, hfault hlength⟩

end Workbench

end TrimGuard
