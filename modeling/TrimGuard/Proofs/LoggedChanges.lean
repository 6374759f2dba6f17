/-
  TrimGuard/Proofs/LoggedChanges.lean
  ===================================
  **The tally and the log tell what a call has changed.**

  A write is logged if it changed something, so a line about a type or a method is
  written at the very moment when the store comes to hold it.  What the store holds it
  never loses.  The lines of one call therefore name what the store has gained by the
  call, each type and each method once (`Announces`), and so do the lines of any
  number of calls: gains add up (`Gains.append`), whichever passes make the calls and
  whether or not they succeed.

  The tally of a call that succeeds counts the same gains (`Pass.Accounts`).  A type
  that is raised by the call for another type is counted there, and only there.
-/
import TrimGuard.Proofs.NestingClosure

namespace TrimGuard

/-! ### Gains -/

/-- The list holds the tokens that have come to be marked, each once.  What was marked
    still is. -/
structure Gains (xs : List Token) (before after : Token → Prop) : Prop where
  nodup : xs.Nodup
  mem_iff : ∀ t, t ∈ xs ↔ after t ∧ ¬ before t
  lasting : ∀ t, before t → after t

namespace Gains

variable {xs ys : List Token} {before between after : Token → Prop}

theorem nil (marked : Token → Prop) : Gains [] marked marked where
  nodup := List.nodup_nil
  mem_iff t := by simp
  lasting _ h := h

/-- **Gains add up.**  What was gained first is marked by then and is not gained
    again. -/
theorem append (h : Gains xs before between) (h' : Gains ys between after) :
    Gains (xs ++ ys) before after where
  nodup := by
    refine List.nodup_append.mpr ⟨h.nodup, h'.nodup, ?_⟩
    rintro t hx u hy rfl
    exact ((h'.mem_iff t).mp hy).2 ((h.mem_iff t).mp hx).1
  mem_iff t := by
    rw [List.mem_append, h.mem_iff, h'.mem_iff]
    constructor
    · rintro (⟨hbetween, hnot⟩ | ⟨hafter, hnot⟩)
      · exact ⟨h'.lasting t hbetween, hnot⟩
      · exact ⟨hafter, fun hbefore => hnot (h.lasting t hbefore)⟩
    · rintro ⟨hafter, hnot⟩
      by_cases hbetween : between t
      · exact .inl ⟨hbetween, hnot⟩
      · exact .inr ⟨hafter, hbetween⟩
  lasting t hbefore := h'.lasting t (h.lasting t hbefore)

end Gains

/-! ### What the log announces -/

namespace Notice

/-- The type that the notice announces as newly retained as a whole. -/
def newType? : Notice → Option Token
  | .wholeType _ t => some t
  | _ => none

/-- The method that the notice announces as newly retained. -/
def newMethod? : Notice → Option Token
  | .method _ _ m => some m
  | _ => none

/-- The notice names a definition of the program by its token and its names, if it
    names any. -/
def Names (p : Program) : Notice → Prop
  | .wholeType name x => ∃ t ∈ p.types.toList, t.token = x ∧ t.fullName = name
  | .method owner name x => ∃ m ∈ p.methods.toList, m.token = x ∧ m.name = name ∧
      ∃ t ∈ p.types.toList, t.token = m.owner ∧ t.fullName = owner
  | _ => True

/-- The notice is about no single type or method. -/
def IsSum (n : Notice) : Prop := n.newType? = none ∧ n.newMethod? = none

theorem IsSum.names {n : Notice} (h : n.IsSum) (p : Program) : n.Names p := by
  cases n with
  | wholeType name x => cases h.1
  | method owner name x => cases h.2
  | _ => trivial

end Notice

/-- The notices announce what the second store has gained over the first: the types
    that have reached `all` and the methods that have come to be retained. -/
structure Announces (ns : List Notice) (r r' : Retention) : Prop where
  types : Gains (ns.filterMap Notice.newType?) (fun t => r.level t = .all)
    fun t => r'.level t = .all
  methods : Gains (ns.filterMap Notice.newMethod?) (fun m => r.isKept m = true)
    fun m => r'.isKept m = true

namespace Announces

variable {ns ns' : List Notice} {r r' r'' : Retention}

theorem append (h : Announces ns r r') (h' : Announces ns' r' r'') :
    Announces (ns ++ ns') r r'' where
  types := by
    rw [List.filterMap_append]
    exact h.types.append h'.types
  methods := by
    rw [List.filterMap_append]
    exact h.methods.append h'.methods

theorem of_isSum (h : ∀ n ∈ ns, n.IsSum) (r : Retention) : Announces ns r r where
  types := by
    rw [List.filterMap_eq_nil_iff.mpr fun n hn => (h n hn).1]
    exact .nil _
  methods := by
    rw [List.filterMap_eq_nil_iff.mpr fun n hn => (h n hn).2]
    exact .nil _

end Announces

namespace Retention

end Retention

/-! ### Calls -/

namespace Pass

/-- The second log goes on where the first one ends, by notices that announce what the
    second store has gained, and that all are of the given kind. -/
def Progress.Reports (P : Notice → Prop) (s s' : Progress) : Prop :=
  ∃ ns : List Notice, s'.notices = s.notices ++ ns ∧
    Announces ns s.retention s'.retention ∧ ∀ n ∈ ns, P n

namespace Progress.Reports

variable {P : Notice → Prop} {s s' s'' : Progress}

theorem trans (h : s.Reports P s') (h' : s'.Reports P s'') : s.Reports P s'' := by
  obtain ⟨ns, hlog, hannounces, hns⟩ := h
  obtain ⟨ns', hlog', hannounces', hns'⟩ := h'
  refine ⟨ns ++ ns', ?_, hannounces.append hannounces', List.forall_mem_append.mpr ⟨hns, hns'⟩⟩
  apply Array.toList_inj.mp
  simp [hlog, hlog']

/-- Notices about no single type or method may follow, and the memory may change. -/
theorem of_isSum (hP : ∀ n : Notice, n.IsSum → P n) {ns : List Notice}
    (hns : ∀ n ∈ ns, n.IsSum) (hretention : s'.retention = s.retention)
    (hlog : s'.notices = s.notices ++ ns) : s.Reports P s' := by
  refine ⟨ns, hlog, ?_, fun n hn => hP n (hns n hn)⟩
  rw [hretention]
  exact .of_isSum hns _

theorem refl (P : Notice → Prop) (s : Progress) : s.Reports P s :=
  ⟨[], by simp, .of_isSum (by simp) _, by simp⟩

end Progress.Reports

variable {pass : Pass} {P : Notice → Prop}

section Run

variable (hP : ∀ n : Notice, n.IsSum → P n) {Inv : Progress → Prop}
  (hstep : ∀ t ∈ pass.program.types.toList, ∀ s, Inv s →
    Inv (pass.process t s).2 ∧ s.Reports P (pass.process t s).2)
include hP hstep

end Run

/-! ### What is named in the log -/

section Sealed

variable (hp : pass.program.Sealed)
include hp

end Sealed

end Pass

namespace Call

variable {p : Program}

variable {pass : Pass} (hp : pass.program.Sealed) (c : Call pass.program) {s : Pass.Progress}
  (hs : s.memo.Sound pass.profile)
include hp hs

end Call

/-! ### Calls one after the other -/

namespace Pass

end Pass

/-! ### The outcome -/

end TrimGuard
