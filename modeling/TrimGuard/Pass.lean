/-
  TrimGuard/Pass.lean
  ===================
  **The preservation pass.**

  The pass goes through the types of a program, makes a plan for each, and carries
  it out on a retention store.  A type whose plan cannot be made leaves the store
  as it was, and ends the pass; what was written for the types before it stays.

  Besides the store, two things change along the way and outlive a failed pass:
  the remembered provenance of assemblies, and the log.
-/
import TrimGuard.Pass.Plan

namespace TrimGuard

/-! ### Carrying out a plan -/

/-- Carry out orders one after the other.  The answer lists those that changed
    something. -/
def Retention.obey (r : Retention) : List Order → List Order × Retention
  | [] => ([], r)
  | o :: rest =>
    let (changed, r) := r.write o.write
    let (done, r) := r.obey rest
    (if changed then o :: done else done, r)

/-- The tally of one type, from its role and the orders that changed something. -/
def Tally.ofType (role : Role) (done : List Order) : Tally where
  types := 1
  bridgeObjects := if role = .bridgeObject then 1 else 0
  handleWrappers := if role = .handleWrapper then 1 else 0
  wholeTypes := done.countP fun o => o matches .whole _
  methods := done.countP fun o => o matches .member _ _

/-! ### Running -/

namespace Pass

/-- What changes while a pass runs. -/
structure Progress where
  memo : Provenance.Memo := {}
  retention : Retention := {}
  notices : Array Notice := #[]

def Progress.note (s : Progress) (ns : List Notice) : Progress :=
  { s with notices := s.notices ++ ns }

def process (pass : Pass) (t : TypeDef) (s : Progress) : Except Fault Tally × Progress :=
  match (pass.plan t).run s.memo with
  | (.error fault, memo) => (.error fault, { s with memo })
  | (.ok plan, memo) =>
    let (done, retention) := s.retention.obey plan.orders
    (.ok (.ofType plan.role done),
      { s with memo, retention }.note (done.map Order.notice))

/-- Process types in order, up to the first fault.  `sum` is the tally so far. -/
def processAll (pass : Pass) (sum : Tally) :
    List TypeDef → Progress → Except Fault Tally × Progress
  | [], s => (.ok sum, s)
  | t :: rest, s =>
    match pass.process t s with
    | (.error fault, s) => (.error fault, s)
    | (.ok tally, s) => pass.processAll (sum + tally) rest s

/-- Process all types of the program in the order of their tokens.  If all goes
    well, the log closes with the tally and the summary of the store. -/
def run (pass : Pass) (s : Progress) : Except Fault Tally × Progress :=
  match pass.processAll 0 pass.program.types.toList s with
  | (.error fault, s) => (.error fault, s)
  | (.ok tally, s) => (.ok tally, s.note (.passDone tally :: s.retention.summary))

/-- Ask for the provenance of every assembly of the program. -/
def resolve (pass : Pass) (s : Progress) : Nat × Progress :=
  let assemblies := pass.program.types.assemblies
  let (product, memo) := (Provenance.Memo.resolve pass.profile assemblies).run s.memo
  (product, { s with memo })

/-- Run the pass after the provenance of every assembly has been settled, as is
    done before the types are shared out among workers. -/
def runResolved (pass : Pass) (s : Progress) : Except Fault Tally × Progress :=
  let (product, s) := pass.resolve s
  pass.run (s.note [.productShare product pass.program.types.assemblies.length])

end Pass

end TrimGuard
