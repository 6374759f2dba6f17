/-
  TrimGuard/Notice.lean
  =====================
  **What a pass reports while it works.**

  A notice is a fact worth a line in the log.  Its severity and its wording are
  functions of the notice.
-/
import TrimGuard.Pass.Tally
import TrimGuard.Retention

namespace TrimGuard

/-- How much a notice matters. -/
inductive Severity where
  | debug
  | info
deriving DecidableEq

def Severity.text : Severity → String
  | .debug => "DEBUG"
  | .info => "INFO"

/-- A fact worth a line in the log. -/
inductive Notice where
  /-- So many of all assemblies are product code. -/
  | productShare (product all : Nat)
  /-- A type is newly retained as a whole. -/
  | wholeType (fullName : String) (t : Token)
  /-- A method is newly retained. -/
  | method (owner name : String) (m : Token)
  | passDone (tally : Tally)
  | levelCount (level : Level) (n : Nat)
  | keptCount (n : Nat)
deriving DecidableEq

namespace Notice

/-- Single decisions are details, sums are not. -/
def severity : Notice → Severity
  | productShare .. | wholeType .. | method .. => .debug
  | passDone .. | levelCount .. | keptCount .. => .info

open Text in
def text : Notice → String
  | productShare product all =>
    decimal product ++ " of " ++ decimal all ++ " assemblies are product code"
  | wholeType fullName t => "preserving type " ++ fullName ++ " (" ++ t.text ++ ")"
  | method owner name m =>
    "preserving method " ++ owner ++ "::" ++ name ++ " (" ++ m.text ++ ")"
  | passDone tally =>
    "bridge preservation: " ++ decimal tally.types ++ " types inspected, " ++
      decimal tally.bridgeObjects ++ " bridge objects, " ++
      decimal tally.handleWrappers ++ " handle-wrapped, " ++
      decimal tally.wholeTypes ++ " types preserved whole, " ++
      decimal tally.methods ++ " methods preserved"
  | levelCount level n => level.text ++ ": " ++ decimal n ++ " types"
  | keptCount n => "explicitly preserved methods: " ++ decimal n

/-- The line of the log: the severity, then the wording. -/
def line (n : Notice) : String := n.severity.text ++ " " ++ n.text

end Notice

/-- The summary of a store: how many types it retains at each level above
    `none`, and how many methods. -/
def Retention.summary (r : Retention) : List Notice :=
  [.levelCount .members (r.count .members), .levelCount .all (r.count .all),
   .keptCount r.keptCount]

end TrimGuard
