import TrimGuard.Draft.Recall
import TrimGuard.Pass
import TrimGuard.Proofs.VersionText
import TrimGuard.Proofs.SealedProgram
import TrimGuard.Proofs.Climb
import TrimGuard.Proofs.WriteHistory
import TrimGuard.Proofs.FirstOccurrences
import TrimGuard.Proofs.StoreMeaning
import TrimGuard.Proofs.SameWrites
import TrimGuard.Proofs.RegistrationHistory
import TrimGuard.Proofs.WriteOrder
import TrimGuard.Proofs.ChangeCount
import TrimGuard.Proofs.SettledPlan
import TrimGuard.Proofs.PassRun
import TrimGuard.Proofs.PassOutcome
import TrimGuard.Proofs.NestingClosure
import TrimGuard.Proofs.PassOrder
import TrimGuard.Proofs.FailedRun
import TrimGuard.Proofs.RepeatedRun
import TrimGuard.Proofs.ResolvedRun
import TrimGuard.Proofs.BoundedClimb
import TrimGuard.Proofs.EndlessClimb
import TrimGuard.Proofs.ExportMarkers
import TrimGuard.Proofs.SealingOutcome
import TrimGuard.Proofs.RunCriterion
import TrimGuard.Proofs.LooserLimits
import TrimGuard.Proofs.ReachableFaults
import TrimGuard.Proofs.RoleMeaning
import TrimGuard.Proofs.InterfaceOrder
import TrimGuard.Proofs.CarriedProgram
import TrimGuard.Proofs.CarriedRun
import TrimGuard.Proofs.GrownProgram
import TrimGuard.Proofs.RenamedProgram
import TrimGuard.Proofs.DisplayName
import TrimGuard.Proofs.JoinedStore
import TrimGuard.Proofs.LoggedChanges
import TrimGuard.Proofs.ExportFlag
import TrimGuard.Proofs.OverrideIndex
import TrimGuard.Proofs.WalkOutcome
import TrimGuard.Proofs.BaseChain
import TrimGuard.Proofs.NameGrammar
import TrimGuard.Draft.Workbench
import TrimGuard.Proofs.FailedRegistrations
import TrimGuard.Proofs.WorkbenchProgram
import TrimGuard.Proofs.RememberedAnswers
import TrimGuard.Assembly.Scan
import TrimGuard.Proofs.VersionGrammar
import TrimGuard.Proofs.TokenPositions
