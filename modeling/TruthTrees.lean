import TruthTrees.Formula.Semantics
import TruthTrees.Formula.Grammar
import TruthTrees.Session.Reachable
import TruthTrees.Main
import TruthTrees.Proofs.Session.UndoRedo
import TruthTrees.Proofs.Session.ClosedSessions
import TruthTrees.Proofs.Session.Justifications
import TruthTrees.Proofs.Session.Refusals
import TruthTrees.Proofs.Session.Branches
import TruthTrees.Proofs.Checked.Sessions
import TruthTrees.Proofs.Formula.RoundTrip
import TruthTrees.Proofs.Register.Renaming
import TruthTrees.Proofs.Tree.Renaming
import TruthTrees.Proofs.Tree.TwinRules
import TruthTrees.Proofs.Tree.TwinSteps
import TruthTrees.Proofs.Tree.Recognition
import TruthTrees.Proofs.Tree.TwinOutcomes
import TruthTrees.Proofs.Session.Snapshots
import TruthTrees.Proofs.Session.Invariants
import TruthTrees.Proofs.Session.Limits
import TruthTrees.Proofs.Session.Contradictions
import TruthTrees.Proofs.Session.Checkmarks
import TruthTrees.Proofs.Tree.OpenBranches
import TruthTrees.Proofs.Session.OpenSessions
import TruthTrees.Proofs.Session.Marks
import TruthTrees.Proofs.Session.Premises
import TruthTrees.Proofs.Session.Scripts
import TruthTrees.Proofs.Session.Restoring
import TruthTrees.Proofs.Session.FoldOrder
import TruthTrees.Proofs.Session.ClosingOrder
import TruthTrees.Proofs.Session.Certificates
import TruthTrees.Proofs.Session.Deletions
import TruthTrees.Proofs.Session.Biconditionals
import TruthTrees.Proofs.Formula.NormalForm
import TruthTrees.Proofs.Formula.Spine
import TruthTrees.Proofs.Tree.DepthFirst
import TruthTrees.Proofs.Checked.Reader
import TruthTrees.Proofs.Formula.SymbolicText
import TruthTrees.Proofs.Checked.Comparisons
