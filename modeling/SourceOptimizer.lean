import SourceOptimizer.Fault.Raised
import SourceOptimizer.Main
import SourceOptimizer.Tree.Copy
import SourceOptimizer.Proofs.CallResults
import SourceOptimizer.Proofs.CommonClasses
import SourceOptimizer.Proofs.Decisions
import SourceOptimizer.Proofs.EncodedValues
import SourceOptimizer.Proofs.FilledSuites
import SourceOptimizer.Proofs.GeneratedNames
import SourceOptimizer.Proofs.InnerScopes
import SourceOptimizer.Proofs.Libraries
import SourceOptimizer.Proofs.LineLimit
import SourceOptimizer.Proofs.ModuleNames
import SourceOptimizer.Proofs.QuietRounds
import SourceOptimizer.Proofs.RepeatedRenaming
import SourceOptimizer.Proofs.ScopeFacts
import SourceOptimizer.Proofs.Signatures
import SourceOptimizer.Proofs.SkipRequests
