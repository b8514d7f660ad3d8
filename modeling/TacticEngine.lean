import TacticEngine.Machine.Printer
import TacticEngine.Native.Script
import TacticEngine.Proofs.Native.Containment
import TacticEngine.Proofs.Native.Encoding
import TacticEngine.Tactic
import TacticEngine.Proofs.Native.Accounting
import TacticEngine.Proofs.Native.Callback
import TacticEngine.Proofs.Native.Nesting
import TacticEngine.Proofs.Agreement.Becoming
import TacticEngine.Proofs.Agreement.Completeness
import TacticEngine.Proofs.Agreement.Evaluation
import TacticEngine.Proofs.Agreement.Functional
import TacticEngine.Proofs.Reduction.HeadOnly
import TacticEngine.Proofs.Reduction.Erasure
import TacticEngine.Proofs.Native.Locality
import TacticEngine.Proofs.Reduction.Currying
import TacticEngine.Proofs.Native.Comparison
import TacticEngine.Proofs.Sharing.Subsequence
import TacticEngine.Proofs.Reduction.Stuck
import TacticEngine.Proofs.State.Bookkeeping
import TacticEngine.Proofs.Machine.Scope
import TacticEngine.Proofs.Native.Transport
import TacticEngine.Proofs.Agreement.Engines
import TacticEngine.Proofs.Native.Failures
import TacticEngine.Proofs.Machine.Canonical
import TacticEngine.Proofs.Native.Switches
import TacticEngine.Proofs.Agreement.Sources
import TacticEngine.Proofs.Term.Words
import TacticEngine.Proofs.Machine.Applications
