import CondResolve.Main
import CondResolve.Proofs.Turn
import CondResolve.Proofs.Inclusion
import CondResolve.Proofs.Nesting
import CondResolve.Proofs.Scan
import CondResolve.Proofs.Splice
import CondResolve.Proofs.Loops
import CondResolve.Proofs.Rules
import CondResolve.Proofs.Reading
import CondResolve.Proofs.Classify
import CondResolve.Proofs.Word
import CondResolve.Proofs.Demand
import CondResolve.Proofs.Condition
import CondResolve.Proofs.Climbing
import CondResolve.Proofs.Advance
import CondResolve.Proofs.Altered
import CondResolve.Proofs.Table
import CondResolve.Proofs.Idempotence
import CondResolve.Proofs.Knowledge
import CondResolve.Proofs.Groups
import CondResolve.Proofs.Staged
import CondResolve.Proofs.Comments
import CondResolve.Proofs.Effects
import CondResolve.Proofs.Failures
import CondResolve.Proofs.Place
import CondResolve.Proofs.Session
import CondResolve.Proofs.Progress
import CondResolve.Proofs.Pruning
import CondResolve.Proofs.Project
import CondResolve.Proofs.Quick
import CondResolve.Proofs.Needed
import CondResolve.Proofs.Shaping
import CondResolve.Proofs.Coverage
import CondResolve.Proofs.Grammar
import CondResolve.Proofs.Decided
import CondResolve.Proofs.Rescans
import CondResolve.Proofs.Listed
import CondResolve.Proofs.Fresh
import CondResolve.Proofs.Blanks
import CondResolve.Proofs.Printed
import CondResolve.Proofs.Chains
import CondResolve.Proofs.Settled
import CondResolve.Proofs.Written
import CondResolve.Proofs.Traversal
import CondResolve.Proofs.Sweep
import CondResolve.Proofs.Vacant
import CondResolve.Proofs.Continued
import CondResolve.Proofs.Newlines
import CondResolve.Proofs.Limits
import CondResolve.Proofs.Names
import CondResolve.Proofs.Cursor
import CondResolve.Proofs.Operands
