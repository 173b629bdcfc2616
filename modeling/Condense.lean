import Condense.Json.Settings
import Condense.Json.Statement
import Condense.Json.Term
import Condense.Pass.Walk
import Condense.Proofs.Agreement
import Condense.Proofs.Classes
import Condense.Proofs.Encoding.Typing
import Condense.Proofs.Idempotence
import Condense.Proofs.Legibility
import Condense.Proofs.Loading
import Condense.Proofs.NormalForms
import Condense.Proofs.Origins
import Condense.Proofs.Persistence
import Condense.Proofs.Retention
import Condense.Proofs.Satisfiability
import Condense.Proofs.SinglePass
import Condense.Proofs.Tally
import Condense.Proofs.Totality
import Condense.Proofs.Transparency
import Condense.Proofs.Walks
import Condense.Proofs.Wrappers
import Condense.Solver.Exhaustive
import Condense.Solver.External
