import Surmise.Main
import Surmise.Proofs.Recovery
import Surmise.Proofs.Writes.Execution
import Surmise.Proofs.Refusal
import Surmise.Proofs.BlindWrite
import Surmise.Proofs.Reviving
import Surmise.Proofs.Containment
import Surmise.Proofs.Hoisting.Run
import Surmise.Proofs.Permanence
import Surmise.Proofs.Strictness.Directives
import Surmise.Proofs.Termination.Run
import Surmise.Proofs.Json.Emission
import Surmise.Proofs.Rendering.Spelling
import Surmise.Proofs.Constancy.Fault
import Surmise.Proofs.Decoding.Bytes
import Surmise.Proofs.Json.Covering
import Surmise.Proofs.Json.Fold
import Surmise.Proofs.EvalCode.Transparency
import Surmise.Proofs.EvalCode.Seclusion
import Surmise.Proofs.Json.Projection
import Surmise.Proofs.Json.Condensing
import Surmise.Proofs.Parsing.Progress
import Surmise.Proofs.Parsing.WellFormed
import Surmise.Proofs.Quotation.Continuation
import Surmise.Proofs.Respacing
import Surmise.Proofs.Equality
import Surmise.Proofs.Numerals.Text
import Surmise.Proofs.Units
import Surmise.Proofs.Termination.Joining
import Surmise.Proofs.Resolution
import Surmise.Proofs.Excerpt
import Surmise.Proofs.Strictness.Inheritance
