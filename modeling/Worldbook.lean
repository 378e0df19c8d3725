import Worldbook.Compilation
import Worldbook.Output
import Worldbook.Validation
import Worldbook.Proofs.Doubles
import Worldbook.Proofs.Recovery
import Worldbook.Proofs.Scanning
import Worldbook.Proofs.Values
import Worldbook.Proofs.Rereading
import Worldbook.Proofs.Lines
import Worldbook.Proofs.Nodes
import Worldbook.Proofs.Shapes
import Worldbook.Proofs.Silence
import Worldbook.Proofs.Records
import Worldbook.Proofs.Fields
import Worldbook.Proofs.Conditions
import Worldbook.Proofs.Filters
import Worldbook.Proofs.Pairs
import Worldbook.Proofs.Mutations
import Worldbook.Proofs.Forms
import Worldbook.Proofs.Variables
import Worldbook.Proofs.Bodies
import Worldbook.Proofs.Languages
import Worldbook.Proofs.Paths
import Worldbook.Proofs.Selections
import Worldbook.Proofs.Merging
import Worldbook.Proofs.Relocation
import Worldbook.Proofs.Reports
import Worldbook.Proofs.Runs
import Worldbook.Proofs.Readings
import Worldbook.Proofs.Items
import Worldbook.Proofs.Omissions
import Worldbook.Proofs.Continuation
import Worldbook.Proofs.Concatenation
import Worldbook.Proofs.Batches
import Worldbook.Proofs.Identity
import Worldbook.Proofs.Bindings
import Worldbook.Proofs.Entries
import Worldbook.Proofs.Files
import Worldbook.Proofs.RoundTrip
import Worldbook.Proofs.Decoding
import Worldbook.Proofs.Surfaces
import Worldbook.Proofs.Labels
import Worldbook.Proofs.Accounts
import Worldbook.Proofs.Coverage
import Worldbook.Proofs.Ordering
import Worldbook.Proofs.Contributions
import Worldbook.Proofs.Overwriting
import Worldbook.Proofs.Arguments
import Worldbook.Proofs.Skipping
import Worldbook.Proofs.Siblings
import Worldbook.Proofs.Raising
import Worldbook.Proofs.Lifting
import Worldbook.Proofs.Widening
import Worldbook.Proofs.Referents
import Worldbook.Proofs.Resolution
import Worldbook.Proofs.Issues
import Worldbook.Proofs.Trees
import Worldbook.Proofs.Places
import Worldbook.Proofs.Progress
import Worldbook.Proofs.Nesting
import Worldbook.Proofs.Blocks
import Worldbook.Proofs.Rounds
import Worldbook.Proofs.Lookup
import Worldbook.Proofs.Totality
import Worldbook.Proofs.Supplies
import Worldbook.Proofs.Provenance
import Worldbook.Proofs.Outcomes
import Worldbook.Proofs.Overflows
import Worldbook.Proofs.Spans
import Worldbook.Proofs.Literals
import Worldbook.Proofs.Words
import Worldbook.Proofs.Pieces
import Worldbook.Proofs.Keywords
