import Lookahead.Session
import Lookahead.Feed.Script
import Lookahead.Filter.Rule
import Lookahead.Proofs.Pulling
import Lookahead.Proofs.Plans
import Lookahead.Proofs.Operations
import Lookahead.Proofs.Parts
import Lookahead.Proofs.EndOfInput
import Lookahead.Proofs.Pending
import Lookahead.Proofs.Sifting
import Lookahead.Proofs.FilteredRun
import Lookahead.Proofs.Retrying
import Lookahead.Proofs.Accounts
import Lookahead.Proofs.Sharing
import Lookahead.Proofs.Returns
import Lookahead.Proofs.Laziness
import Lookahead.Proofs.Admission
import Lookahead.Proofs.Ways
import Lookahead.Proofs.Scanning
import Lookahead.Proofs.Groups
import Lookahead.Proofs.Renumbering
import Lookahead.Proofs.Nesting
import Lookahead.Proofs.Reading
import Lookahead.Proofs.Wrapping
import Lookahead.Proofs.Alternatives
import Lookahead.Proofs.Spans
import Lookahead.Proofs.Order
import Lookahead.Proofs.Independence
import Lookahead.Proofs.Deliveries
import Lookahead.Proofs.Failing
import Lookahead.Proofs.Sessions
import Lookahead.Proofs.Slices
import Lookahead.Proofs.Conversion
import Lookahead.Proofs.Agreement
import Lookahead.Proofs.Stopping
import Lookahead.Proofs.Patience
import Lookahead.Proofs.Termination
import Lookahead.Proofs.Wording
import Lookahead.Proofs.Contrast
import Lookahead.Proofs.Replay
import Lookahead.Proofs.Chronicle
import Lookahead.Proofs.Evaluations
import Lookahead.Proofs.Sources
import Lookahead.Proofs.Descriptions
import Lookahead.Proofs.Previous
