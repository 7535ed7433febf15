import Shortcode.Build
import Shortcode.Proofs.Grammar
import Shortcode.Script
import Shortcode.Settings.Check
import Shortcode.Standard
import Shortcode.Proofs.Reading
import Shortcode.Proofs.Written
import Shortcode.Proofs.RoundTrip
import Shortcode.Proofs.Agreement
import Shortcode.Proofs.Determinism
import Shortcode.Proofs.Tiling
import Shortcode.Proofs.Bodies
import Shortcode.Proofs.Standard
import Shortcode.Proofs.Groups
import Shortcode.Proofs.Cancellation
import Shortcode.Proofs.Isolation
import Shortcode.Proofs.Offsets
import Shortcode.Proofs.Accounts
import Shortcode.Proofs.Blame
import Shortcode.Proofs.Stopping
import Shortcode.Proofs.Depth
import Shortcode.Proofs.Deeper
import Shortcode.Proofs.CancelledBuild
import Shortcode.Proofs.Surfacing
import Shortcode.Proofs.Success
import Shortcode.Proofs.Wrapping
import Shortcode.Proofs.Seams
import Shortcode.Proofs.Slots
import Shortcode.Proofs.Timeouts
import Shortcode.Proofs.Concurrence
import Shortcode.Proofs.Limits
import Shortcode.Proofs.Spelling
import Shortcode.Proofs.Diagnosis
import Shortcode.Proofs.Provenance
import Shortcode.Proofs.Bounds
import Shortcode.Proofs.Quoting
import Shortcode.Proofs.Histories
import Shortcode.Proofs.Names
import Shortcode.Proofs.Stability
import Shortcode.Proofs.Escaping
import Shortcode.Proofs.Twins
import Shortcode.Proofs.Values
import Shortcode.Proofs.Inertness
import Shortcode.Proofs.Quotations
import Shortcode.Proofs.Progress
import Shortcode.Proofs.Delimiters
import Shortcode.Proofs.Foresight
import Shortcode.Proofs.Overlap
import Shortcode.Proofs.Lookups
