import Regroup.Address
import Regroup.Binary64
import Regroup.Binary64.Shortest
import Regroup.CommandLine.Help
import Regroup.CommandLine.Request
import Regroup.CommandLine.Run
import Regroup.CommandLine.Switch
import Regroup.Edge
import Regroup.Export
import Regroup.Fields
import Regroup.Files
import Regroup.Fresh
import Regroup.Json
import Regroup.Json.Codec
import Regroup.Json.Reader
import Regroup.Json.Token
import Regroup.Json.Writer
import Regroup.Main
import Regroup.Naming
import Regroup.Path
import Regroup.Placeholder
import Regroup.Proofs.Accounting
import Regroup.Proofs.Admission
import Regroup.Proofs.Agreement
import Regroup.Proofs.Capture
import Regroup.Proofs.Coherence
import Regroup.Proofs.Consistency
import Regroup.Proofs.Consumers
import Regroup.Proofs.Conversion
import Regroup.Proofs.Dangling
import Regroup.Proofs.Declarations
import Regroup.Proofs.Departure
import Regroup.Proofs.DepthFirst
import Regroup.Proofs.Documents
import Regroup.Proofs.Entries
import Regroup.Proofs.Freshness
import Regroup.Proofs.Grounded
import Regroup.Proofs.Ingested
import Regroup.Proofs.Inlining
import Regroup.Proofs.Keyed
import Regroup.Proofs.Links
import Regroup.Proofs.LongForms
import Regroup.Proofs.Moves
import Regroup.Proofs.Numbering
import Regroup.Proofs.Obtained
import Regroup.Proofs.Ordering
import Regroup.Proofs.Orphans
import Regroup.Proofs.Outputs
import Regroup.Proofs.Placement
import Regroup.Proofs.Precedence
import Regroup.Proofs.Reads
import Regroup.Proofs.Redirection
import Regroup.Proofs.Refilling
import Regroup.Proofs.Regeneration
import Regroup.Proofs.Reingestion
import Regroup.Proofs.Renames
import Regroup.Proofs.Reordering
import Regroup.Proofs.Replacement
import Regroup.Proofs.Reproduction
import Regroup.Proofs.Restatement
import Regroup.Proofs.Restoration
import Regroup.Proofs.Reversal
import Regroup.Proofs.Shapes
import Regroup.Proofs.RoundTrip
import Regroup.Proofs.Rounds
import Regroup.Proofs.Sharing
import Regroup.Proofs.Splitting
import Regroup.Proofs.Stability
import Regroup.Proofs.Transit
import Regroup.Proofs.Views
import Regroup.Proofs.Visits
import Regroup.Reference
import Regroup.Reference.Redirect
import Regroup.Reference.Scan
import Regroup.Settings
import Regroup.Store
import Regroup.Store.Order
import Regroup.Store.Relocation
import Regroup.Template
import Regroup.Template.Codec
import Regroup.Template.File
import Regroup.Template.Generation
import Regroup.Template.Ingestion
import Regroup.Template.Text
import Regroup.Text
import Regroup.Text.Visible
import Regroup.Tree
import Regroup.Yaml
import Regroup.Yaml.Lexer
import Regroup.Yaml.Node
import Regroup.Yaml.Reader
import Regroup.Yaml.Scalar
import Regroup.Yaml.Shown
import Regroup.Yaml.Tag
import Regroup.Yaml.Token
import Regroup.Yaml.Words
import Regroup.Yaml.Writer
