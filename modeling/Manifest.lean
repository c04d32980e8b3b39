import Manifest.Access
import Manifest.Addition
import Manifest.Cleaner
import Manifest.Digest.Base64
import Manifest.Digest.Sha256
import Manifest.Entries
import Manifest.Fault
import Manifest.Fields
import Manifest.Fingerprint
import Manifest.Json.Canonical
import Manifest.Json.Reader
import Manifest.Json.Token
import Manifest.Location
import Manifest.Note
import Manifest.Number
import Manifest.Number.Fixed
import Manifest.Number.Shortest
import Manifest.Patch
import Manifest.Path
import Manifest.Path.Pointer
import Manifest.Path.Query
import Manifest.Proofs.Applying
import Manifest.Proofs.Cleaning
import Manifest.Proofs.Commuting
import Manifest.Proofs.Content
import Manifest.Proofs.Creation
import Manifest.Proofs.Decoding
import Manifest.Proofs.Ending
import Manifest.Proofs.Erasing
import Manifest.Proofs.Extension
import Manifest.Proofs.FanOut
import Manifest.Proofs.Fingerprint
import Manifest.Proofs.Instances
import Manifest.Proofs.Labels
import Manifest.Proofs.LastKey
import Manifest.Proofs.LastWrite
import Manifest.Proofs.Location
import Manifest.Proofs.Minimality
import Manifest.Proofs.Naming
import Manifest.Proofs.NumberText
import Manifest.Proofs.Obstacles
import Manifest.Proofs.Operations
import Manifest.Proofs.Patch
import Manifest.Proofs.Pointer
import Manifest.Proofs.Query
import Manifest.Proofs.Reading
import Manifest.Proofs.Removal
import Manifest.Proofs.Reports
import Manifest.Proofs.Rewriting
import Manifest.Proofs.Sameness
import Manifest.Proofs.Search
import Manifest.Proofs.SetByPatch
import Manifest.Proofs.Targets
import Manifest.Proofs.Undoing
import Manifest.Proofs.Update
import Manifest.Proofs.Writing
import Manifest.Resource
import Manifest.Selector
import Manifest.Text.CaseRanges
import Manifest.Text.LowerCase
import Manifest.Text.Units
import Manifest.Update
import Manifest.Value
import Manifest.Value.Detached
import Manifest.Value.Identity
import Manifest.Visit
import Manifest.Visit.Lemmas
import Manifest.Visit.Trail
import Manifest.Proofs.Sequences
import Manifest.Proofs.Sightings
import Manifest.Proofs.Halting
import Manifest.Proofs.Collecting
import Manifest.Proofs.Refusal
import Manifest.Proofs.Selection
import Manifest.Proofs.Warnings
import Manifest.Proofs.QueryParts
import Manifest.Proofs.Acceptance
import Manifest.Proofs.Encoding
import Manifest.Proofs.Located
