import FieldLookahead.Response.Info
import FieldLookahead.Schema.Serialized
import FieldLookahead.Value.Inspect
import FieldLookahead.Main
import FieldLookahead.Proofs.Outcome
import FieldLookahead.Proofs.Echo
import FieldLookahead.Proofs.OrderedMap
import FieldLookahead.Proofs.Schema.Ancestry
import FieldLookahead.Proofs.Schema.Built
import FieldLookahead.Proofs.Schema.PossibleTypes
import FieldLookahead.Proofs.Schema.Conformance
import FieldLookahead.Proofs.Fragment.Unfolding
import FieldLookahead.Proofs.Fragment.Reached
import FieldLookahead.Proofs.Fragment.Rearrangement
import FieldLookahead.Proofs.Fragment.Inlining
import FieldLookahead.Proofs.Lookahead.Accumulation
import FieldLookahead.Proofs.Lookahead.Containment
import FieldLookahead.Proofs.Lookahead.Attribution
import FieldLookahead.Proofs.Lookahead.Contents
import FieldLookahead.Proofs.Lookahead.TypeNames
import FieldLookahead.Proofs.Lookahead.Completion
import FieldLookahead.Proofs.Lookahead.Rearrangement
import FieldLookahead.Proofs.Lookahead.Repetition
import FieldLookahead.Proofs.Lookahead.Merging
import FieldLookahead.Proofs.Lookahead.WellTyped
import FieldLookahead.Proofs.Plan.Gathering
import FieldLookahead.Proofs.Plan.Traversal
import FieldLookahead.Proofs.Plan.Walk
import FieldLookahead.Proofs.Plan.Agreement
import FieldLookahead.Proofs.Plan.Inlining
import FieldLookahead.Proofs.Plan.Soundness
import FieldLookahead.Proofs.Query.Places
import FieldLookahead.Proofs.Plan.Encounters
import FieldLookahead.Proofs.Fragment.Rotation
import FieldLookahead.Proofs.Fragment.Cycles
import FieldLookahead.Proofs.Fragment.Descent
import FieldLookahead.Proofs.Fragment.Runs
import FieldLookahead.Proofs.Lookahead.Descent
import FieldLookahead.Proofs.Plan.Descent
import FieldLookahead.Proofs.Schema.Definitions
import FieldLookahead.Proofs.Schema.Integrity
import FieldLookahead.Proofs.Schema.Search
import FieldLookahead.Proofs.Lookahead.Paths
import FieldLookahead.Proofs.Lookahead.Union
import FieldLookahead.Proofs.Lookahead.Semilattice
import FieldLookahead.Proofs.Plan.PositionTree
import FieldLookahead.Proofs.Plan.Survey
import FieldLookahead.Proofs.Fragment.Documents
import FieldLookahead.Proofs.Plan.Locality
import FieldLookahead.Proofs.Schema.Loading
import FieldLookahead.Proofs.Schema.Lengthening
import FieldLookahead.Proofs.Schema.Declarations
import FieldLookahead.Proofs.Lookahead.Interruption
import FieldLookahead.Proofs.Lookahead.Soundness
import FieldLookahead.Proofs.Lookahead.Separation
import FieldLookahead.Proofs.Schema.Reordering
import FieldLookahead.Proofs.Lookahead.Reordering
import FieldLookahead.Proofs.Plan.Reordering
import FieldLookahead.Proofs.Lookahead.Frame
import FieldLookahead.Proofs.Plan.UnknownFragment
import FieldLookahead.Proofs.Value.Descent
import FieldLookahead.Proofs.Value.Sharing
import FieldLookahead.Proofs.Value.Layout
import FieldLookahead.Proofs.Value.Inlining
import FieldLookahead.Proofs.Text.Quoted
import FieldLookahead.Proofs.Syntax.Word
import FieldLookahead.Proofs.Json
import FieldLookahead.Proofs.Lookahead.Written
import FieldLookahead.Proofs.Schema.TypeReference
import FieldLookahead.Proofs.Response.Path
