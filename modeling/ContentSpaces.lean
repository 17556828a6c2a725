import ContentSpaces.Draft
import ContentSpaces.Feed.Http
import ContentSpaces.Feed.Log
import ContentSpaces.Main
import ContentSpaces.Promotion.Execution
import ContentSpaces.Proofs.Cycle.Course
import ContentSpaces.Proofs.Cycle.Outcome
import ContentSpaces.Proofs.Cycle.Splitting
import ContentSpaces.Proofs.HonestCursor
import ContentSpaces.Proofs.Mirror
import ContentSpaces.Proofs.Promotion.Execution
import ContentSpaces.Proofs.Restart
import ContentSpaces.Proofs.Settlement
import ContentSpaces.Proofs.Snapshot.Replacement
import ContentSpaces.Proofs.Promotion.Outcome
import ContentSpaces.Proofs.Promotion.Preview
import ContentSpaces.Proofs.Promotion.Convergence
import ContentSpaces.Proofs.Draft.Links
import ContentSpaces.Proofs.Draft.Calls
import ContentSpaces.Proofs.Draft.Sessions
import ContentSpaces.Proofs.Draft.Lists
import ContentSpaces.Proofs.Draft.References
import ContentSpaces.Proofs.Draft.Registry
import ContentSpaces.Proofs.Comparison
import ContentSpaces.Proofs.Representation
import ContentSpaces.Proofs.Snapshot.Failure
import ContentSpaces.Proofs.Policies
import ContentSpaces.Proofs.Repetition
import ContentSpaces.Proofs.Persistence
import ContentSpaces.Proofs.Reload
import ContentSpaces.Proofs.Aggregate.Sensitivity
import ContentSpaces.Proofs.Draft.Failure
import ContentSpaces.Proofs.Draft.Orphans
import ContentSpaces.Proofs.Registration.Protocol
import ContentSpaces.Proofs.Registration.Schedule
import ContentSpaces.Proofs.Store.Update
import ContentSpaces.Proofs.Wire.Shapes
import ContentSpaces.Proofs.Json.Canonical
import ContentSpaces.Proofs.Aggregate.Recalculation
import ContentSpaces.Proofs.Patch.Resolution
import ContentSpaces.Proofs.Patch.Inverse
import ContentSpaces.Proofs.Patch.Move
import ContentSpaces.Proofs.Cycle.Registrations
import ContentSpaces.Proofs.Registration.Setbacks
import ContentSpaces.Proofs.Archive.Extraction
import ContentSpaces.Proofs.Archive.Collision
import ContentSpaces.Proofs.Promotion.Difference
import ContentSpaces.Proofs.Draft.Symmetry
import ContentSpaces.Proofs.Draft.Effects
import ContentSpaces.Proofs.Wire.Cursors
import ContentSpaces.Proofs.Sanitized
