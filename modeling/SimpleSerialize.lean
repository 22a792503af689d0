import SimpleSerialize.Beacon.Chain
import SimpleSerialize.Decimal
import SimpleSerialize.Proofs.Layout.Written
import SimpleSerialize.Value.Path
import SimpleSerialize.Proofs.Layout.Elements
import SimpleSerialize.Proofs.Nodes
import SimpleSerialize.Proofs.Resolution
import SimpleSerialize.Proofs.Session
import SimpleSerialize.Proofs.Walk
import SimpleSerialize.Proofs.Canonical
import SimpleSerialize.Proofs.Normal
import SimpleSerialize.Proofs.RoundTrip
import SimpleSerialize.Proofs.RootOfBytes
import SimpleSerialize.Proofs.Merkle.Binding
import SimpleSerialize.Proofs.RecordedRoot
import SimpleSerialize.Proofs.Binding
import SimpleSerialize.Proofs.Overlay
import SimpleSerialize.Proofs.Alike
import SimpleSerialize.Proofs.Agreement
import SimpleSerialize.Proofs.Subclass
import SimpleSerialize.Proofs.StandIn
import SimpleSerialize.Proofs.Declaring
import SimpleSerialize.Proofs.Descent
import SimpleSerialize.Proofs.Cache
import SimpleSerialize.Proofs.ExactSize
import SimpleSerialize.Proofs.Resolvable
import SimpleSerialize.Proofs.Matching
import SimpleSerialize.Proofs.Links
import SimpleSerialize.Proofs.Lifting
import SimpleSerialize.Proofs.TypedRoundTrip
import SimpleSerialize.Proofs.Exposure
import SimpleSerialize.Proofs.Sketch
import SimpleSerialize.Proofs.Registering
import SimpleSerialize.Proofs.Beacon.Header
import SimpleSerialize.Proofs.Relabel
import SimpleSerialize.Proofs.ListAccessors
import SimpleSerialize.Proofs.Reordering
import SimpleSerialize.Proofs.RegistrationOrder
import SimpleSerialize.Proofs.Merkle.FullTree
import SimpleSerialize.Proofs.PackedCapacity
import SimpleSerialize.Proofs.Writing
import SimpleSerialize.Proofs.FixedSize
import SimpleSerialize.Proofs.Acceptance
import SimpleSerialize.Proofs.Sequences
import SimpleSerialize.Proofs.Range
import SimpleSerialize.Format.Read
import SimpleSerialize.Proofs.Layout.Spans
import SimpleSerialize.Proofs.Reading
import SimpleSerialize.Proofs.Installing
import SimpleSerialize.Proofs.SigningRoot
import SimpleSerialize.Proofs.Truthful
import SimpleSerialize.Proofs.Misplaced
import SimpleSerialize.Proofs.HexText
import SimpleSerialize.Proofs.OverlaidParts
import SimpleSerialize.Proofs.InstanceRoots
import SimpleSerialize.Proofs.Beacon.Genesis
import SimpleSerialize.Proofs.FaultNames
import SimpleSerialize.Proofs.AccessorChoice
import SimpleSerialize.Proofs.Redeclaring
import SimpleSerialize.Proofs.BasicBuffers
import SimpleSerialize.Proofs.KeptBounds
