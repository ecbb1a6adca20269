import Taproot.Wire.Shape
import Taproot.Scale
import Taproot.Json
import Taproot.Signature.Signing
import Taproot.Witness
import Taproot.Proofs.Curve.Primes
import Taproot.Proofs.Curve.Field
import Taproot.Proofs.Curve.Group
import Taproot.Proofs.Curve.Lift
import Taproot.Proofs.Curve.Multiple
import Taproot.Proofs.Curve.Order
import Taproot.Proofs.Key.Pair
import Taproot.Proofs.Key.Encoding
import Taproot.Proofs.Key.Tweak
import Taproot.Proofs.Key.Combine
import Taproot.Proofs.Key.Subtract
import Taproot.Proofs.Key.Negation
import Taproot.Proofs.Key.Homomorphism
import Taproot.Proofs.Key.Rearrangement
import Taproot.Proofs.Signature.Signing
import Taproot.Proofs.Signature.Response
import Taproot.Proofs.Signature.Batch
import Taproot.Proofs.Branch.Sound
import Taproot.Proofs.Branch.History
import Taproot.Proofs.Wire.Shape
import Taproot.Proofs.ControlBlock.Serialize
import Taproot.Proofs.ControlBlock.Check
import Taproot.Proofs.ControlBlock.Commit
import Taproot.Proofs.ControlBlock.LeafVersion
import Taproot.Proofs.Tree.Preimage
import Taproot.Proofs.Tree.Depth
import Taproot.Proofs.Tree.Rooted
import Taproot.Proofs.Tree.Reroot
import Taproot.Proofs.Collision
import Taproot.Proofs.ControlBlock.Binding
import Taproot.Proofs.ControlBlock.Acceptance
import Taproot.Proofs.Tree.Digits
import Taproot.Proofs.Tree.Grammar
import Taproot.Proofs.Tree.Parsing
import Taproot.Proofs.Tree.Alike
import Taproot.Proofs.Tree.Text
import Taproot.Proofs.Branch.MergeTree
import Taproot.Proofs.Branch.Text
import Taproot.Proofs.Branch.Rooting
import Taproot.Proofs.Branch.Subtree
import Taproot.Proofs.Branch.FirstLeaf
import Taproot.Proofs.Branch.Agreement
import Taproot.Proofs.Signature.Serialize
import Taproot.Proofs.Scale
import Taproot.Proofs.Json
import Taproot.Proofs.Signature.Provenance
import Taproot.Proofs.Witness
import Taproot.Proofs.Branch.EitherOrder
import Taproot.Proofs.Tree.KnownNodes
