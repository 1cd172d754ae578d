import DMTree.Proofs.CasAllProofs
import DMTree.Proofs.CombiningProofs
import DMTree.Proofs.DelegationProofs
import DMTree.Proofs.IntegrityProofs
import DMTree.Proofs.KeeperProofs
import DMTree.Proofs.LeafContentsProofs
import DMTree.Proofs.LeafHandleProofs
import DMTree.Proofs.LeafSteps
import DMTree.Proofs.LocalCopyProofs
import DMTree.Proofs.LockProofs
import DMTree.Proofs.QuorumReadProofs
import DMTree.Proofs.QuorumWaitProofs
import DMTree.Proofs.RawGrowProofs
import DMTree.Proofs.RecordProofs
import DMTree.Proofs.RegionProofs
import DMTree.Proofs.SerialProofs
import DMTree.Proofs.TurnWrapProofs
