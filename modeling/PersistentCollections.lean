import PersistentCollections.Hash.Fnv
import PersistentCollections.Json.Key
import PersistentCollections.Load.Factors
import PersistentCollections.Proofs.BulkInsertion
import PersistentCollections.Proofs.BulkLoads
import PersistentCollections.Proofs.HashIndependence
import PersistentCollections.Proofs.InsertionOrder
import PersistentCollections.Proofs.MapOrder
import PersistentCollections.Proofs.Rebuilding
import PersistentCollections.Proofs.SliceHistory
import PersistentCollections.Proofs.Unbreached
import PersistentCollections.Proofs.VectorCanonical
import PersistentCollections.Proofs.VectorHistory
import PersistentCollections.Proofs.VersionIdentity
import PersistentCollections.Proofs.WordArithmetic
import PersistentCollections.Text.Shown
import PersistentCollections.Version.Set
import PersistentCollections.Proofs.BothEnds
import PersistentCollections.Proofs.LeafWalks
import PersistentCollections.Proofs.MapEquality
import PersistentCollections.Proofs.SetComparisons
import PersistentCollections.Proofs.VersionEquality
import PersistentCollections.Proofs.MapWalks
import PersistentCollections.Proofs.RootGrowth
import PersistentCollections.Proofs.SliceAppend
import PersistentCollections.Proofs.Sizing
import PersistentCollections.Proofs.JsonRoundTrip
import PersistentCollections.Proofs.OperandLayout
import PersistentCollections.Proofs.SequenceFeeds
import PersistentCollections.Proofs.SizeOverflow
import PersistentCollections.Proofs.RightEdge
import PersistentCollections.Proofs.TableRoom
