import HeapImage.Checked.Maps
import HeapImage.Checked.Outcome
import HeapImage.Main
import HeapImage.Proofs.AddressOwners
import HeapImage.Proofs.AddressSums
import HeapImage.Proofs.ArenaSums
import HeapImage.Proofs.BitMapCalls
import HeapImage.Proofs.BlockExtents
import HeapImage.Proofs.CallOrder
import HeapImage.Proofs.CanonicalSnapshots
import HeapImage.Proofs.CheckedCopying
import HeapImage.Proofs.CheckedMapping
import HeapImage.Proofs.CheckedSteps
import HeapImage.Proofs.CheckedWalks
import HeapImage.Proofs.ClosedSelections
import HeapImage.Proofs.CopiedBytes
import HeapImage.Proofs.DumpedFiles
import HeapImage.Proofs.ExactMaps
import HeapImage.Proofs.ExactVerification
import HeapImage.Proofs.FailedCalls
import HeapImage.Proofs.FailedLoads
import HeapImage.Proofs.FinalizedSessions
import HeapImage.Proofs.FreshMemory
import HeapImage.Proofs.GraphIsomorphism
import HeapImage.Proofs.HandedOver
import HeapImage.Proofs.HeapVerification
import HeapImage.Proofs.LoadSafety
import HeapImage.Proofs.MappedDumps
import HeapImage.Proofs.MemorySafety
import HeapImage.Proofs.NarrowReferences
import HeapImage.Proofs.NullReferences
import HeapImage.Proofs.PatchedBytes
import HeapImage.Proofs.RenumberedDumps
import HeapImage.Proofs.RewrittenFiles
import HeapImage.Proofs.RoundTrip
import HeapImage.Proofs.SafeWalks
import HeapImage.Proofs.SeparateFields
import HeapImage.Proofs.ShiftedReferences
import HeapImage.Proofs.UndecodableReferences
import HeapImage.Proofs.UndisturbedLoads
import HeapImage.Proofs.VerifiedLoads
import HeapImage.Snapshot
