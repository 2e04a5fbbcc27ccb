import PredTrans.Compression.BitpackingRoundTrip
import PredTrans.Compression.DictionaryScan
import PredTrans.Compression.RleRoundTrip
import PredTrans.Index.ArtRange
import PredTrans.Join.ExternalJoin
import PredTrans.Join.MarkJoin
import PredTrans.Sort.Partitions
import PredTrans.Storage.BulkMerge
import PredTrans.Storage.CheckpointHistory
import PredTrans.Storage.CommittedScan
import PredTrans.Storage.DatabaseHeader
import PredTrans.Storage.DeleteRollback
import PredTrans.Storage.VacuumCheckpoint
import PredTrans.Transaction.Cleanup
import PredTrans.Transfer.FullReduction
import PredTrans.Window.RangeExact
import PredTrans.Window.PartitionMasks
import PredTrans.Bloom.Insertion
import PredTrans.Transfer.Splicing
import PredTrans.Index.FixedSizeBuffer
import PredTrans.Compression.ValidityScan
import PredTrans.Types.Timestamp
import PredTrans.Plan.DuplicateGroups
import PredTrans.Window.SubFrames
import PredTrans.Window.LeadLag
import PredTrans.Types.Bit
