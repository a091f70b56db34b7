import RethinkDB.Foundations.Binary64
import RethinkDB.Foundations.Lexicographic
import RethinkDB.Foundations.BinarySearch
import RethinkDB.Foundations.Printf
import RethinkDB.Serializer.MetablockManager
import RethinkDB.RdbProtocol.Datum
import RethinkDB.RdbProtocol.Compare
import RethinkDB.Btree.Keys
import RethinkDB.RdbProtocol.PrimaryKey
import RethinkDB.RdbProtocol.PrimaryKeyOrder
import RethinkDB.RdbProtocol.SecondaryKey
import RethinkDB.Foundations.Semilattice
import RethinkDB.Rpc.SemilatticeJoins
import RethinkDB.Foundations.Partition
import RethinkDB.Region.KeyRegion
import RethinkDB.Region.HashRegion
import RethinkDB.Foundations.SplitPoints
import RethinkDB.Region.RegionJoin
import RethinkDB.Region.RegionMap
import RethinkDB.RdbProtocol.Merge
import RethinkDB.Foundations.GroupedFold
import RethinkDB.Foundations.Optimum
import RethinkDB.Foundations.SortedMerge
import RethinkDB.RdbProtocol.Shards
import RethinkDB.Parsing.Utf8
import RethinkDB.Parsing.Utf8Validation
import RethinkDB.RdbProtocol.PseudoTime
import RethinkDB.Containers.LruCache
import RethinkDB.Clustering.SplitPoints
import RethinkDB.RdbProtocol.Pathspec
import RethinkDB.Serializer.ExtentManager
import RethinkDB.Btree.InternalNode
import RethinkDB.Btree.InternalRouting
import RethinkDB.Btree.InternalLevel
import RethinkDB.RdbProtocol.PseudoBinary
import RethinkDB.Serializer.Translator
import RethinkDB.RdbProtocol.Slice
import RethinkDB.Concurrency.Rwlock
import RethinkDB.RdbProtocol.SecondaryParse
import RethinkDB.Concurrency.FifoEnforcer
import RethinkDB.Concurrency.FifoEnforcerQueue
import RethinkDB.Foundations.QuotaFill
import RethinkDB.Clustering.PickBestPairings
import RethinkDB.Clustering.GenerateConfig
import RethinkDB.Region.KeyRangeJoin
import RethinkDB.Btree.LeafNode
import RethinkDB.Foundations.IndexedHeap
import RethinkDB.Containers.IntrusivePriorityQueue
import RethinkDB.Foundations.PositionCount
import RethinkDB.Concurrency.FifoSink
import RethinkDB.Foundations.RingOrder
import RethinkDB.Serializer.MetablockRecovery
import RethinkDB.Foundations.Base128
import RethinkDB.Foundations.LittleEndian
import RethinkDB.Foundations.Layout
import RethinkDB.Foundations.Binary64Integer
import RethinkDB.Containers.Archive
import RethinkDB.RdbProtocol.SerializeDatum
import RethinkDB.RdbProtocol.DatumFormat
import RethinkDB.RdbProtocol.DatumWrite
import RethinkDB.RdbProtocol.DatumRead
