import Mmkvc.Reader
import Mmkvc.Leb128
import Mmkvc.Externals
import Mmkvc.MmbpUtil
import Mmkvc.MmbpRequest
import Mmkvc.MmbpResponse
import Mmkvc.ParseReplaces
import Mmkvc.RawParser
import Mmkvc.RawAgreement
import Mmkvc.MmbpLayout
import Mmkvc.RejectedFrames
import Mmkvc.FrameBoundary
import Mmkvc.FrameValidation
import Mmkvc.Framing
import Mmkvc.MmbpCodec
import Mmkvc.Transition
import Mmkvc.Triple
import Mmkvc.Cells
import Mmkvc.AvlUtil
import Mmkvc.LinkedTree
import Mmkvc.AvlShape
import Mmkvc.AvlTreeBase
import Mmkvc.AvlSimulation
import Mmkvc.SearchTree
import Mmkvc.AvlOperations
import Mmkvc.AvlRuns
import Mmkvc.AvlTraversal
import Mmkvc.ComparatorUtil
import Mmkvc.AvlEraseIf
import Mmkvc.AvlExtractRoot
import Mmkvc.AvlPush
import Mmkvc.AvlGrove
import Mmkvc.AvlGroveBalance
import Mmkvc.AvlGroveSize
import Mmkvc.IncrementalRehashing
import Mmkvc.FiniteMap
import Mmkvc.AvlGroveMap
import Mmkvc.BucketTables
import Mmkvc.TableIterator
import Mmkvc.TreeHashtable
import Mmkvc.TreeBuckets
import Mmkvc.RehashedTrees
import Mmkvc.TreeTables
import Mmkvc.TreeTableOperations
import Mmkvc.TreeTableMap
import Mmkvc.TreeTableAnswers
import Mmkvc.ClearApply
import Mmkvc.TreeTableBalance
import Mmkvc.TreeTableRuns
import Mmkvc.Slist
import Mmkvc.SlistOperations
import Mmkvc.HashTable
import Mmkvc.ListBuckets
import Mmkvc.ListTables
import Mmkvc.HashSet
import Mmkvc.ListTableOperations
import Mmkvc.ListTableEntries
import Mmkvc.HashTableRuns
import Mmkvc.HashTableAnswers
import Mmkvc.TableIteration
import Mmkvc.RehashPacing
import Mmkvc.HashSetAlgebra
import Mmkvc.HashSetClone
import Mmkvc.MmkvValue
import Mmkvc.MmkvClient
import Mmkvc.ClientRequests
import Mmkvc.UnsolicitedResponses
import Mmkvc.SlistCopy
import Mmkvc.Blist
import Mmkvc.BlistOperations
import Mmkvc.BlistRuns
import Mmkvc.BlistBuilding
import Mmkvc.MessageBits
import Mmkvc.AvlReuseOrder
import Mmkvc.RawBlocks
import Mmkvc.Uninitialized
import Mmkvc.ReservedArray
import Mmkvc.ReservedArrayResize
import Mmkvc.ReservedArrayCopy
import Mmkvc.RawAccounting
import Mmkvc.OneShotDecoder
import Mmkvc.SevenBitGroups
import Mmkvc.UintVectors
import Mmkvc.MappedValues
import Mmkvc.AvlDepth
import Mmkvc.AvlDictionary
import Mmkvc.DictionaryRuns
import Mmkvc.KeyedWrites
import Mmkvc.ConfigdClient
import Mmkvc.ShardAssignments
import Mmkvc.ByteChannel
import Mmkvc.ClientOverBytes
import Mmkvc.ClientCallbacks
import Mmkvc.ConfigdRuns
import Mmkvc.ThreadPhases
import Mmkvc.CompletionQueueNext
import Mmkvc.MemoryUsage
import Mmkvc.TablesAgree
import Mmkvc.SlistRuns
import Mmkvc.HashSetDraining
import Mmkvc.RelayedMessages
