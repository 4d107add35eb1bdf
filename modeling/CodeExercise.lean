import CodeExercise.AtMostOnce
import CodeExercise.BPlusTreeDuplicates
import CodeExercise.BTreeArrays
import CodeExercise.BTreeDBRuns
import CodeExercise.BTreeMmapReopen
import CodeExercise.BTreeRange
import CodeExercise.Connection
import CodeExercise.CountSort
import CodeExercise.DbReopen
import CodeExercise.ExtentCache
import CodeExercise.HuffmanRoundTrip
import CodeExercise.LeaderFollower
import CodeExercise.LineCounter
import CodeExercise.LockCacheExclusion
import CodeExercise.LockCacheRsmExclusion
import CodeExercise.LockCacheRsmState
import CodeExercise.LockCacheServer
import CodeExercise.LockServer
import CodeExercise.LockServerRsm
import CodeExercise.Multiply
import CodeExercise.PageList
import CodeExercise.PaxosChosen
import CodeExercise.PaxosRestore
import CodeExercise.PaxosValidity
import CodeExercise.RpcFifo
import CodeExercise.RpcPair
import CodeExercise.RsmAcknowledged
import CodeExercise.RsmPrimary
import CodeExercise.RsmViewstamps
import CodeExercise.Transactions
import CodeExercise.UnmarshallSafety
