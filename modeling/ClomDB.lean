import ClomDB.Library.FaultProgram
import ClomDB.Library.LayeredMap
import ClomDB.Library.KeyedRun
import ClomDB.Library.RedoLog
import ClomDB.Library.ShiftRegister
import ClomDB.Library.SharedObject
import ClomDB.Library.Dialogue
import ClomDB.Coding
import ClomDB.WriteBatch
import ClomDB.CRC32C
import ClomDB.FileSystem
import ClomDB.BloomFilter
import ClomDB.SSTable
import ClomDB.WriteAheadLog
import ClomDB.Version
import ClomDB.Table
import ClomDB.Tree
import ClomDB.MemTable
import ClomDB.Iterator
import ClomDB.DB
import ClomDB.Layout
import ClomDB.Invariant
import ClomDB.Flush
import ClomDB.Damage
import ClomDB.LogHistory
import ClomDB.Sweep
import ClomDB.Compaction
import ClomDB.Merge
import ClomDB.CompactLocked
import ClomDB.Operations
import ClomDB.Open
import ClomDB.Lookup
import ClomDB.System
import ClomDB.Reachable
import ClomDB.FailingReads
import ClomDB.Rotation
import ClomDB.LevelTargets
import ClomDB.BatchBytes
import ClomDB.Created
import ClomDB.Endings
import ClomDB.FlushPolicy
import ClomDB.TableSafety
import ClomDB.Decoders
import ClomDB.Settling
import ClomDB.Tending
import ClomDB.Restarts
import ClomDB.TornLog
import ClomDB.AtomicWrites
import ClomDB.CounterRound
import ClomDB.LastWrite
import ClomDB.Durability
import ClomDB.SystemCrash
import ClomDB.Threads
import ClomDB.Progress
import ClomDB.Linearization
import ClomDB.CommandLine
import ClomDB.Directory
import ClomDB.ExactRecovery
import ClomDB.FailedOpen
import ClomDB.TableSizes
import ClomDB.TopLevel
