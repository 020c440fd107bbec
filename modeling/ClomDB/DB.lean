import ClomDB.Version
import ClomDB.WriteAheadLog
import ClomDB.MemTable
import ClomDB.Iterator
import Mathlib.Data.Nat.Digits.Defs

/-!
# The database

`db.h` and `db.cpp`: one open database, and the sections of its methods that
run under the mutex. Each of them is a program on the file system that takes
the object and returns it changed.

## Implementation notes

The loops over `NeedsCompactionLocked` take fuel. The steps that
`FlushMemTableLocked` shares with the `flush_batch` of `CompactLocked` are one
definition, `buildTable`, and handing out a file number costs one tick. A
reader holds a descriptor; `held` counts the open ones. Dereferencing a null
`wal_` ends the process. A failing `Open` destroys its object, and the
destructor closes it.
-/

namespace ClomDB

open Std FaultProgram FileSystem SSTable

/-- `%012llu`. -/
def zeroPad (n : UInt64) : Bytes :=
  let digits := Nat.digits 10 n.toNat
  ((digits ++ List.replicate (12 - digits.length) 0).reverse).map fun d => UInt8.ofNat (48 + d)

def kMinCompactionOutputFileBytes : UInt64 := 2 * 1024 * 1024

structure DB where
  dbPath : Path
  options : Options
  memtable : MemTable := {}
  wal : Option WriteAheadLog := none
  version : Version := {}
  openReaders : Levels SSTableReader := fun _ => []
  bgWorkRequested : Bool := false
  shuttingDown : Bool := false
  closed : Bool := false

namespace DB

def sstExtension : Bytes := ascii ['.', 's', 's', 't']
def sstName (number : UInt64) : Bytes := zeroPad number ++ sstExtension
def walName : Bytes := ascii ['C', 'U', 'R', 'R', 'E', 'N', 'T', '.', 'w', 'a', 'l']
def manifestName : Bytes := ascii ['M', 'A', 'N', 'I', 'F', 'E', 'S', 'T']

def sstablePath (dbPath : Path) (number : UInt64) : Path := dbFile dbPath (sstName number)
def walPath (dbPath : Path) : Path := dbFile dbPath walName
def manifestPath (dbPath : Path) : Path := dbFile dbPath manifestName

/-- Descriptors held by the open readers. -/
def held (db : DB) : Nat :=
  ((List.finRange kMaxLevels).map fun lvl => (db.openReaders lvl).length).sum

/-- `next_file_number` assigned to. -/
def withNext (db : DB) (next : UInt64) : DB :=
  { db with version := { db.version with nextFileNumber := next } }

/-- Take a file number, write a table under it and open a reader on it. -/
def buildTable (db : DB) (held : Nat) (entries : List SSTableEntry) :
    Prog World (Except Status (FileMetaData × SSTableReader) × DB) := do
  let number := db.version.nextFileNumber
  Prog.tick
  let db := db.withNext (number + 1)
  let path := sstablePath db.dbPath number
  let s ← SSTableWriter.write path entries db.options.bloomBitsPerKey
  if !s.ok then
    return (.error s, db)
  else
    let size ← fileSize path
    let fm : FileMetaData :=
      { number := number
        minKey := (entries.head?.map SSTableEntry.key).getD []
        maxKey := (entries.getLast?.map SSTableEntry.key).getD []
        fileSize := size }
    match ← SSTableReader.open held path with
    | .error s => return (.error s, db)
    | .ok reader => return (.ok (fm, reader), db)

/-- The rotation of the log at the end of `FlushMemTableLocked`. -/
def rotateWal (db : DB) : Prog World (Status × DB) := do
  match db.wal with
  | none => Prog.abort
  | some log =>
    let (s, log) ← log.close
    if !s.ok then
      return (s, { db with wal := some log })
    else
      remove (walPath db.dbPath)
      let (s, log) ← WriteAheadLog.open (walPath db.dbPath)
      return (s, { db with wal := some log })

def flushMemTableLocked (db : DB) : Prog World (Status × DB) := do
  if db.memtable.empty then
    return (.OK, db)
  else
    let (built, db) ← db.buildTable db.held db.memtable.flushEntries
    match built with
    | .error s => return (s, db)
    | .ok (fm, reader) =>
      let db := { db with
        version := db.version.setLevel 0 (db.version.levels 0 ++ [fm])
        openReaders := Function.update db.openReaders 0 (db.openReaders 0 ++ [reader]) }
      let s ← db.version.save (manifestPath db.dbPath)
      if !s.ok then
        return (s, db)
      else
        rotateWal { db with memtable := db.memtable.clear }

/-- The total size of a level, in a `size_t`. -/
def levelBytes (files : List FileMetaData) : UInt64 :=
  files.foldl (fun total fm => total + fm.fileSize) 0

/-- The loop of `NeedsCompactionLocked` over the levels below L0. -/
def needsCompactionLoop (v : Version) (multiplier : UInt64) :
    List (Fin kMaxLevels) → UInt64 → Option (Fin kMaxLevels)
  | [], _ => none
  | lvl :: lvls, target =>
      if levelBytes (v.levels lvl) > target then some lvl
      else needsCompactionLoop v multiplier lvls (target * multiplier)

/-- `NeedsCompactionLocked`: the level to compact, if it returns true. -/
def needsCompactionLocked (db : DB) : Option (Fin kMaxLevels) :=
  if (Int32.ofNat (db.version.levels 0).length).toInt ≥ db.options.l0CompactionTrigger then some 0
  else
    needsCompactionLoop db.version (UInt64.ofInt (max 1 db.options.levelSizeMultiplier))
      [1, 2, 3, 4] db.options.level1TargetBytes

/-- Readers are decoded one after the other, and later entries win. -/
def mergeReaders (merged : ExtTreeMap Bytes SSTableEntry) :
    List SSTableReader → Prog World (Except Status (ExtTreeMap Bytes SSTableEntry))
  | [] => return .ok merged
  | r :: rs => do
      match ← r.readAll with
      | .error s => return .error s
      | .ok entries => mergeReaders (KeyedRun.insertAll SSTableEntry.key merged entries) rs

/-- What `CompactLocked` has written so far. -/
structure Output where
  newFiles : List FileMetaData := []
  newReaders : List SSTableReader := []

/-- `flush_batch`. -/
def flushBatch (db : DB) (out : Output) (batch : List SSTableEntry) :
    Prog World (Status × DB × Output) := do
  if batch = [] then
    return (.OK, db, out)
  else
    let (built, db) ← db.buildTable (db.held + out.newReaders.length) batch
    match built with
    | .error s => return (s, db, out)
    | .ok (fm, reader) =>
      return (.OK, db, ⟨out.newFiles ++ [fm], out.newReaders ++ [reader]⟩)

/-- The loop of `CompactLocked` over the merged entries, and its last batch. -/
def writeMerged (dropTombstones : Bool) (targetFileBytes : UInt64) :
    List SSTableEntry → DB → Output → List SSTableEntry → UInt64 →
      Prog World (Status × DB × Output)
  | [], db, out, batch, _ => db.flushBatch out batch
  | entry :: rest, db, out, batch, batchBytes => do
      if dropTombstones ∧ entry.type = .kDelete then
        writeMerged dropTombstones targetFileBytes rest db out batch batchBytes
      else
        let batchBytes := batchBytes + UInt64.ofNat (entry.key.length + entry.value.length)
        let batch := batch ++ [entry]
        if batchBytes ≥ targetFileBytes then
          let (s, db, out) ← db.flushBatch out batch
          if !s.ok then
            return (s, db, out)
          else
            writeMerged dropTombstones targetFileBytes rest db out [] 0
        else
          writeMerged dropTombstones targetFileBytes rest db out batch batchBytes

/-- Unlink the files of some numbers. -/
def removeTables (dbPath : Path) : List UInt64 → Prog World Unit
  | [] => return ()
  | number :: numbers => do
      remove (sstablePath dbPath number)
      removeTables dbPath numbers

/-- The readers of a level as `CompactLocked` merges them: L0 sorted newest
first, and then walked backwards. -/
def levelReaders (db : DB) (level : Fin kMaxLevels) : List SSTableReader :=
  let files := (db.version.levels level).zip (db.openReaders level)
  let sorted := if level = 0 then files.mergeSort fun a b => decide (b.1.number ≤ a.1.number)
    else files
  (sorted.map Prod.snd).reverse

/-- The end of `CompactLocked`: switch the version, save it, unlink the old files. -/
def installOutput (db : DB) (level target : Fin kMaxLevels) (out : Output) :
    Prog World (Status × DB) := do
  let oldNumbers := (db.version.levels level ++ db.version.levels target).map FileMetaData.number
  let db := { db with
    version := (db.version.setLevel level []).setLevel target out.newFiles
    openReaders := Function.update (Function.update db.openReaders level []) target
      out.newReaders }
  let s ← db.version.save (manifestPath db.dbPath)
  if !s.ok then
    return (s, db)
  else
    removeTables db.dbPath oldNumbers
    return (.OK, db)

def compactLocked (db : DB) (level : Fin kMaxLevels) : Prog World (Status × DB) := do
  if h : level.val + 1 ≥ kMaxLevels then
    return (.OK, db)
  else
    let target : Fin kMaxLevels := ⟨level.val + 1, Nat.lt_of_not_le h⟩
    match ← mergeReaders ∅ (db.openReaders target ++ db.levelReaders level) with
    | .error s => return (s, db)
    | .ok merged =>
      let targetFileBytes := max db.options.memtableFlushBytes kMinCompactionOutputFileBytes
      let (s, db, out) ← writeMerged (target.val == kMaxLevels - 1) targetFileBytes
        (merged.toList.map Prod.snd) db {} [] 0
      if !s.ok then
        return (s, db)
      else
        db.installOutput level target out

/-- `while (NeedsCompactionLocked(&level)) ...`. -/
def compactionLoop : Nat → DB → Prog World (Status × DB)
  | 0, _ => Prog.outOfFuel
  | fuel + 1, db => do
      match db.needsCompactionLocked with
      | none => return (.OK, db)
      | some level =>
        let (s, db) ← db.compactLocked level
        if !s.ok then
          return (s, db)
        else
          compactionLoop fuel db

/-- `DB::Flush`. -/
def flush (fuel : Nat) (db : DB) : Prog World (Status × DB) := do
  let (s, db) ← db.flushMemTableLocked
  if !s.ok then
    return (s, db)
  else
    compactionLoop fuel db

def maybeFlushLocked (fuel : Nat) (db : DB) : Prog World (Status × DB) :=
  if db.memtable.approximateBytes ≥ db.options.memtableFlushBytes then db.flush fuel
  else compactionLoop fuel db

def applyBatchLocked (db : DB) (batch : WriteBatch) : Status × DB :=
  let (s, memtable) := batch.iterate MemTable.handler db.memtable
  (s, { db with memtable := memtable })

def write (fuel : Nat) (db : DB) (opts : WriteOptions) (batch : WriteBatch) :
    Prog World (Status × DB) := do
  if batch.empty then
    return (.OK, db)
  else if db.closed then
    return (.invalidArgument [.lit "DB is closed"], db)
  else
    match db.wal with
    | none => Prog.abort
    | some log =>
      let (s, log) ← log.addRecord batch.rep (opts.sync || db.options.syncWrites)
      let db := { db with wal := some log }
      if !s.ok then
        return (s, db)
      else
        let (s, db) := db.applyBatchLocked batch
        if !s.ok then
          return (s, db)
        else if db.options.backgroundCompaction then
          return (s, { db with bgWorkRequested := true })
        else
          db.maybeFlushLocked fuel

def put (fuel : Nat) (db : DB) (opts : WriteOptions) (key value : Bytes) :
    Prog World (Status × DB) :=
  db.write fuel opts (WriteBatch.put {} key value)

def delete (fuel : Nat) (db : DB) (opts : WriteOptions) (key : Bytes) :
    Prog World (Status × DB) :=
  db.write fuel opts (WriteBatch.delete {} key)

/-- One iteration of `BackgroundLoop`. The thread waits unless work is requested,
and it is gone when the database shuts down. -/
def backgroundIteration (fuel : Nat) (db : DB) : Prog World DB := do
  if db.shuttingDown ∨ db.bgWorkRequested = false then
    return db
  else
    let (_, db) ← flush fuel { db with bgWorkRequested := false }
    return db

/-- The first section of `Close`. -/
def closeBegin (db : DB) : DB := if db.closed then db else { db with shuttingDown := true }

/-- The second section of `Close`, after the background thread has exited. -/
def closeEnd (db : DB) : Prog World (Status × DB) := do
  let (s, db) ← db.flushMemTableLocked
  match db.wal with
  | none =>
    let vs ← db.version.save (manifestPath db.dbPath)
    return (if s.ok then vs else s, { db with closed := true })
  | some log =>
    let (ws, log) ← log.close
    let s := if s.ok then ws else s
    let vs ← db.version.save (manifestPath db.dbPath)
    return (if s.ok then vs else s, { db with wal := some log, closed := true })

def close (db : DB) : Prog World (Status × DB) :=
  if db.closed then return (.OK, db) else db.closeBegin.closeEnd

/-- `DB::~DB`. -/
def destroy (db : DB) : Prog World Unit := do
  if db.closed then
    return ()
  else
    let _ ← db.close
    return ()

/-- The path strings of the live tables. -/
def livePaths (db : DB) : List Path :=
  (List.finRange kMaxLevels).flatMap fun lvl =>
    (db.version.levels lvl).map fun fm => sstablePath db.dbPath fm.number

/-- The directory entries that the sweep of `Open` selects for removal. -/
def sweepSelects (db : DB) (name : Bytes) : Bool :=
  extension name = sstExtension ∧ appendPath db.dbPath name ∉ db.livePaths

def sweepLoop (db : DB) : List Bytes → Prog World Unit
  | [] => return ()
  | name :: names => do
      if db.sweepSelects name then
        remove (appendPath db.dbPath name)
        sweepLoop db names
      else
        sweepLoop db names

/-- The orphan sweep of `Open`. -/
def sweep (db : DB) : Prog World Unit := do
  let listed ← directoryExists
  if !listed then
    return ()
  else
    let names ← directoryIterator db.dbPath
    db.sweepLoop names

/-- `open_readers_[level].push_back(reader)`. -/
def addReader (db : DB) (level : Fin kMaxLevels) (reader : SSTableReader) : DB :=
  { db with
    openReaders := Function.update db.openReaders level (db.openReaders level ++ [reader]) }

/-- The loop of `Open` over the tables of one level. -/
def openLevel (db : DB) (level : Fin kMaxLevels) : List FileMetaData → Prog World (Status × DB)
  | [] => return (.OK, db)
  | fm :: fms => do
      match ← SSTableReader.open db.held (sstablePath db.dbPath fm.number) with
      | .error s => return (s, db)
      | .ok reader =>
        openLevel (db.addReader level reader) level fms

def openLevels (db : DB) : List (Fin kMaxLevels) → Prog World (Status × DB)
  | [] => return (.OK, db)
  | lvl :: lvls => do
      let (s, db) ← db.openLevel lvl (db.version.levels lvl)
      if !s.ok then
        return (s, db)
      else
        openLevels db lvls

/-- The memtable that replayed records leave. A record that is malformed has
the effect of the operations before the malformed one. -/
def replayRecords (memtable : MemTable) (recs : List Bytes) : MemTable :=
  recs.foldl (fun m record =>
    ((WriteBatch.setData {} record).iterate MemTable.handler m).2) memtable

/-- The rest of `Open` once there is an object: a result, and the object. -/
def openBody (db : DB) (existed : Bool) : Prog World (Status × DB) := do
  let (s, version) ← db.version.load (manifestPath db.dbPath)
  let db := { db with version := version }
  if !s.ok ∧ !s.isNotFound then
    return (s, db)
  else
    db.sweep
    let (s, db) ← db.openLevels (List.finRange kMaxLevels)
    if !s.ok then
      return (s, db)
    else
      let (s, recs) ← WriteAheadLog.replayAll (walPath db.dbPath)
      let db := { db with memtable := replayRecords db.memtable recs }
      if !s.ok then
        return (s, db)
      else
        let (s, log) ← WriteAheadLog.open (walPath db.dbPath)
        let db := { db with wal := some log }
        if !s.ok then
          return (s, db)
        else if existed then
          return (.OK, db)
        else
          let s ← db.version.save (manifestPath db.dbPath)
          return (s, db)

end DB

/-- The directory is created unless it was there: the error number, if any. -/
def ensureDirectory (existed : Bool) : Prog World (Option Nat) :=
  if existed then pure none else createDirectories

/-- `DB::Open`. -/
def DB.open (options : Options) (dbPath : Path) : Prog World (Except Status DB) := do
  let existed ← directoryExists
  if !existed ∧ !options.createIfMissing then
    return .error (.invalidArgument
      [.bytes dbPath, .lit ": does not exist and create_if_missing is false"])
  else
    match ← ensureDirectory existed with
    | some _ =>
      return .error (.ioError [.bytes dbPath, .lit ": failed to create directory: ", .strerror])
    | none =>
      if existed ∧ options.errorIfExists then
        return .error (.alreadyExists [.bytes dbPath])
      else
        let (s, db) ← DB.openBody { dbPath := dbPath, options := options } existed
        if !s.ok then
          db.destroy
          return .error s
        else
          return .ok db

namespace DB

/-- The status `Get` answers with for what it has found. -/
def answer (key : Bytes) : Found → Except Status Bytes
  | none => .error (.notFound [.bytes key])
  | some value => .ok value

/-- The first table that finds the key. -/
def searchReaders (key : Bytes) : List SSTableReader → Prog World (Option Found)
  | [] => return none
  | r :: rs => do
      match ← r.get key with
      | some found => return some found
      | none => searchReaders key rs

/-- The L0 readers in the order of their file numbers. -/
def sortedL0 (db : DB) (le : UInt64 → UInt64 → Bool) : List SSTableReader :=
  (((db.version.levels 0).zip (db.openReaders 0)).mergeSort fun a b =>
    le a.1.number b.1.number).map Prod.snd

/-- The readers below L0 whose key range holds the key. -/
def deepReaders (db : DB) (key : Bytes) : List SSTableReader :=
  [1, 2, 3, 4, 5].flatMap fun (lvl : Fin kMaxLevels) =>
    (((db.version.levels lvl).zip (db.openReaders lvl)).filter fun p =>
      !(Slice.less key p.1.minKey || Slice.less p.1.maxKey key)).map Prod.snd

/-- `DB::Get`: the value, or a status other than OK. -/
def get (db : DB) (key : Bytes) : Prog World (Except Status Bytes) := do
  if db.closed then
    return .error (.invalidArgument [.lit "DB is closed"])
  else
    match db.memtable.get key with
    | some found => return answer key found
    | none =>
      match ← searchReaders key
        (db.sortedL0 (fun a b => decide (b ≤ a)) ++ db.deepReaders key) with
      | some found => return answer key found
      | none => return .error (.notFound [.bytes key])

/-- `apply_entries` of `NewIterator`. -/
def applyEntries (snapshot : ExtTreeMap Bytes Bytes) (entries : List SSTableEntry) :
    ExtTreeMap Bytes Bytes :=
  entries.foldl (fun m e =>
    if e.type = .kDelete then m.erase e.key else m.insert e.key e.value) snapshot

/-- Tables are laid over the snapshot one after the other. -/
def scanReaders (snapshot : ExtTreeMap Bytes Bytes) :
    List SSTableReader → Prog World (ExtTreeMap Bytes Bytes)
  | [] => return snapshot
  | r :: rs => do
      match ← r.readAll with
      | .error _ => scanReaders snapshot rs
      | .ok entries => scanReaders (applyEntries snapshot entries) rs

/-- The memtable on top of the snapshot. -/
def applyMemtable (snapshot : ExtTreeMap Bytes Bytes) (memtable : MemTable) :
    ExtTreeMap Bytes Bytes :=
  memtable.table.toList.foldl (fun m p =>
    if p.2.deleted then m.erase p.1 else m.insert p.1 p.2.value) snapshot

def newIterator (db : DB) : Prog World Iterator := do
  let deep := [5, 4, 3, 2, 1].flatMap fun (lvl : Fin kMaxLevels) => db.openReaders lvl
  let snapshot ← scanReaders ∅ (deep ++ db.sortedL0 fun a b => decide (a ≤ b))
  return .ofSnapshot (applyMemtable snapshot db.memtable)

/-- `DB::Stats`. -/
structure Stats where
  memtableEntries : UInt64 := 0
  memtableBytes : UInt64 := 0
  filesPerLevel : Fin kMaxLevels → UInt64 := fun _ => 0
  bytesPerLevel : Fin kMaxLevels → UInt64 := fun _ => 0

def getStats (db : DB) : Stats where
  memtableEntries := db.memtable.entryCount
  memtableBytes := db.memtable.approximateBytes
  filesPerLevel lvl := UInt64.ofNat (db.version.levels lvl).length
  bytesPerLevel lvl := levelBytes (db.version.levels lvl)

end DB

end ClomDB
