import ClomDB.Layout
import ClomDB.Library.RedoLog

/-!
# The invariant of an open database

`Holds` relates an open database and its directory to two trees: the one in
memory, whose tables the readers are open on, and the one of the manifest.
`Recovers` says which map the database stands for, running and after a crash.
`Crashed` is what a crash leaves of the two.

## Implementation notes

The map is optional: without one nothing is asked of the log, and what remains
is the part of the invariant that every I/O error and every crash keeps. A
budget bounds the file numbers that may still be handed out, so that the
counter does not wrap.
-/

namespace ClomDB

open FaultProgram FileSystem FileSystem.World LayeredMap SSTable DB

abbrev Content := Bytes → Option Bytes

/-- Every table of the tree is stored in its file. -/
def Tree.StoredIn (t : Tree) (d : Path) (w : World) : Prop :=
  ∀ l, ∀ f ∈ t.levels l, ∃ data,
    w.bytes (sstablePath d f.number) = some data ∧ f.table.StoredAs data

/-- The readers are open on the tables of the tree, level by level and in order. -/
def Tree.ReadersOf (t : Tree) (d : Path) (readers : Levels SSTableReader) : Prop :=
  ∀ l, List.Forall₂ (fun f r => f.table.ReadBy (sstablePath d f.number) r)
    (t.levels l) (readers l)

/-- The manifest names the tree, and the tables are there. -/
structure OnDisk (disk : Tree) (d : Path) (w : World) : Prop where
  manifest : w.bytes (manifestPath d) = some disk.version.encode ∨
    w.bytes (manifestPath d) = none ∧ disk = Tree.initial
  stored : disk.StoredIn d w

/-- The layer of replayed records. -/
def logLayer (recs : List Bytes) : Layer Bytes Bytes :=
  opsLayer (recs.flatMap WriteBatch.decodeOps)

/-- The log consists of whole records, or is not there. -/
structure Logged (recs : List Bytes) (log : Option Bytes) : Prop where
  short : ∀ r ∈ recs, r.length < 2 ^ 32
  bytes : log = some (recs.flatMap WriteAheadLog.frame) ∨ log = none ∧ recs = []

/-- The log is open. -/
def DB.LogOpen (db : DB) : Prop :=
  db.wal = some ⟨some ⟨walPath db.dbPath, []⟩, walPath db.dbPath⟩

/-- The log object: closed, or open on a file that is there. -/
def WalOf (db : DB) (w : World) : Prop :=
  db.wal = some ⟨none, walPath db.dbPath⟩ ∨
    db.LogOpen ∧ w.bytes (walPath db.dbPath) ≠ none

/-- The structural invariant. -/
structure Holds (tree disk : Tree) (w : World) (db : DB) (b : Nat) : Prop where
  version : db.version = tree.version
  readers : tree.ReadersOf db.dbPath db.openReaders
  stored : tree.StoredIn db.dbPath w
  onDisk : OnDisk disk db.dbPath w
  next_le : disk.next ≤ tree.next
  budget : tree.next.toNat + b < 2 ^ 64
  short : db.memtable.Short
  wal : WalOf db w

/-- Memtable, log and trees stand for the map, running and after a crash. -/
def Recovers (tree disk : Tree) (memtable : MemTable) (log : Option Bytes) (c : Content) : Prop :=
  ∃ recs, Logged recs log ∧
    RedoLog.Sound ⟨memtable.layer, logLayer recs, tree.layer, disk.layer⟩ c

/-- The invariant of an open database with given trees in memory and on disk. -/
structure InvOn (c? : Option Content) (tree disk : Tree) (w : World) (db : DB) (b : Nat) :
    Prop where
  holds : Holds tree disk w db b
  recovers : ∀ c ∈ c?, Recovers tree disk db.memtable (w.bytes (walPath db.dbPath)) c

/-- The invariant of an open database with a given tree in memory. -/
def Inv (c? : Option Content) (tree : Tree) (w : World) (db : DB) (b : Nat) : Prop :=
  ∃ disk, InvOn c? tree disk w db b

/-- A directory that no process works on. Where nothing is asked of its
content, tables may be missing. -/
structure AtRest (c? : Option Content) (disk : Tree) (d : Path) (w : World) (b : Nat) : Prop where
  manifest : w.bytes (manifestPath d) = some disk.version.encode ∨
    w.bytes (manifestPath d) = none ∧ disk = Tree.initial
  stored : ∀ l, ∀ f ∈ disk.levels l, (∃ data,
    w.bytes (sstablePath d f.number) = some data ∧ f.table.StoredAs data) ∨
      c? = none ∧ w.bytes (sstablePath d f.number) = none
  budget : disk.next.toNat + b < 2 ^ 64
  content : ∀ c ∈ c?, ∃ recs, Logged recs (w.bytes (walPath d)) ∧
    view (overlay (logLayer recs) disk.layer) = c

/-- What is left in the directory after a crash. -/
def Crashed (c? : Option Content) (d : Path) (w : World) (b : Nat) : Prop :=
  ∃ disk, AtRest c? disk d w b

/-- What no section of a method touches but those that set it. -/
structure SameShell (db db' : DB) : Prop where
  dbPath : db'.dbPath = db.dbPath
  options : db'.options = db.options
  shuttingDown : db'.shuttingDown = db.shuttingDown
  closed : db'.closed = db.closed

theorem SameShell.refl (db : DB) : SameShell db db := ⟨rfl, rfl, rfl, rfl⟩

theorem SameShell.trans {db db' db'' : DB} (h : SameShell db db') (h' : SameShell db' db'') :
    SameShell db db'' :=
  ⟨h'.dbPath.trans h.dbPath, h'.options.trans h.options,
    h'.shuttingDown.trans h.shuttingDown, h'.closed.trans h.closed⟩

/-- Memory and manifest agree. -/
abbrev Settled (c? : Option Content) (tree : Tree) (w : World) (db : DB) (b : Nat) : Prop :=
  InvOn c? tree tree w db b

section Frame

variable {tree disk : Tree} {d : Path} {w w' : World} {db : DB} {b : Nat} {c? : Option Content}

theorem Tree.StoredIn.congr (h : tree.StoredIn d w)
    (hw : ∀ l, ∀ f ∈ tree.levels l, w'.bytes (sstablePath d f.number) =
      w.bytes (sstablePath d f.number)) : tree.StoredIn d w' := by
  intro l f hf
  obtain ⟨data, hd, hs⟩ := h l f hf
  exact ⟨data, (hw l f hf).trans hd, hs⟩

theorem Tree.StoredIn.fresh (h : tree.StoredIn d w) {n : UInt64} (hn : tree.next ≤ n)
    (hw : Fresh d n w w') : tree.StoredIn d w' :=
  h.congr fun l f hf => hw.bytes_table (UInt64.lt_of_lt_of_le (tree.number_lt l f hf) hn)

theorem Tree.StoredIn.onlyAt (h : tree.StoredIn d w) {p : Path} (hw : OnlyAt p w w')
    (hp : ∀ n, canonical (sstablePath d n) ≠ canonical p) : tree.StoredIn d w' :=
  h.congr fun _ _ _ => hw.bytes (hp _)

theorem OnDisk.fresh (h : OnDisk disk d w) {n : UInt64} (hn : disk.next ≤ n)
    (hw : Fresh d n w w') : OnDisk disk d w' :=
  ⟨by rw [hw.bytes_manifest]; exact h.manifest, h.stored.fresh hn hw⟩

theorem OnDisk.onlyAt (h : OnDisk disk d w) {p : Path} (hw : OnlyAt p w w')
    (hp : ∀ n, canonical (sstablePath d n) ≠ canonical p)
    (hm : canonical (manifestPath d) ≠ canonical p) : OnDisk disk d w' :=
  ⟨by rw [hw.bytes hm]; exact h.manifest, h.stored.onlyAt hw hp⟩

/-- The steps that leave the tables of both trees, the manifest and the log
alone keep the invariant. -/
theorem InvOn.congr (h : InvOn c? tree disk w db b)
    (htable : ∀ n, n < tree.next → w'.bytes (sstablePath db.dbPath n) =
      w.bytes (sstablePath db.dbPath n))
    (hmanifest : w'.bytes (manifestPath db.dbPath) = w.bytes (manifestPath db.dbPath))
    (hwal : w'.bytes (walPath db.dbPath) = w.bytes (walPath db.dbPath)) :
    InvOn c? tree disk w' db b := by
  obtain ⟨hh, hr⟩ := h
  refine ⟨{ hh with stored := ?_, onDisk := ⟨?_, ?_⟩, wal := ?_ }, by rwa [hwal]⟩
  · exact hh.stored.congr fun l f hf => htable _ (tree.number_lt l f hf)
  · rw [hmanifest]; exact hh.onDisk.manifest
  · exact hh.onDisk.stored.congr fun l f hf =>
      htable _ (UInt64.lt_of_lt_of_le (disk.number_lt l f hf) hh.next_le)
  · rw [WalOf, hwal]; exact hh.wal

theorem InvOn.fresh (h : InvOn c? tree disk w db b) (hw : Fresh db.dbPath tree.next w w') :
    InvOn c? tree disk w' db b :=
  h.congr (fun _ hn => hw.bytes_table hn) hw.bytes_manifest hw.bytes_wal

/-- Writing the temporary file keeps the invariant. -/
theorem InvOn.onlyAt_tmp (h : InvOn c? tree disk w db b)
    (hw : OnlyAt (Version.tmpPath (manifestPath db.dbPath)) w w') :
    InvOn c? tree disk w' db b :=
  h.congr (fun n _ => hw.bytes (sstablePath_ne_tmp _ n)) (hw.bytes (manifest_ne_tmp _))
    (hw.bytes (wal_ne_tmp _))

theorem InvOn.crashed (h : InvOn c? tree disk w db b) : Crashed c? db.dbPath w b := by
  refine ⟨disk, h.holds.onDisk.manifest, fun l f hf => Or.inl (h.holds.onDisk.stored l f hf),
    ?_, fun c hc => ?_⟩
  · have := UInt64.le_iff_toNat_le.mp h.holds.next_le
    have := h.holds.budget
    omega
  · obtain ⟨recs, hl, hs⟩ := h.recovers c hc
    exact ⟨recs, hl, hs.recovered⟩

/-- Less may be spent than is there. -/
theorem InvOn.mono (h : InvOn c? tree disk w db b) {b' : Nat} (hb : b' ≤ b) :
    InvOn c? tree disk w db b' :=
  ⟨{ h.holds with budget := by have := h.holds.budget; omega }, h.recovers⟩

/-- The counter of the tree in memory may move on within the budget. -/
theorem InvOn.withNext {next : UInt64} (h : InvOn c? tree disk w db b) (hle : tree.next ≤ next)
    {b' : Nat} (hb : next.toNat + b' < 2 ^ 64) :
    InvOn c? (tree.withNext next hle) disk w (db.withNext next) b' := by
  refine ⟨{ h.holds with version := ?_, next_le := ?_, budget := hb }, h.recovers⟩
  · simp only [DB.withNext, h.holds.version]
    rfl
  · exact UInt64.le_trans h.holds.next_le hle

theorem Tree.version_sized (t : Tree) : t.version.Sized := by
  intro l
  have hmax : maxOpenFiles < 2 ^ 32 := by decide
  refine ⟨Nat.lt_of_le_of_lt (by simpa [version] using t.sized l) hmax, fun fm hfm => ?_⟩
  obtain ⟨f, -, rfl⟩ := List.mem_map.mp hfm
  rw [f.minKey_eq, f.maxKey_eq]
  exact ⟨(f.table.valid _ (List.head_mem _)).key_lt, (f.table.valid _ (List.getLast_mem _)).key_lt⟩

/-- Saving the version in memory settles the database. -/
theorem InvOn.saved (h : InvOn c? tree disk w db b)
    (hw : Version.Saved db.version (manifestPath db.dbPath) w w') : Settled c? tree w' db b := by
  obtain ⟨hh, hr⟩ := h
  have hbytes : ∀ q, canonical q ≠ canonical (manifestPath db.dbPath) →
      canonical q ≠ canonical (Version.tmpPath (manifestPath db.dbPath)) →
      w'.bytes q = w.bytes q := fun q hq hq' => by
    rw [World.bytes, World.bytes, hw.file q hq hq']
  have hwal := hbytes (walPath db.dbPath) (wal_ne_manifest _) (wal_ne_tmp _)
  have hstored : tree.StoredIn db.dbPath w' := hh.stored.congr fun l f hf =>
    hbytes _ (sstablePath_ne_manifest _ _) (sstablePath_ne_tmp _ _)
  refine ⟨{ hh with
    stored := hstored
    onDisk := ⟨Or.inl (by rw [hw.manifest, hh.version]), hstored⟩
    next_le := UInt64.le_refl _
    wal := by rw [WalOf, hwal]; exact hh.wal }, fun c hc => ?_⟩
  obtain ⟨recs, hl, hs⟩ := hr c hc
  exact ⟨recs, by rwa [hwal], hs.save⟩

/-- The flags of the object are not part of the invariant. -/
theorem InvOn.withFlags (h : InvOn c? tree disk w db b) (bg shutting closed : Bool) :
    InvOn c? tree disk w
      { db with bgWorkRequested := bg, shuttingDown := shutting, closed := closed } b :=
  ⟨{ h.holds with }, h.recovers⟩

/-- The log file and the log object change alone. -/
theorem InvOn.onlyAt_wal {wal : Option WriteAheadLog} (h : InvOn c? tree disk w db b)
    (hw : OnlyAt (walPath db.dbPath) w w') (hwal : WalOf { db with wal := wal } w')
    (hlog : ∀ c ∈ c?, Recovers tree disk db.memtable (w'.bytes (walPath db.dbPath)) c) :
    InvOn c? tree disk w' { db with wal := wal } b := by
  obtain ⟨hh, -⟩ := h
  exact ⟨{ hh with
    stored := hh.stored.onlyAt hw (sstablePath_ne_wal _)
    onDisk := hh.onDisk.onlyAt hw (sstablePath_ne_wal _) (wal_ne_manifest _).symm
    wal := hwal }, hlog⟩

end Frame

end ClomDB
