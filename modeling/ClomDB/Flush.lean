import ClomDB.Invariant
import Mathlib.Algebra.Order.BigOperators.Group.List

/-!
# Building tables and flushing the memtable

The specification of `buildTable`, and from it that a flush keeps the
invariant: whatever fails and wherever the process dies, the database and the
directory stand for the same map as before.
-/

namespace ClomDB

open FaultProgram FileSystem FileSystem.World LayeredMap SSTable DB

variable {E : Env} {C : World → Nat → Prop} {w : World} {b : Nat} {db : DB}

theorem observes_fileSize (path : Path) : Observes E (fileSize path) (fun _ => True) w :=
  Observes.probe trivial fun _ _ => trivial

/-- What `buildTable` has made when it succeeds. -/
structure Built (t : Table) (d : Path) (n : UInt64) (w' : World) (fm : FileMetaData)
    (r : SSTableReader) : Prop where
  number : fm.number = n
  minKey : fm.minKey = t.minKey
  maxKey : fm.maxKey = t.maxKey
  stored : ∃ data, w'.bytes (sstablePath d n) = some data ∧ t.StoredAs data
  reader : t.ReadBy (sstablePath d n) r

/-- The table of the tree for what was built. -/
def Built.file {t : Table} {d : Path} {n : UInt64} {w' : World} {fm : FileMetaData}
    {r : SSTableReader} (h : Built t d n w' fm r) : TableFile where
  info := fm
  table := t
  minKey_eq := h.minKey
  maxKey_eq := h.maxKey

/-- The filter of some table of at most `n` keys cannot be built. -/
def DB.FilterFailsWithin (db : DB) (n : Nat) : Prop :=
  ∃ keys : List Bytes, keys.length ≤ n ∧
    BloomFilter.build keys db.options.bloomBitsPerKey = none

theorem DB.FilterFailsWithin.mono {db db' : DB} {m n : Nat} (h : db.FilterFailsWithin m)
    (hmn : m ≤ n) (hoptions : db'.options = db.options) : db'.FilterFailsWithin n := by
  obtain ⟨keys, hle, hnone⟩ := h
  exact ⟨keys, hle.trans hmn, by rw [hoptions]; exact hnone⟩

/-- Building a table spends a number and changes the file of that number only. -/
theorem wp_buildTable_onlyAt {held : Nat} {t : Table}
    {Q : Except Status (FileMetaData × SSTableReader) × DB → World → Nat → Prop}
    (hfit : E.excludes ∨ held < maxOpenFiles ∧ ∃ filter,
      BloomFilter.build (t.entries.map SSTableEntry.key) db.options.bloomBitsPerKey =
        some filter ∧ (tableImage t.entries filter).length ≤ maxFileBytes)
    (hC : E.crashes ∨ BloomFilter.build (t.entries.map SSTableEntry.key)
        db.options.bloomBitsPerKey = none → ∀ w' b', b' ≤ b →
      OnlyAt (sstablePath db.dbPath db.version.nextFileNumber) w w' → C w' b')
    (hfail : E.fails → ∀ s w' b', b = b' + 1 → s.ok = false →
      OnlyAt (sstablePath db.dbPath db.version.nextFileNumber) w w' →
      Q (.error s, db.withNext (db.version.nextFileNumber + 1)) w' b')
    (hok : ∀ fm r w' b', b = b' + 1 →
      OnlyAt (sstablePath db.dbPath db.version.nextFileNumber) w w' →
      Built t db.dbPath db.version.nextFileNumber w' fm r → held < maxOpenFiles →
      Q (.ok (fm, r), db.withNext (db.version.nextFileNumber + 1)) w' b') :
    wp E (db.buildTable held t.entries) Q C w b := by
  rw [buildTable]
  refine wp_bind (wp_tick fun b' hb => ?_)
  refine wp_bind (wp_write t _ (hfit.imp_right And.right)
    (fun hc w' hw' => hC hc w' b' (by omega) hw') ?_ ?_)
  · intro hf s w' hs hw'
    simp only [hs, Bool.not_false, if_true]
    exact wp_pure (hfail hf s w' b' hb hs hw')
  · intro data w' hw' hdata hstored
    simp only [Status.ok_OK, Bool.not_true, Bool.false_eq_true, if_false]
    have hcrash : E.crashes → C w' b' := fun hc => hC (Or.inl hc) w' b' (by omega) hw'
    refine wp_observes (observes_fileSize _) hcrash fun size _ => ?_
    refine wp_observes (observes_open hdata hstored (hfit.imp_right And.left)) hcrash
      fun x hx => ?_
    rcases hx with ⟨hheld, r, rfl, hr, -⟩ | ⟨hf, s, rfl, hs⟩
    · refine wp_pure (hok _ r w' b' hb hw' ⟨rfl, ?_, ?_, ⟨data, hdata, hstored⟩, hr⟩ hheld)
      · rw [Table.minKey_eq, List.head?_map]
      · rw [Table.maxKey_eq, List.getLast?_map]
    · exact wp_pure (hfail hf s w' b' hb hs hw')

theorem wp_buildTable {held : Nat} {t : Table}
    {Q : Except Status (FileMetaData × SSTableReader) × DB → World → Nat → Prop}
    (hfit : E.excludes ∨ held < maxOpenFiles ∧ ∃ filter,
      BloomFilter.build (t.entries.map SSTableEntry.key) db.options.bloomBitsPerKey =
        some filter ∧ (tableImage t.entries filter).length ≤ maxFileBytes)
    (hC : E.crashes ∨ BloomFilter.build (t.entries.map SSTableEntry.key)
        db.options.bloomBitsPerKey = none → ∀ w' b', b' ≤ b →
      Fresh db.dbPath db.version.nextFileNumber w w' → C w' b')
    (hfail : E.fails → ∀ s w' b', b = b' + 1 → s.ok = false →
      Fresh db.dbPath db.version.nextFileNumber w w' →
      Q (.error s, db.withNext (db.version.nextFileNumber + 1)) w' b')
    (hok : ∀ fm r w' b', b = b' + 1 → Fresh db.dbPath db.version.nextFileNumber w w' →
      Built t db.dbPath db.version.nextFileNumber w' fm r → held < maxOpenFiles →
      Q (.ok (fm, r), db.withNext (db.version.nextFileNumber + 1)) w' b') :
    wp E (db.buildTable held t.entries) Q C w b := by
  have hfresh : ∀ {w'}, OnlyAt (sstablePath db.dbPath db.version.nextFileNumber) w w' →
      Fresh db.dbPath db.version.nextFileNumber w w' := fun h =>
    Fresh.of_onlyAt h (UInt64.le_refl _)
  exact wp_buildTable_onlyAt hfit (fun hc w' b' hle hw' => hC hc w' b' hle (hfresh hw'))
    (fun hf s w' b' hb hs hw' => hfail hf s w' b' hb hs (hfresh hw'))
    fun fm r w' b' hb hw' => hok fm r w' b' hb (hfresh hw')

variable {c? : Option Content} {tree : Tree}

/-- Saving the manifest from an open database. -/
theorem wp_saveManifest {disk : Tree} {Q : Status → World → Nat → Prop} (hx : E.excludes)
    (h : InvOn c? tree disk w db b)
    (hC : E.crashes → ∀ w', Crashed c? db.dbPath w' b → C w' b)
    (hfail : E.fails → ∀ s w', s.ok = false → InvOn c? tree disk w' db b → Q s w' b)
    (hok : ∀ w', Settled c? tree w' db b → w'.bytes (walPath db.dbPath) =
      w.bytes (walPath db.dbPath) → Q .OK w' b) :
    wp E (db.version.save (manifestPath db.dbPath)) Q C w b := by
  refine Version.wp_save (Or.inl hx) (fun w' hw' => hok w' (h.saved hw') ?_)
    (fun hf s w' hs hw' => hfail hf s w' hs (h.onlyAt_tmp hw')) fun hc w' hw' => hC hc w' ?_
  · rw [World.bytes, World.bytes, hw'.file _ (wal_ne_manifest _) (wal_ne_tmp _)]
  rcases hw' with hw' | hw'
  · exact (h.onlyAt_tmp hw').crashed
  · exact (h.saved hw').crashed

/-- Rotating the log of a settled database whose memtable is empty. -/
theorem wp_rotateWal {Q : Status × DB → World → Nat → Prop} (h : Settled c? tree w db b)
    (hmem : db.memtable = {}) (hC : E.crashes → ∀ w', Crashed c? db.dbPath w' b → C w' b)
    (hQ : ∀ s wal w', (s.ok = true ∧ DB.LogOpen { db with wal := wal } ∧
        w'.bytes (walPath db.dbPath) = some [] ∨ E.fails) →
      Settled c? tree w' { db with wal := wal } b → Q (s, { db with wal := wal }) w' b) :
    wp E db.rotateWal Q C w b := by
  -- with an empty memtable the tree on disk shows everything, and an empty log will do
  have hempty : ∀ c ∈ c?, ∀ log, log = none ∨ log = some [] →
      Recovers tree tree db.memtable log c := by
    intro c hc log hlog
    obtain ⟨recs, -, hs⟩ := h.recovers c hc
    have hb : db.memtable.layer = silent := by rw [hmem, MemTable.layer_empty]
    have hview : view tree.layer = c := by
      have := hs.content
      rwa [RedoLog.Store.content, hb, silent_overlay] at this
    exact ⟨[], ⟨by simp, hlog.elim (fun h => Or.inr ⟨h, rfl⟩) fun h => Or.inl (by rw [h]; rfl)⟩,
      hs.truncate hview hb⟩
  have hclosed : ∀ w', OnlyAt (walPath db.dbPath) w w' →
      (∀ c ∈ c?, Recovers tree tree db.memtable (w'.bytes (walPath db.dbPath)) c) →
      Settled c? tree w' { db with wal := some ⟨none, walPath db.dbPath⟩ } b :=
    fun w' hw' hlog => h.onlyAt_wal hw' (Or.inl rfl) hlog
  have hcrash : E.crashes → ∀ w', OnlyAt (walPath db.dbPath) w w' →
      (∀ c ∈ c?, Recovers tree tree db.memtable (w'.bytes (walPath db.dbPath)) c) → C w' b :=
    fun hc w' hw' hlog => hC hc w' (hclosed w' hw' hlog).crashed
  -- the new log is opened over what is left of the old one
  have hopen : ∀ w', OnlyAt (walPath db.dbPath) w w' →
      (w'.bytes (walPath db.dbPath) = none ∨ E.fails ∧
        ∀ c ∈ c?, Recovers tree tree db.memtable (w'.bytes (walPath db.dbPath)) c) →
      wp E (WriteAheadLog.open (walPath db.dbPath) >>= fun r =>
        pure (r.1, { db with wal := some r.2 })) Q C w' b := by
    intro w' hw' hlog
    have hrec : ∀ c ∈ c?, Recovers tree tree db.memtable (w'.bytes (walPath db.dbPath)) c :=
      hlog.elim (fun hn c hc => hempty c hc _ (Or.inl hn)) And.right
    refine wp_bind (WriteAheadLog.wp_open (fun w'' hw'' hb => ?_) (fun hf s hs => ?_)
      fun hcrashes w'' hw'' hb => ?_)
    · refine wp_pure (hQ _ _ _ (hlog.imp (fun hn => ⟨rfl, rfl, by rw [hb, hn]; rfl⟩) And.left)
        (h.onlyAt_wal (hw'.trans hw'')
        (Or.inr ⟨rfl, by rw [hb]; simp⟩) fun c hc => ?_))
      cases hold : w'.bytes (walPath db.dbPath) with
      | none => exact hempty c hc _ (Or.inr (by rw [hb, hold]; rfl))
      | some data =>
          rw [hb, hold]
          exact hold ▸ hrec c hc
    · exact wp_pure (hQ _ _ _ (Or.inr hf) (hclosed w' hw' hrec))
    · refine hcrash hcrashes w'' (hw'.trans hw'') fun c hc => ?_
      rcases hb with hb | ⟨-, hb⟩
      · rw [hb]; exact hrec c hc
      · exact hempty c hc _ (Or.inr hb)
  have hremove : ∀ w', Grew (walPath db.dbPath) [] w w' →
      wp E (remove (walPath db.dbPath) >>= fun _ =>
        WriteAheadLog.open (walPath db.dbPath) >>= fun r =>
          pure (r.1, { db with wal := some r.2 })) Q C w' b := by
    intro w' hw'
    have hsame : w'.bytes (walPath db.dbPath) = w.bytes (walPath db.dbPath) := by
      rw [hw'.bytes]
      simp
    have hrec : ∀ c ∈ c?, Recovers tree tree db.memtable (w'.bytes (walPath db.dbPath)) c := by
      rw [hsame]
      exact h.recovers
    have hdel := hw'.only.trans (delete_onlyAt w' (walPath db.dbPath))
    have hnone : (w'.delete (walPath db.dbPath)).bytes (walPath db.dbPath) = none :=
      bytes_delete_same _ _
    exact wp_bind (wp_remove (hopen _ hdel (Or.inl hnone))
      (fun hf => hopen w' hw'.only (Or.inr ⟨hf, hrec⟩))
      fun hcrashes => ⟨hcrash hcrashes _ hw'.only hrec,
        hcrash hcrashes _ hdel fun c hc => hempty c hc _ (Or.inl hnone)⟩)
  have hsame : ∀ w', Grew (walPath db.dbPath) [] w w' →
      ∀ c ∈ c?, Recovers tree tree db.memtable (w'.bytes (walPath db.dbPath)) c := by
    intro w' hw'
    rw [hw'.bytes]
    simpa using h.recovers
  obtain ⟨log, hlog, hidle⟩ : ∃ log, db.wal = some log ∧ log.Idle (walPath db.dbPath) := by
    rcases h.holds.wal with hw | ⟨hw, -⟩
    · exact ⟨_, hw, WriteAheadLog.idle_closed _⟩
    · exact ⟨_, hw, rfl, Or.inr rfl⟩
  rw [rotateWal, hlog]
  refine wp_bind (WriteAheadLog.wp_close hidle (fun w' hw' => ?_) (fun hf s w' hs hw' => ?_)
    fun hcrashes w' hw' => hcrash hcrashes w' hw'.only (hsame w' hw'))
  · simp only [Status.ok_OK, Bool.not_true, Bool.false_eq_true, if_false]
    exact hremove w' hw'
  · simp only [hs, Bool.not_false, if_true]
    exact wp_pure (hQ _ _ _ (Or.inr hf) (hclosed w' hw'.only (hsame w' hw')))

/-- The counter goes up by one for one tick. -/
theorem next_spent {n : UInt64} {b : Nat} (h : n.toNat + (b + 1) < 2 ^ 64) :
    n < n + 1 ∧ (n + 1).toNat + b = n.toNat + (b + 1) := by
  have hsucc : (n + 1).toNat = n.toNat + 1 := by
    rw [UInt64.toNat_add, show (1 : UInt64).toNat = 1 from rfl, Nat.mod_eq_of_lt (by omega)]
  rw [UInt64.lt_iff_toNat_lt, hsucc]
  omega

/-- The counter goes up by one within the budget. -/
theorem next_lt_succ {n : UInt64} {b : Nat} (h : n.toNat + (b + 1) < 2 ^ 64) :
    n < n + 1 ∧ (n + 1).toNat + b < 2 ^ 64 :=
  ⟨(next_spent h).1, (next_spent h).2.trans_lt h⟩

/-- Each level has no more readers than there are open descriptors. -/
theorem length_le_held (db : DB) (l : Fin kMaxLevels) : (db.openReaders l).length ≤ db.held :=
  List.single_le_sum (fun _ _ => Nat.zero_le _) _
    (List.mem_map.mpr ⟨l, List.mem_finRange l, rfl⟩)

theorem Tree.ReadersOf.length_eq {d : Path} {readers : Levels SSTableReader}
    (h : tree.ReadersOf d readers) (l : Fin kMaxLevels) :
    (tree.levels l).length = (readers l).length :=
  (h l).length_eq

/-- `FlushMemTableLocked` pushes a table and its reader on L0. -/
def DB.pushL0 (db : DB) (fm : FileMetaData) (reader : SSTableReader) : DB :=
  { db with
    version := db.version.setLevel 0 (db.version.levels 0 ++ [fm])
    openReaders := Function.update db.openReaders 0 (db.openReaders 0 ++ [reader]) }

/-- A built table of the memtable's entries on top of L0 changes nothing. -/
theorem InvOn.pushL0 {disk : Tree} {t : Table} {fm : FileMetaData} {r : SSTableReader}
    {next : UInt64} (h : InvOn c? tree disk w db (b + 1))
    (hb : Built t db.dbPath tree.next w fm r) (ht : t.layer = db.memtable.layer)
    (hheld : db.held < maxOpenFiles) (hnext : next = tree.next + 1) :
    ∃ tree', tree'.levels = Function.update tree.levels 0 (tree.levels 0 ++ [hb.file]) ∧
      tree'.next = next ∧ tree'.layer = overlay db.memtable.layer tree.layer ∧
      InvOn c? tree' disk w ((db.withNext next).pushL0 fm r) b := by
  obtain ⟨hh, hr⟩ := h
  obtain ⟨hlt, hbudget⟩ := next_lt_succ hh.budget
  subst hnext
  have hnum : hb.file.number = tree.next := hb.number
  have hsize : (tree.levels 0).length < maxOpenFiles := by
    rw [hh.readers.length_eq]
    exact Nat.lt_of_le_of_lt (length_le_held db 0) hheld
  refine ⟨tree.push hb.file (tree.next + 1) (by rw [hnum]; exact UInt64.le_refl _)
    (by rw [hnum]; exact hlt) hsize, rfl, rfl, ?_, ?_, fun c hc => ?_⟩
  · rw [Tree.push_layer, ← ht]
    rfl
  · refine ⟨?_, fun l => ?_, fun l f hf => ?_, hh.onDisk, ?_, hbudget, hh.short, hh.wal⟩
    · simp only [DB.pushL0, DB.withNext, hh.version, Version.setLevel, Tree.version, Tree.push]
      congr 1
      funext l
      by_cases hl : l = 0
      · subst hl
        simp [Built.file]
      · simp [hl]
    · by_cases hl : l = 0
      · subst hl
        simp only [Tree.push, DB.pushL0, Function.update_self]
        exact List.rel_append (hh.readers 0)
          (List.Forall₂.cons (by rw [hnum]; exact hb.reader) List.Forall₂.nil)
      · simp only [Tree.push, DB.pushL0, Function.update_of_ne hl]
        exact hh.readers l
    · by_cases hl : l = 0
      · subst hl
        simp only [Tree.push, Function.update_self] at hf
        rcases List.mem_append.mp hf with hf | hf
        · exact hh.stored 0 f hf
        · rw [List.mem_singleton.mp hf, hnum]
          exact hb.stored
      · simp only [Tree.push, Function.update_of_ne hl] at hf
        exact hh.stored l f hf
    · exact UInt64.le_trans hh.next_le (UInt64.le_of_lt hlt)
  · obtain ⟨recs, hl, hs⟩ := hr c hc
    refine ⟨recs, hl, ?_⟩
    rw [Tree.push_layer]
    have hf : hb.file.layer = db.memtable.layer := ht
    rw [hf]
    exact hs.push

/-- The memtable of a settled database may be cleared when the tree shows it. -/
theorem InvOn.clear (h : Settled c? tree w db b) (ht : ∀ c ∈ c?, view tree.layer = c) :
    Settled c? tree w { db with memtable := db.memtable.clear } b := by
  refine ⟨{ h.holds with short := MemTable.short_empty }, fun c hc => ?_⟩
  obtain ⟨recs, hl, hs⟩ := h.recovers c hc
  refine ⟨recs, hl, ?_⟩
  have hclear := hs.clear (ht c hc)
  rwa [← MemTable.layer_empty] at hclear

/-- What a flush has done to the tree when it returns. -/
structure Flushed (tree disk : Tree) (db : DB) (s : Status) (tree' disk' : Tree) (db' : DB) :
    Prop where
  shell : SameShell db db'
  next_le : tree.next ≤ tree'.next
  deep : ∀ l, l ≠ 0 → tree'.levels l = tree.levels l
  top : tree'.levels 0 = tree.levels 0 ∨
    ∃ f, tree'.levels 0 = tree.levels 0 ++ [f] ∧ f.number = tree.next
  memtable : db'.memtable = db.memtable ∨ db'.memtable = {}
  size_le : tree'.size ≤ tree.size + db.memtable.flushEntries.length
  ok : s.ok = true → db.memtable.empty = true ∧ tree' = tree ∧ disk' = disk ∧ db' = db ∨
    db.memtable.empty = false ∧ disk' = tree' ∧ db'.memtable = {} ∧
      tree'.next = tree.next + 1 ∧ ∃ f : TableFile, tree'.levels 0 = tree.levels 0 ++ [f] ∧
        f.number = tree.next ∧ f.table.entries = db.memtable.flushEntries

/-- A flush keeps the invariant, whatever fails and wherever the process dies. -/
theorem wp_flushMemTableLocked {disk : Tree} {Q : Status × DB → World → Nat → Prop}
    (hx : E.excludes) (h : InvOn c? tree disk w db b)
    (hC : E.crashes ∨ db.FilterFailsWithin db.memtable.flushEntries.length → ∀ w' b', b' ≤ b →
      Crashed c? db.dbPath w' b' → C w' b')
    (hQ : ∀ s db' w' b' tree' disk', b' ≤ b → InvOn c? tree' disk' w' db' b' →
      Flushed tree disk db s tree' disk' db' →
      (s.ok = true ∧ (db.LogOpen → db'.LogOpen) ∧ (db.memtable.empty = true ∧ w' = w ∨
        w'.bytes (walPath db.dbPath) = some []) ∨ E.fails) → Q (s, db') w' b') :
    wp E db.flushMemTableLocked Q C w b := by
  rw [flushMemTableLocked]
  by_cases hempty : db.memtable.empty = true
  · rw [if_pos hempty]
    exact wp_pure (hQ _ _ _ _ _ _ (Nat.le_refl b) h ⟨SameShell.refl db, UInt64.le_refl _,
      fun _ _ => rfl, Or.inl rfl, Or.inl rfl, Nat.le_add_right _ _,
      fun _ => Or.inl ⟨hempty, rfl, rfl, rfl⟩⟩ (Or.inl ⟨rfl, id, Or.inl ⟨hempty, rfl⟩⟩))
  rw [if_neg hempty]
  have hne : db.memtable.empty = false := by simpa using hempty
  have hversion : db.version.nextFileNumber = tree.next := by rw [h.holds.version]; rfl
  have hfresh : ∀ {w' b'}, b' ≤ b → Fresh db.dbPath db.version.nextFileNumber w w' →
      InvOn c? tree disk w' db b' := fun hle hw => by
    rw [hversion] at hw
    exact (h.fresh hw).mono hle
  refine wp_bind (wp_buildTable (t := db.memtable.toTable h.holds.short hne) (Or.inl hx)
    (fun hc w' b' hle hw' => hC (hc.imp_right fun hn => ⟨_, ?_, hn⟩) w' b' hle
      (hfresh hle hw').crashed) ?_ ?_)
  · rw [List.length_map]
    exact Nat.le_refl _
  · -- no table: only the number is gone
    intro hf s w' b' hb hs hw'
    subst hb
    obtain ⟨hlt, hbudget⟩ := next_lt_succ h.holds.budget
    have hbump := (hfresh (Nat.le_refl _) hw').withNext (UInt64.le_of_lt hlt) hbudget
    rw [hversion]
    exact wp_pure (hQ _ _ _ _ _ _ (by omega) hbump ⟨⟨rfl, rfl, rfl, rfl⟩,
      UInt64.le_of_lt hlt, fun _ _ => rfl, Or.inl rfl, Or.inl rfl, Nat.le_add_right _ _,
      fun hs' => by rw [hs] at hs'; cases hs'⟩ (Or.inr hf))
  · intro fm r w' b' hb hw' hbuilt hheld
    subst hb
    rw [hversion] at hbuilt ⊢
    obtain ⟨tree', hlevels, hnext, hlayer, hpush⟩ := (hfresh (Nat.le_refl _) hw').pushL0 hbuilt
      (MemTable.layerOf_flushEntries _) hheld rfl
    have hle : tree.next ≤ tree'.next := by
      rw [hnext]
      exact UInt64.le_of_lt (next_lt_succ h.holds.budget).1
    have hdeep : ∀ l, l ≠ 0 → tree'.levels l = tree.levels l := fun l hl => by
      rw [hlevels, Function.update_of_ne hl]
    have htop : tree'.levels 0 = tree.levels 0 ++ [hbuilt.file] := by
      rw [hlevels, Function.update_self]
    have hnum : hbuilt.file.number = tree.next := hbuilt.number
    have hsize : tree'.size ≤ tree.size + db.memtable.flushEntries.length :=
      Tree.size_push hlevels
    refine wp_bind (wp_saveManifest hx hpush
      (fun hc w'' hw'' => hC (Or.inl hc) w'' b' (by omega) hw'') ?_ ?_)
    · -- the manifest still names the old tables, the memtable keeps its entries
      intro hf s w'' hs hw''
      simp only [hs, Bool.not_false, if_true]
      exact wp_pure (hQ _ _ _ _ _ _ (by omega) hw'' ⟨⟨rfl, rfl, rfl, rfl⟩, hle, hdeep,
        Or.inr ⟨_, htop, hnum⟩, Or.inl rfl, hsize, fun hs' => by rw [hs] at hs'; cases hs'⟩
        (Or.inr hf))
    · intro w'' hw'' _
      simp only [Status.ok_OK, Bool.not_true, Bool.false_eq_true, if_false]
      have hview : ∀ c ∈ c?, view tree'.layer = c := fun c hc => by
        obtain ⟨_, _, hs⟩ := h.recovers c hc
        rw [hlayer]
        exact hs.content
      refine wp_rotateWal (hw''.clear hview) rfl
        (fun hc w3 hw3 => hC (Or.inl hc) w3 b' (by omega) hw3) fun s wal w3 hs hw3 => ?_
      exact hQ _ _ _ _ _ _ (by omega) hw3 ⟨⟨rfl, rfl, rfl, rfl⟩, hle, hdeep,
        Or.inr ⟨_, htop, hnum⟩, Or.inr rfl, hsize,
        fun _ => Or.inr ⟨hne, rfl, rfl, hnext, _, htop, hnum, rfl⟩⟩
        (hs.imp_left fun h => ⟨h.1, fun _ => h.2.1, Or.inr h.2.2⟩)

end ClomDB
