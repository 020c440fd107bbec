import ClomDB.Restarts
import ClomDB.BatchBytes

/-!
# The counter comes round

The next file number is a 64-bit counter. A database that holds one key in a
table or two goes through all of its values without a failing call: two puts
make two tables of L0, a compaction merges them into the table of L1, and three
numbers are spent. What was newer then depends on where the counter stood.

## Implementation notes

The tables are small, so every execution exists, and the steps of the run are
those of executions that return. Nothing is asked of the order of the numbers,
only that the next ones are not those of live tables.
-/

namespace ClomDB

open FaultProgram FileSystem FileSystem.World LayeredMap SSTable DB WriteAheadLog

/-- Every write is flushed, two tables of L0 are merged at once, and no level is
ever too large. -/
def roundOptions : Options :=
  { memtableFlushBytes := 0, l0CompactionTrigger := 2, level1TargetBytes := 0xFFFFFFFFFFFFFFFF
    backgroundCompaction := false }

/-- Tables on the two top levels. -/
def topLevels (l0 l1 : List TableFile) : Levels TableFile :=
  Function.update (Function.update (fun _ => []) 1 l1) 0 l0

/-- The memtable with one key. -/
def oneKey (value : UInt8) : MemTable := MemTable.put {} [0x61] [value]

theorem oneKey_flushEntries (value : UInt8) :
    (oneKey value).flushEntries = (oneEntry 0x61 value).entries := rfl

theorem oneKey_empty (value : UInt8) : (oneKey value).empty = false := rfl

/-- An open database whose tables all hold the one key and lie on the two top levels. -/
structure Rounding (m : MemTable) (l0 l1 : List TableFile) (next : UInt64) (w : World) (db : DB) :
    Prop where
  aligned : Aligned (topLevels l0 l1) w db
  tables : ∀ f ∈ l0 ++ l1, ∃ value, f.table = oneEntry 0x61 value
  number : db.version.nextFileNumber = next
  memtable : db.memtable = m
  closed : db.closed = false
  options : db.options = roundOptions
  log : db.LogOpen
  emptied : m = {} → w.bytes (walPath db.dbPath) = some []

section Round

variable {m : MemTable} {l0 l1 : List TableFile} {n : UInt64} {w : World} {db : DB} {value : UInt8}

theorem mem_topLevels {l : Fin kMaxLevels} {f : TableFile} (hf : f ∈ topLevels l0 l1 l) :
    f ∈ l0 ++ l1 := by
  rw [topLevels] at hf
  by_cases h0 : l = 0
  · subst h0
    rw [Function.update_self] at hf
    exact List.mem_append_left _ hf
  · rw [Function.update_of_ne h0] at hf
    by_cases h1 : l = 1
    · subst h1
      rw [Function.update_self] at hf
      exact List.mem_append_right _ hf
    · rw [Function.update_of_ne h1] at hf
      cases hf

theorem topLevels_push (f : TableFile) : Function.update (topLevels l0 l1) 0 (l0 ++ [f]) =
    topLevels (l0 ++ [f]) l1 := by
  rw [topLevels, Function.update_idem, topLevels]

theorem topLevels_merge (f : TableFile) :
    Function.update (Function.update (topLevels l0 l1) 0 []) 1 [f] = topLevels [] [f] := by
  rw [topLevels, topLevels, Function.update_idem, Function.update_comm (by decide),
    Function.update_idem]

theorem topLevels_sum : ((List.finRange kMaxLevels).map fun l => (topLevels l0 l1 l).length).sum =
    l0.length + l1.length := by
  have hlevels : List.finRange kMaxLevels = 0 :: [1, 2, 3, 4, 5] := by decide
  rw [hlevels]
  simp [topLevels, Function.update]

/-- A manifest of tables with one key each is small. -/
theorem encode_fits {files : Levels TableFile} {db : DB} (ha : Aligned files w db)
    (hsmall : ∀ l, ∀ f ∈ files l, ∃ value, f.table = oneEntry 0x61 value)
    (hfew : ((List.finRange kMaxLevels).map fun l => (files l).length).sum ≤ 4) :
    db.version.encode.length ≤ maxFileBytes := by
  have hkeys : ∀ l, ∀ fm ∈ db.version.levels l, fm.minKey.length + fm.maxKey.length ≤ 2 := by
    intro l fm hfm
    rw [ha.version] at hfm
    obtain ⟨f, hf, rfl⟩ := List.mem_map.mp hfm
    obtain ⟨value, ht⟩ := hsmall l f hf
    rw [f.minKey_eq, f.maxKey_eq, ht]
    exact Nat.le_refl 2
  have hlength : ((List.finRange kMaxLevels).map fun l => (db.version.levels l).length).sum ≤ 4 := by
    simpa [ha.version] using hfew
  refine (Version.encode_length_le hkeys).trans ?_
  have hmax : 1024 ≤ maxFileBytes := by decide
  omega

/-- The filter and the image of a table with one key. -/
theorem oneEntry_fits (value : UInt8) : ∃ filter,
    BloomFilter.build ((oneEntry 0x61 value).entries.map SSTableEntry.key)
      roundOptions.bloomBitsPerKey = some filter ∧
        (tableImage (oneEntry 0x61 value).entries filter).length ≤ maxFileBytes := by
  obtain ⟨filter, hfilter⟩ : ∃ filter, BloomFilter.build [[0x61]] 10 = some filter :=
    BloomFilter.exists_build (by decide) (by decide)
  have hlen : filter.length = 9 := by
    have hbuild : (BloomFilter.build [[0x61]] 10).map List.length = some 9 := by decide +kernel
    rw [hfilter] at hbuild
    exact Option.some.inj hbuild
  refine ⟨filter, hfilter, ?_⟩
  have hsections : (encodeEntries (oneEntry 0x61 value).entries).length +
      (indexOf (oneEntry 0x61 value).entries).length ≤ 1024 := Nat.le_of_ble_eq_true rfl
  have hmax : 2048 ≤ maxFileBytes := by decide
  simp only [tableImage, List.length_append, encodeFooter_length, hlen]
  have hfooter : kSSTableFooterSize ≤ 64 := by decide
  omega

theorem Rounding.held (h : Rounding m l0 l1 n w db) : db.held = l0.length + l1.length := by
  have hlength : ∀ l, (db.openReaders l).length = (topLevels l0 l1 l).length := fun l =>
    ((h.aligned.readers l).length_eq).symm
  simp only [DB.held, hlength]
  exact topLevels_sum

/-- Nothing is to be compacted while L0 has fewer than two tables. -/
theorem Rounding.quiet (h : Rounding m l0 l1 n w db) (hl0 : l0.length ≤ 1) :
    db.needsCompactionLocked = none := by
  have hbelow : ∀ l, l ≠ 0 → l ≠ 1 → db.version.levels l = [] := fun l h0 h1 => by
    rw [h.aligned.version, topLevels, Function.update_of_ne h0, Function.update_of_ne h1]
    rfl
  have hzero : ∀ t : UInt64, ¬levelBytes [] > t := fun t => UInt64.not_lt.mpr UInt64.zero_le
  have hmax : ∀ t : UInt64, ¬t > 0xFFFFFFFFFFFFFFFF := fun t => UInt64.not_lt.mpr (by
    rw [UInt64.le_iff_toNat_le]
    exact Nat.le_of_lt_succ t.toNat_lt)
  have htop : ¬(Int32.ofNat (db.version.levels 0).length).toInt ≥ db.options.l0CompactionTrigger := by
    rw [h.aligned.version, List.length_map, h.options]
    have hlevel : (topLevels l0 l1 0).length = l0.length := by rw [topLevels, Function.update_self]
    rw [hlevel]
    rcases Nat.le_one_iff_eq_zero_or_eq_one.mp hl0 with hlength | hlength
    · rw [hlength]
      decide
    · rw [hlength]
      decide
  rw [needsCompactionLocked, if_neg htop, h.options]
  simp only [needsCompactionLoop, roundOptions, hbelow 2 (by decide) (by decide),
    hbelow 3 (by decide) (by decide), hbelow 4 (by decide) (by decide), hzero, hmax, if_false]

theorem Rounding.full (h : Rounding m l0 l1 n w db) (hl0 : l0.length = 2) :
    db.needsCompactionLocked = some 0 := by
  have htop : (Int32.ofNat (db.version.levels 0).length).toInt ≥ db.options.l0CompactionTrigger := by
    rw [h.aligned.version, List.length_map, h.options]
    have hlevel : (topLevels l0 l1 0).length = l0.length := by rw [topLevels, Function.update_self]
    rw [hlevel, hl0]
    decide
  rw [needsCompactionLocked, if_pos htop]

/-- The directory may change where no live table is. -/
theorem Rounding.aligned_onlyAt {q : UInt64} {w' : World} (h : Rounding m l0 l1 n w db)
    (hw : OnlyAt (sstablePath db.dbPath q) w w') (hq : ∀ f ∈ l0 ++ l1, f.number ≠ q) :
    Aligned (topLevels l0 l1) w' db :=
  h.aligned.of_bytes rfl rfl rfl fun _ f hf =>
    hw.bytes fun heq => hq f (mem_topLevels hf) (sstablePath_inj _ heq)

/-- Rotating the log where every call succeeds. -/
theorem wp_rotateWal_sure (h : db.LogOpen) {Q : Status × DB → World → Nat → Prop} {b : Nat}
    {C : World → Nat → Prop} (hQ : ∀ w', OnlyAt (walPath db.dbPath) w w' →
      w'.bytes (walPath db.dbPath) = some [] → Q (.OK, db) w' b) :
    wp Env.sure db.rotateWal Q C w b := by
  have hwal := h
  rw [DB.LogOpen] at hwal
  have hsame : { db with wal := some ⟨some ⟨walPath db.dbPath, []⟩, walPath db.dbPath⟩ } = db := by
    rw [← hwal]
  rw [rotateWal, hwal]
  refine wp_bind (WriteAheadLog.wp_close ⟨rfl, Or.inr rfl⟩ (fun w₁ hw₁ => ?_)
    (fun hf => hf.elim) fun hc => hc.elim)
  simp only [Status.ok_OK, Bool.not_true, Bool.false_eq_true, if_false]
  refine wp_bind (wp_remove (wp_bind (WriteAheadLog.wp_open (fun w₂ hw₂ hbytes => wp_pure ?_)
    (fun hf => hf.elim) fun hc => hc.elim)) (fun hf => hf.elim) fun hc => hc.elim)
  rw [hsame]
  refine hQ w₂ ((hw₁.only.trans (delete_onlyAt _ _)).trans hw₂) ?_
  rw [hbytes, bytes_delete_same]
  rfl

/-- A flush puts a table with the number of the counter on L0. -/
theorem Rounding.wp_flushMemTableLocked (h : Rounding (oneKey value) l0 l1 n w db)
    (hl0 : l0.length ≤ 1) (hl1 : l1.length ≤ 1) (hn : ∀ f ∈ l0 ++ l1, f.number ≠ n)
    {Q : Status × DB → World → Nat → Prop} {C : World → Nat → Prop} {b : Nat}
    (hQ : ∀ f db' w' b', f.number = n → f.table = oneEntry 0x61 value →
      Rounding {} (l0 ++ [f]) l1 (n + 1) w' db' → Q (.OK, db') w' b') :
    wp Env.sure db.flushMemTableLocked Q C w b := by
  obtain ⟨filter, hfilter, hfit⟩ := oneEntry_fits value
  rw [← h.options] at hfilter
  have hheld : db.held < maxOpenFiles := by
    rw [h.held]
    exact Nat.lt_of_le_of_lt (Nat.add_le_add hl0 hl1) (by decide)
  rw [DB.flushMemTableLocked, if_neg (by rw [h.memtable, oneKey_empty]; decide), h.memtable,
    oneKey_flushEntries]
  refine wp_bind (wp_buildTable_onlyAt (Or.inr ⟨hheld, filter, hfilter, hfit⟩) (fun hc => ?_)
    (fun hf => hf.elim) fun fm r w₁ b' _ hw₁ hbuilt _ => ?_)
  · rw [hfilter] at hc
    exact absurd hc (by simp [Env.sure])
  rw [h.number] at hw₁ hbuilt ⊢
  have hnum : hbuilt.file.number = n := hbuilt.number
  have hlive : ∀ f ∈ (l0 ++ [hbuilt.file]) ++ l1, ∃ value, f.table = oneEntry 0x61 value := by
    intro f hf
    rw [List.append_assoc, List.mem_append, List.singleton_append, List.mem_cons] at hf
    rcases hf with hf | rfl | hf
    · exact h.tables f (List.mem_append_left _ hf)
    · exact ⟨value, rfl⟩
    · exact h.tables f (List.mem_append_right _ hf)
  have hpushed : Aligned (topLevels (l0 ++ [hbuilt.file]) l1) w₁
      ((db.withNext (n + 1)).pushL0 fm r) := by
    have hbase : Aligned (topLevels l0 l1) w₁ (db.withNext (n + 1)) :=
      (h.aligned_onlyAt hw₁ hn).of_bytes rfl rfl rfl fun _ _ _ => rfl
    have hpush := hbase.pushL0 hbuilt
    rwa [show topLevels l0 l1 0 = l0 from Function.update_self .., topLevels_push] at hpush
  have hsmall : ((db.withNext (n + 1)).pushL0 fm r).version.encode.length ≤ maxFileBytes := by
    refine encode_fits hpushed (fun l f hf => hlive f (mem_topLevels hf)) ?_
    rw [topLevels_sum, List.length_append, List.length_singleton]
    omega
  refine wp_bind (Version.wp_save (Or.inr hsmall) (fun w₂ hw₂ => ?_) (fun hf => hf.elim)
    fun hc => hc.elim)
  simp only [Status.ok_OK, Bool.not_true, Bool.false_eq_true, if_false]
  have hlog : DB.LogOpen { (db.withNext (n + 1)).pushL0 fm r with memtable := {} } := h.log
  refine wp_rotateWal_sure hlog fun w₃ hw₃ hbytes => hQ hbuilt.file _ w₃ b' hnum rfl
    ⟨hpushed.of_bytes rfl rfl rfl fun _ f _ => ?_, hlive, rfl, rfl, h.closed, h.options, hlog,
      fun _ => hbytes⟩
  have hbytes₃ := hw₃.bytes (sstablePath_ne_wal db.dbPath f.number)
  have hfile₂ := hw₂.file _ (sstablePath_ne_manifest db.dbPath f.number)
    (sstablePath_ne_tmp db.dbPath f.number)
  exact hbytes₃.trans (congrArg _ hfile₂)

/-- Of two tables of L0 the one with the higher number is merged last. -/
theorem mergedEntries_pair {f g : TableFile} {x y : UInt8} (hf : f.table = oneEntry 0x61 x)
    (hg : g.table = oneEntry 0x61 y) (hl1 : ∀ f ∈ l1, ∃ value, f.table = oneEntry 0x61 value) :
    mergedEntries (mergeInputs (topLevels [f, g] l1) 0 1) =
      (oneEntry 0x61 (if g.number ≤ f.number then x else y)).entries := by
  have h0 : topLevels [f, g] l1 0 = [f, g] := Function.update_self ..
  have h1 : topLevels [f, g] l1 1 = l1 := rfl
  have hone : ∀ ts : List TableFile,
      (∀ t ∈ ts, ∃ value, t.table = oneEntry 0x61 value) →
      ∀ run ∈ ts.map fun t => t.table.entries, ∃ e', run = [e'] ∧ e'.key = [0x61] := by
    intro ts hts run hrun
    obtain ⟨t, ht, rfl⟩ := List.mem_map.mp hrun
    obtain ⟨value, heq⟩ := hts t ht
    exact ⟨_, by rw [heq]; rfl, rfl⟩
  rw [mergeInputs, h0, h1, mergeOrder_pair]
  split
  · have hlast := mergedEntries_oneKey (e := ⟨[0x61], .kPut, [x]⟩) (hone (l1 ++ [g]) fun t ht => ?_)
    · simpa [hf, oneEntry] using hlast
    · rcases List.mem_append.mp ht with ht | ht
      · exact hl1 t ht
      · exact ⟨y, by rw [List.mem_singleton.mp ht, hg]⟩
  · have hlast := mergedEntries_oneKey (e := ⟨[0x61], .kPut, [y]⟩) (hone (l1 ++ [f]) fun t ht => ?_)
    · simpa [hg, oneEntry] using hlast
    · rcases List.mem_append.mp ht with ht | ht
      · exact hl1 t ht
      · exact ⟨x, by rw [List.mem_singleton.mp ht, hf]⟩

/-- Two tables of L0 and what L1 holds become one table of L1. -/
theorem Rounding.wp_compactLocked {f g : TableFile} {x y : UInt8}
    (h : Rounding {} [f, g] l1 n w db) (hf : f.table = oneEntry 0x61 x)
    (hg : g.table = oneEntry 0x61 y) (hl1 : l1.length ≤ 1) (hn : ∀ f' ∈ [f, g] ++ l1, f'.number ≠ n)
    {Q : Status × DB → World → Nat → Prop} {C : World → Nat → Prop} {b : Nat}
    (hQ : ∀ f' db' w' b', f'.number = n →
      f'.table = oneEntry 0x61 (if g.number ≤ f.number then x else y) →
      Rounding {} [] [f'] (n + 1) w' db' → Q (.OK, db') w' b') :
    wp Env.sure (db.compactLocked 0) Q C w b := by
  obtain ⟨filter, hfilter, hfit⟩ := oneEntry_fits (if g.number ≤ f.number then x else y)
  rw [← h.options] at hfilter
  have hheld : db.held < maxOpenFiles := by
    rw [h.held]
    exact Nat.lt_of_le_of_lt (Nat.add_le_add (Nat.le_refl 2) hl1) (by decide)
  have hone : (1 : Fin kMaxLevels).val = (0 : Fin kMaxLevels).val + 1 := rfl
  refine wp_compactLocked_single h.aligned hone rfl
    (mergedEntries_pair hf hg fun f' hf' => h.tables f' (List.mem_append_right _ hf')) rfl (by simp)
    hheld hfilter hfit fun fm r w₁ b' _ hw₁ hbuilt => ?_
  rw [h.number] at hw₁ hbuilt ⊢
  have hnum : hbuilt.file.number = n := hbuilt.number
  have hlive : ∀ f' ∈ [] ++ [hbuilt.file], ∃ value, f'.table = oneEntry 0x61 value := by
    intro f' hf'
    rw [List.mem_singleton.mp hf']
    exact ⟨_, rfl⟩
  have hswitched : Aligned (topLevels [] [hbuilt.file]) w₁
      ((db.withNext (n + 1)).switch 0 1 ⟨[fm], [r]⟩) := by
    have hbase : Aligned (topLevels [f, g] l1) w₁ (db.withNext (n + 1)) :=
      (h.aligned_onlyAt hw₁ hn).of_bytes rfl rfl rfl fun _ _ _ => rfl
    have hswitch : Aligned (Function.update (Function.update (topLevels [f, g] l1) 0 []) 1
        [hbuilt.file]) w₁ ((db.withNext (n + 1)).switch 0 1 ⟨[fm], [r]⟩) :=
      hbase.replace 0 1 rfl (List.Forall₂.cons hbuilt.readIn List.Forall₂.nil) fun f' hf' => by
        rw [List.mem_singleton.mp hf']
        exact hbuilt.storedIn
    rwa [topLevels_merge] at hswitch
  have hsmall : ((db.withNext (n + 1)).switch 0 1 ⟨[fm], [r]⟩).version.encode.length ≤
      maxFileBytes := by
    refine encode_fits hswitched (fun l f' hf' => hlive f' (mem_topLevels hf')) ?_
    rw [topLevels_sum]
    exact Nat.le_of_ble_eq_true rfl
  have hold : n ∉ (db.withNext (n + 1)).oldNumbers 0 1 := by
    intro hmem
    obtain ⟨fm', hfm', hnum'⟩ := List.mem_map.mp hmem
    obtain ⟨f', hf', rfl⟩ : ∃ f' ∈ [f, g] ++ l1, f'.info = fm' := by
      rcases List.mem_append.mp hfm' with hfm' | hfm'
      · have hlevel : fm' ∈ (topLevels [f, g] l1 0).map TableFile.info := h.aligned.version 0 ▸ hfm'
        obtain ⟨f', hf', rfl⟩ := List.mem_map.mp hlevel
        exact ⟨f', mem_topLevels hf', rfl⟩
      · have hlevel : fm' ∈ (topLevels [f, g] l1 1).map TableFile.info := h.aligned.version 1 ▸ hfm'
        obtain ⟨f', hf', rfl⟩ := List.mem_map.mp hlevel
        exact ⟨f', mem_topLevels hf', rfl⟩
    exact hn f' hf' hnum'
  refine wp_installOutput (Or.inr hsmall) (fun hf => hf.elim) (fun w₂ w₃ hw₂ hw₃ _ => ?_)
    (fun hc => hc.elim) fun hc => hc.elim
  refine hQ hbuilt.file _ w₃ b' hnum rfl
    ⟨hswitched.of_bytes rfl rfl rfl fun l f' hf' => ?_, hlive, rfl, h.memtable, h.closed, h.options,
      h.log, fun hm => ?_⟩
  · rw [List.mem_singleton.mp (mem_topLevels hf'), hnum]
    have hbytes₃ := hw₃.bytes_table hold
    exact hbytes₃.trans (congrArg _ (hw₂.file _ (sstablePath_ne_manifest db.dbPath n)
      (sstablePath_ne_tmp db.dbPath n)))
  · have hbytes₁ := hw₁.bytes (sstablePath_ne_wal db.dbPath n).symm
    have hbytes₂ : w₂.bytes (walPath db.dbPath) = w₁.bytes (walPath db.dbPath) :=
      congrArg _ (hw₂.file _ (wal_ne_manifest db.dbPath) (wal_ne_tmp db.dbPath))
    exact hw₃.bytes_wal.trans (hbytes₂.trans (hbytes₁.trans (h.emptied hm)))

/-- The batch that puts a value under the key. -/
def putOne (value : UInt8) : WriteBatch := WriteBatch.put {} [0x61] [value]

/-- A write is flushed. -/
theorem Rounding.wp_write (h : Rounding {} l0 l1 n w db) (hl0 : l0.length ≤ 1)
    (hl1 : l1.length ≤ 1) (hn : ∀ f ∈ l0 ++ l1, f.number ≠ n) (fuel : Nat)
    {Q : Status × DB → World → Nat → Prop} {C : World → Nat → Prop} {b : Nat}
    (hQ : ∀ f db' w' b', f.number = n → f.table = oneEntry 0x61 value →
      Rounding {} (l0 ++ [f]) l1 (n + 1) w' db' → wp Env.sure (compactionLoop fuel db') Q C w' b') :
    wp Env.sure (db.write fuel {} (putOne value)) Q C w b := by
  have hwal := h.log
  rw [DB.LogOpen] at hwal
  have hsame : { db with wal := some ⟨some ⟨walPath db.dbPath, []⟩, walPath db.dbPath⟩ } = db := by
    rw [← hwal]
  have hshort : ∀ op ∈ [BatchOp.put [0x61] [value]], op.Short := by simp [BatchOp.Short]
  have hiterate : ((putOne value).iterate WriteBatch.recorder []).1 = .OK :=
    congrArg Prod.fst (WriteBatch.iterate_ofOps WriteBatch.recorder [] hshort)
  have happlied : (db.applied (putOne value)).memtable = oneKey value := by
    have hdecode : WriteBatch.decodeOps (putOne value).rep = [.put [0x61] [value]] :=
      WriteBatch.decodeOps_encode hshort
    rw [DB.applied, hdecode, h.memtable]
    rfl
  rw [DB.write, if_neg (show ¬(putOne value).empty = true from Bool.false_ne_true),
    if_neg (by rw [h.closed]; decide), hwal]
  refine wp_bind (wp_addRecord rfl (Or.inr ?_) (fun w₁ hw₁ _ => ?_) (fun hf => hf.elim)
    fun hc => hc.elim)
  · rw [h.emptied rfl]
    have hframe : (frame (putOne value).rep).length ≤ 1024 := Nat.le_of_ble_eq_true rfl
    have hmax : 1024 ≤ maxFileBytes := by decide
    simpa using hframe.trans hmax
  have hwritten : Rounding (oneKey value) l0 l1 n w₁ (db.applied (putOne value)) := by
    refine ⟨h.aligned.of_bytes rfl rfl rfl fun _ f _ =>
      hw₁.only.bytes (sstablePath_ne_wal db.dbPath f.number), h.tables, h.number, happlied, h.closed,
      h.options, h.log, fun hm => ?_⟩
    have hempty := oneKey_empty value
    rw [hm] at hempty
    cases hempty
  have hinline : ¬(db.applied (putOne value)).options.backgroundCompaction = true := by
    rw [hwritten.options]
    decide
  have hfull : (db.applied (putOne value)).memtable.approximateBytes ≥
      (db.applied (putOne value)).options.memtableFlushBytes := by
    rw [hwritten.options]
    exact UInt64.zero_le
  simp only [Status.ok_OK, Bool.not_true, Bool.false_eq_true, if_false, hsame, applyBatchLocked_eq,
    hiterate, if_neg hinline]
  rw [maybeFlushLocked, if_pos hfull, DB.flush]
  refine wp_bind (hwritten.wp_flushMemTableLocked hl0 hl1 hn fun f db' w' b' hnum ht hflushed => ?_)
  simp only [Status.ok_OK, Bool.not_true, Bool.false_eq_true, if_false]
  exact hQ f db' w' b' hnum ht hflushed

/-- What a put whose executions all exist leads to. -/
theorem exists_put {P : DB → World → Prop} (d : Path) (value : UInt8) (hopen : db.closed = false)
    (h : ∀ b, wp Env.sure (db.write 2 {} (putOne value))
      (fun r w' _ => r.1 = .OK ∧ P r.2 w') (fun _ _ => False) w b) :
    ∃ db' w' t, Step Env.calm Free d ⟨w, some db⟩ (.returned (.write {} (putOne value)) true .OK) t
      ⟨w', some db'⟩ ∧ P db' w' := by
  have hprog : ∀ b, wp Env.sure (Op.prog 2 d (.write {} (putOne value)) (some db))
      (fun r w' _ => ∃ db', r = (.OK, some db') ∧ P db' w') (fun _ _ => False) w b := fun b =>
    wp_bind (wp_mono (h b) (fun r w' _ hr => wp_pure ⟨r.2, by rw [hr.1], hr.2⟩) fun _ _ => id)
  obtain ⟨_, w', rest, t, hr, db', rfl, hP⟩ := wp.returns hprog
  have hstep : Step Env.calm Free d ⟨w, some db⟩
      (.returned (.write {} (putOne value)) (Machine.accepting ⟨w, some db⟩) .OK) t
      ⟨w', some db'⟩ := .returned (Env.admits_nil _) trivial hr
  have haccepting : Machine.accepting ⟨w, some db⟩ = true := by simp [Machine.accepting, hopen]
  rw [haccepting] at hstep
  exact ⟨db', w', t, hstep, hP⟩

/-- The first put into an empty L0 makes a table of L0. -/
theorem Rounding.put_first (h : Rounding {} [] l1 n w db) (hl1 : l1.length ≤ 1)
    (hn : ∀ f ∈ l1, f.number ≠ n) (d : Path) (value : UInt8) : ∃ f db' w' t,
      Step Env.calm Free d ⟨w, some db⟩ (.returned (.write {} (putOne value)) true .OK) t
        ⟨w', some db'⟩ ∧ f.number = n ∧ f.table = oneEntry 0x61 value ∧
      Rounding {} [f] l1 (n + 1) w' db' := by
  obtain ⟨db', w', t, hstep, f, hf⟩ := exists_put
    (P := fun db' w' => ∃ f : TableFile, f.number = n ∧ f.table = oneEntry 0x61 value ∧
      Rounding {} [f] l1 (n + 1) w' db') d value h.closed
    fun b => h.wp_write (Nat.zero_le 1) hl1 hn 2 fun f db' w' b' hnum ht hput => by
      rw [compactionLoop, hput.quiet (Nat.le_refl 1)]
      exact wp_pure ⟨rfl, f, hnum, ht, hput⟩
  exact ⟨f, db', w', t, hstep, hf⟩

/-- The second put makes another one, and both are merged into L1. -/
theorem Rounding.put_second {f : TableFile} {x : UInt8} (h : Rounding {} [f] l1 n w db)
    (hf : f.table = oneEntry 0x61 x) (hl1 : l1.length ≤ 1) (hn : ∀ f' ∈ [f] ++ l1, f'.number ≠ n)
    (hn' : ∀ f' ∈ [f] ++ l1, f'.number ≠ n + 1) (d : Path) (value : UInt8) : ∃ f' db' w' t,
      Step Env.calm Free d ⟨w, some db⟩ (.returned (.write {} (putOne value)) true .OK) t
        ⟨w', some db'⟩ ∧ f'.number = n + 1 ∧
      f'.table = oneEntry 0x61 (if n ≤ f.number then x else value) ∧
      Rounding {} [] [f'] (n + 1 + 1) w' db' := by
  obtain ⟨db', w', t, hstep, f', hf'⟩ := exists_put
    (P := fun db' w' => ∃ f' : TableFile, f'.number = n + 1 ∧
      f'.table = oneEntry 0x61 (if n ≤ f.number then x else value) ∧
      Rounding {} [] [f'] (n + 1 + 1) w' db') d value h.closed
    fun b => h.wp_write (Nat.le_refl 1) hl1 hn 2 fun g db' w' b' hnum ht hput => by
      rw [compactionLoop, hput.full rfl]
      have hfresh : ∀ f' ∈ [f, g] ++ l1, f'.number ≠ n + 1 := by
        intro f' hmem
        rcases List.mem_cons.mp hmem with rfl | hmem
        · exact hn' _ List.mem_cons_self
        · rcases List.mem_cons.mp hmem with rfl | hmem
          · rw [hnum]
            simp
          · exact hn' f' (List.mem_append_right _ hmem)
      refine wp_bind (hput.wp_compactLocked hf ht hl1 hfresh fun f' db'' w'' b'' hnum' ht' hmerged => ?_)
      simp only [Status.ok_OK, Bool.not_true, Bool.false_eq_true, if_false]
      rw [compactionLoop, hmerged.quiet (Nat.zero_le 1)]
      rw [hnum] at ht'
      exact wp_pure ⟨rfl, f', hnum', ht', hmerged⟩
  exact ⟨f', db', w', t, hstep, hf'⟩

/-- Two puts spend three numbers. -/
theorem Rounding.round (h : Rounding {} [] l1 n w db) (hl1 : l1.length ≤ 1)
    (hn : ∀ f ∈ l1, f.number + 1 = n) (d : Path) (x y : UInt8) : ∃ f db' w' t,
      Run Env.calm Free d ⟨w, some db⟩ [.returned (.write {} (putOne x)) true .OK,
        .returned (.write {} (putOne y)) true .OK] t ⟨w', some db'⟩ ∧ f.number + 1 = n + 3 ∧
      f.table = oneEntry 0x61 (if n + 1 ≤ n then x else y) ∧ Rounding {} [] [f] (n + 3) w' db' := by
  have hbefore : ∀ f ∈ l1, f.number ≠ n ∧ f.number ≠ n + 1 ∧ f.number ≠ n + 1 + 1 := by
    intro f hf
    rw [← hn f hf]
    grind
  obtain ⟨g, db₁, w₁, t₁, hstep₁, hg, hgt, h₁⟩ := h.put_first hl1 (fun f hf => (hbefore f hf).1) d x
  have hn₁ : ∀ f ∈ [g] ++ l1, f.number ≠ n + 1 ∧ f.number ≠ n + 1 + 1 := by
    intro f hf
    rcases List.mem_cons.mp hf with rfl | hf
    · rw [hg]
      grind
    · exact (hbefore f hf).2
  obtain ⟨f, db₂, w₂, t₂, hstep₂, hnum, ht, h₂⟩ := h₁.put_second hgt hl1
    (fun f hf => (hn₁ f hf).1) (fun f hf => (hn₁ f hf).2) d y
  have hthree : n + 1 + 1 + 1 = n + 3 := by grind
  rw [hthree] at h₂
  rw [hg] at ht
  exact ⟨f, db₂, w₂, _, hstep₁.run.step hstep₂, by rw [hnum, hthree], ht, h₂⟩

/-- Any number of rounds with one value. -/
theorem Rounding.rounds (h : Rounding {} [] l1 n w db) (hl1 : l1.length ≤ 1)
    (hn : ∀ f ∈ l1, f.number + 1 = n) (d : Path) (k : Nat) : ∃ es l1' db' w' t,
      Run Env.calm Free d ⟨w, some db⟩ es t ⟨w', some db'⟩ ∧
      (∀ e ∈ es, e = .returned (.write {} (putOne 0x78)) true .OK) ∧ l1'.length ≤ 1 ∧
      (∀ f ∈ l1', f.number + 1 = n + 3 * UInt64.ofNat k) ∧
      Rounding {} [] l1' (n + 3 * UInt64.ofNat k) w' db' := by
  induction k with
  | zero => exact ⟨[], l1, db, w, 0, .start, by simp, hl1, by simpa using hn, by simpa using h⟩
  | succ k ih =>
      obtain ⟨es, l1', db₁, w₁, t, hrun, hes, hl1', hn', h₁⟩ := ih
      obtain ⟨f, db₂, w₂, t', hround, hnum, -, h₂⟩ := h₁.round hl1' hn' d 0x78 0x78
      have hnext : n + 3 * UInt64.ofNat k + 3 = n + 3 * UInt64.ofNat (k + 1) := by
        rw [UInt64.ofNat_add]
        grind
      rw [hnext] at hnum h₂
      refine ⟨_, [f], db₂, w₂, _, hrun.trans hround, fun e he => ?_, Nat.le_refl 1, ?_, h₂⟩
      · rcases List.mem_append.mp he with he | he
        · exact hes e he
        · simpa using he
      · intro f' hf'
        rw [List.mem_singleton.mp hf']
        exact hnum

/-- `Get` sees the table of L1. -/
theorem Rounding.seen {f : TableFile} {x : UInt8} (h : Rounding {} [] [f] n w db)
    (hf : f.table = oneEntry 0x61 x) : db.seen w [] [0x61] = some [x] := by
  obtain ⟨r, hr, hread⟩ : ∃ r, db.openReaders 1 = [r] ∧ f.ReadIn db.dbPath r := by
    have hreaders : List.Forall₂ (TableFile.ReadIn · db.dbPath ·) [f] (db.openReaders 1) :=
      h.aligned.readers 1
    obtain ⟨r, rs, hread, hnil, hrs⟩ := List.forall₂_cons_left_iff.mp hreaders
    rw [List.forall₂_nil_left_iff.mp hnil] at hrs
    exact ⟨r, hrs, hread⟩
  have hstored : f.StoredIn db.dbPath w := h.aligned.stored 1 f List.mem_cons_self
  have hone : db.version.levels 1 = [f.info] := h.aligned.version 1
  have hrest : ∀ l, l ≠ 1 → db.version.levels l = [] := fun l hl => by
    rw [h.aligned.version, topLevels]
    by_cases h0 : l = 0
    · rw [h0, Function.update_self]
      rfl
    · rw [Function.update_of_ne h0, Function.update_of_ne hl]
      rfl
  have hless : Slice.less [0x61] [0x61] = false := by decide
  have hmin : Slice.less [0x61] f.info.minKey = false := by
    rw [f.minKey_eq, hf]
    exact hless
  have hmax : Slice.less f.info.maxKey [0x61] = false := by
    rw [f.maxKey_eq, hf]
    exact hless
  have horder : db.searchOrder [0x61] = [r] := by
    simp [DB.searchOrder, DB.sortedL0, DB.deepReaders, hone, hr, hmin, hmax, hrest 0 (by decide),
      hrest 2 (by decide), hrest 3 (by decide), hrest 4 (by decide), hrest 5 (by decide)]
  have htells : r.tells w [0x61] = some (some [x]) := by
    rw [TableFile.tells_eq hread hstored, TableFile.layer, hf]
    rfl
  rw [DB.seen, answering, spared_of_no_failure (by simp) fun r _ => ⟨_, _, reads_tells r w _⟩,
    horder, h.memtable, view_overlay]
  rw [MemTable.layer_empty, List.map_singleton, view, stack, overlay, htells]
  rfl

/-- Nothing is in the database, and the next number is one. -/
def unused (w : World) (db : DB) : Bool := decide (db.version.nextFileNumber = 1 ∧
  (∀ l, db.version.levels l = [] ∧ (db.openReaders l).isEmpty = true) ∧
  db.memtable.table.isEmpty = true ∧ db.memtable.approxBytes = 0 ∧ db.closed = false ∧
  db.options = roundOptions ∧ db.wal = some ⟨some ⟨walPath db.dbPath, []⟩, walPath db.dbPath⟩ ∧
  w.bytes (walPath db.dbPath) = some [])

theorem rounding_of_unused (h : unused w db = true) : Rounding {} [] [] 1 w db := by
  obtain ⟨hnumber, hlevels, htable, hbytes, hopen, hoptions, hlog, hfile⟩ := of_decide_eq_true h
  have hnone : ∀ l, topLevels [] [] l = [] := fun l =>
    List.eq_nil_iff_forall_not_mem.mpr fun f hf => absurd (mem_topLevels hf) List.not_mem_nil
  refine ⟨⟨fun l => ?_, fun l => ?_, fun l f hf => ?_⟩, fun f hf => absurd hf List.not_mem_nil,
    hnumber, ?_, hopen, hoptions, hlog, fun _ => hfile⟩
  · rw [hnone, (hlevels l).1]
    rfl
  · rw [hnone, List.isEmpty_iff.mp (hlevels l).2]
    exact List.Forall₂.nil
  · exact absurd (mem_topLevels hf) List.not_mem_nil
  · have hempty := Std.ExtTreeMap.isEmpty_iff.mp htable
    cases hm : db.memtable with
    | mk table approxBytes =>
        rw [hm] at hempty hbytes
        obtain rfl : table = ∅ := hempty
        obtain rfl : approxBytes = 0 := hbytes
        rfl

/-- An execution that opens an unused database. -/
def opensUnused : Outcome World (Status × Option DB) → Bool
  | .returned (s, some db) w _ _ => decide (s = .OK) && unused w db
  | _ => false

theorem rounding_start : ∃ w db t, Step Env.calm Free [0x64] ⟨⟨false, ∅⟩, none⟩
    (.returned (.reopen roundOptions) false .OK) t ⟨w, some db⟩ ∧ Rounding {} [] [] 1 w db := by
  have hopens : opensUnused (Op.prog 2 [0x64] (.reopen roundOptions) none ⟨false, ∅⟩ []) = true := by
    decide +kernel
  cases hrun : Op.prog 2 [0x64] (.reopen roundOptions) none ⟨false, ∅⟩ [] with
  | returned r w rest t =>
      obtain ⟨s, db?⟩ := r
      rw [hrun] at hopens
      cases db? with
      | none => cases hopens
      | some db =>
          obtain ⟨hs, hunused⟩ := (Bool.and_eq_true ..).mp hopens
          obtain rfl := of_decide_eq_true hs
          exact ⟨w, db, t, .returned (Env.admits_nil _) trivial hrun, rounding_of_unused hunused⟩
  | crashed | running | impossible =>
      rw [hrun] at hopens
      cases hopens

end Round

end ClomDB
