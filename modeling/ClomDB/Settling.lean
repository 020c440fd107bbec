import ClomDB.BatchBytes
import ClomDB.Created
import ClomDB.FlushPolicy

/-!
# A flush settles the tree

Every compaction moves the tables of a level down, so fifteen of them empty the
levels that can be chosen at most. A flush without a failing call ends with an
empty memtable, an empty log and no level to compact, whatever the size targets
are and whether or not they wrap.

## Implementation notes

The filter of a table is built in `size_t` arithmetic. Where the number of bits
for the keys of one table wraps to less than eight bits under the modulus the
filter has no bit, and `Build` divides by zero.
-/

namespace ClomDB

open FaultProgram FileSystem FileSystem.World SSTable DB Coding

/-- The operations of a batch were issued with `Put` and `Delete`. -/
def Op.Issued : Op → Prop
  | .write _ batch => ∃ ops, (∀ op ∈ ops, BatchOp.Short op) ∧ batch = WriteBatch.ofOps ops
  | _ => True

def Event.Issued : Event → Prop
  | .returned op _ _ => op.Issued
  | .crashed op => op.Issued
  | .killed => True

/-- The number of entries in the memtable and in the tables. -/
def DB.entryCount (db : DB) : Nat :=
  ((List.finRange kMaxLevels).map fun l =>
    ((db.openReaders l).map fun r => r.index.length).sum).sum + db.memtable.flushEntries.length

/-- A flush without a failing call ends, after at most fifteen compactions of the
levels 0 to 4, with nothing in the memtable, in the log or for a compaction to do. -/
structure Settles (w : World) (db : DB) (b : Nat) : Prop where
  ends : ∀ fuel, 15 < fuel → wp Env.calm (db.flush fuel) (fun r w' _ => r.1.ok = true ∧
    r.2.memtable.empty = true ∧ w'.bytes (walPath r.2.dbPath) = some [] ∧
    r.2.needsCompactionLocked = none) (fun _ _ => False) w b
  upper : ∀ (db' : DB) l, db'.needsCompactionLocked = some l → l.val ≤ 4

section Settling

variable {c? : Option Content} {tree disk : Tree} {d : Path} {w : World} {db : DB} {b : Nat}
  {es : List Event} {t : Nat} {m : Machine}

theorem Op.Issued.filled {op : Op} (h : op.Issued) : op.Filled := by
  cases op with
  | write opts batch =>
      obtain ⟨ops, hshort, rfl⟩ := h
      intro hne hnil
      rw [WriteBatch.ofOps_rep, WriteBatch.decodeOps_encode hshort] at hnil
      subst hnil
      cases hne
  | _ => trivial

theorem Event.Issued.filled {e : Event} (h : e.Issued) : e.Filled := by
  cases e with
  | returned op accepting s => exact Op.Issued.filled h
  | crashed op => exact Op.Issued.filled h
  | killed => trivial

/-- The index of a reader has an entry for each of its table. -/
theorem sum_index_length {files : List TableFile} {readers : List SSTableReader}
    (h : List.Forall₂ (fun f r => f.table.ReadBy (sstablePath d f.number) r) files readers) :
    (readers.map fun r => r.index.length).sum = (entriesOf files).length := by
  induction h with
  | nil => rfl
  | cons hr _ ih =>
      rw [List.map_cons, List.sum_cons, ih, entriesOf_cons, List.length_append, hr.index,
        List.length_map, layout_length]

theorem InvOn.entryCount (h : InvOn c? tree disk w db b) :
    db.entryCount = tree.size + db.memtable.flushEntries.length := by
  have hlevel : ∀ l, ((db.openReaders l).map fun r => r.index.length).sum =
      (entriesOf (tree.levels l)).length := fun l => sum_index_length (h.holds.readers l)
  rw [DB.entryCount, Tree.size]
  simp only [hlevel]

/-- Where the number of filter bits does not wrap every filter can be built. -/
theorem not_filterFailsWithin {n : Nat} (hbits : 0 ≤ db.options.bloomBitsPerKey)
    (hn : n * db.options.bloomBitsPerKey + 7 < 2 ^ 64) : ¬db.FilterFailsWithin n := by
  rintro ⟨keys, hle, hnone⟩
  have hkeys : (keys.length : Int) * db.options.bloomBitsPerKey ≤ n * db.options.bloomBitsPerKey :=
    Int.mul_le_mul_of_nonneg_right (by omega) hbits
  obtain ⟨filter, hfilter⟩ := @BloomFilter.exists_build keys _ hbits (by omega)
  rw [hnone] at hfilter
  cases hfilter

theorem needsCompactionLocked_le {l : Fin kMaxLevels} (h : db.needsCompactionLocked = some l) :
    l.val ≤ 4 := by
  obtain ⟨l', hl⟩ := needsCompactionLocked_next h
  have hlast : l'.val < 6 := l'.isLt
  omega

/-- A flush settles a database whose log holds nothing that the memtable does not. -/
theorem InvOn.settles (h : InvOn c? tree disk w db b) (htidy : Tidy w db)
    (htrigger : 1 ≤ db.options.l0CompactionTrigger) (hbits : 0 ≤ db.options.bloomBitsPerKey)
    (hn : db.entryCount * db.options.bloomBitsPerKey + 7 < 2 ^ 64) : Settles w db b := by
  refine ⟨fun fuel hfuel => ?_, fun db' l => needsCompactionLocked_le⟩
  refine wp_flush trivial h (Or.inr ⟨htrigger, hfuel⟩) (fun hc => ?_)
    fun s db' w' b' tree' disk' _ h' htended hemptied => ?_
  · rw [h.entryCount] at hn
    exact absurd (hc.resolve_left id) (not_filterFailsWithin hbits hn)
  · obtain ⟨hok, hempty, hnone⟩ := hemptied.resolve_right id
    obtain ⟨-, -, -, htidied⟩ := htended.ok.resolve_right id
    exact ⟨hok, hempty, htidied htidy (Or.inl hempty), hnone⟩

/-- The events of an execution are those of its sections. -/
theorem events_of_execute {P : Op → Prop} {Q : Event → Prop}
    (hreturned : ∀ op accepting s, P op → Q (.returned op accepting s))
    (hcrashed : ∀ op, P op → Q (.crashed op)) {fuel : Nat} {ops : List (Op × List Fault)}
    {m₀ : Machine} (hops : ∀ p ∈ ops, P p.1) (h : m₀.execute fuel d ops = some (es, t, m)) :
    ∀ e ∈ es, Q e := by
  induction ops generalizing m₀ es t with
  | nil =>
      cases h
      exact fun e he => absurd he List.not_mem_nil
  | cons p ops ih =>
      obtain ⟨hp, hops⟩ := List.forall_mem_cons.mp hops
      simp only [Machine.execute, Option.bind_eq_bind, Option.bind_eq_some_iff, Option.pure_def,
        Option.some.injEq, Prod.mk.injEq] at h
      obtain ⟨⟨e, t₁, m₁⟩, hfirst, ⟨es', t', m'⟩, hrest, rfl, rfl, rfl⟩ := h
      refine List.forall_mem_cons.mpr ⟨?_, ih hops hrest⟩
      rw [Machine.perform] at hfirst
      split at hfirst
      · cases hfirst
        exact hreturned _ _ _ hp
      · cases hfirst
        exact hcrashed _ hp
      · cases hfirst

theorem issued_of_execute {fuel : Nat} {ops : List (Op × List Fault)} {m₀ : Machine}
    (hops : ∀ p ∈ ops, p.1.Issued) (h : m₀.execute fuel d ops = some (es, t, m)) :
    ∀ e ∈ es, e.Issued :=
  events_of_execute (P := Op.Issued) (fun _ _ _ => id) (fun _ => id) hops h

end Settling

section Overflow

variable {d : Path} {w : World} {db : DB} {b : Nat} {options : Options} {entries : List SSTableEntry}

theorem flatMap_length_le {α : Type} {f : α → Bytes} {n : Nat} {xs : List α}
    (h : ∀ x ∈ xs, (f x).length ≤ n) : (xs.flatMap f).length ≤ xs.length * n := by
  rw [List.length_flatMap]
  have hsum := List.sum_le_card_nsmul (xs.map fun x => (f x).length) n fun y hy => by
    obtain ⟨x, hx, rfl⟩ := List.mem_map.mp hy
    exact h x hx
  simpa using hsum

/-- Entries without a value whose keys have at most eight bytes take up little space. -/
theorem sections_length_le (h : ∀ e ∈ entries, e.key.length ≤ 8 ∧ e.value = []) :
    (encodeEntries entries).length + (indexOf entries).length ≤ entries.length * 40 := by
  have hdata : (encodeEntries entries).length ≤ entries.length * 19 := by
    refine flatMap_length_le fun e he => ?_
    obtain ⟨hkey, hvalue⟩ := h e he
    have hlen := putVarint32_length_le (UInt32.ofNat e.key.length)
    have hempty : (putVarint32 (UInt32.ofNat e.value.length)).length ≤ 5 := putVarint32_length_le _
    rw [encodeEntry, List.length_cons, List.length_append, List.length_append]
    split
    · rw [List.length_append, hvalue] at *
      rw [List.length_nil] at *
      omega
    · rw [List.length_nil]
      omega
  have hindex : (indexOf entries).length ≤ entries.length * 21 := by
    rw [← layout_length 0 entries]
    refine flatMap_length_le fun p hp => ?_
    have hmem : p.1 ∈ entries.map SSTableEntry.key := by
      rw [← layout_keys 0 entries]
      exact List.mem_map_of_mem hp
    obtain ⟨e, he, hkey⟩ := List.mem_map.mp hmem
    have hlen := putVarint32_length_le (UInt32.ofNat p.1.length)
    have hle := (h e he).1
    rw [hkey] at hle
    rw [encodeIndexEntry, List.length_append, List.length_append, putFixed64_length]
    omega
  omega

/-- Without a bit for the filter `SSTableWriter::Write` divides by zero. -/
theorem wp_write_unfiltered {path : Path} {bits : Int} (hne : entries ≠ [])
    (hbuild : BloomFilter.build (entries.map SSTableEntry.key) bits = none)
    (hfit : (encodeEntries entries).length + (indexOf entries).length ≤ maxFileBytes) :
    wp Env.sure (SSTableWriter.write path entries bits) (fun _ _ _ => False) (fun _ _ => True) w b := by
  rw [SSTableWriter.write, if_neg hne]
  have hnew := put_onlyAt w path .empty
  have hempty : (w.put path .empty).bytes path = some [] := by simp
  refine wp_bind (wp_fopenWrite ?_ (fun hf => hf.elim) fun hc => hc.elim)
  simp only [layout_fst]
  refine wp_bind (wp_chunk hnew hempty (Or.inr ?_) (fun _ _ _ => trivial)
    (fun hf => hf.elim) fun _ => ?_)
  · rw [List.length_nil]
    omega
  refine wp_bind (wp_chunk hnew hempty (Or.inr ?_) (fun _ _ _ => trivial)
    (fun hf => hf.elim) fun _ => ?_)
  · rw [List.nil_append, ← indexOf]
    omega
  simp only [hbuild]
  exact wp_abort trivial

theorem wp_flush_unfiltered (hne : db.memtable.empty = false)
    (hbuild : BloomFilter.build (db.memtable.flushEntries.map SSTableEntry.key)
      db.options.bloomBitsPerKey = none)
    (hfit : (encodeEntries db.memtable.flushEntries).length +
      (indexOf db.memtable.flushEntries).length ≤ maxFileBytes) (fuel : Nat) :
    wp Env.sure (db.flush fuel) (fun _ _ _ => False) (fun _ _ => True) w b := by
  have hentries : db.memtable.flushEntries ≠ [] := fun h => by
    rw [MemTable.flushEntries_eq_nil.mp h] at hne
    cases hne
  rw [flush, flushMemTableLocked, if_neg (by rw [hne]; decide), buildTable]
  refine wp_bind (wp_bind (wp_bind (wp_tick fun b' _ => ?_)))
  exact wp_bind (wp_mono (wp_write_unfiltered hentries hbuild hfit) (fun _ _ _ h => h.elim)
    fun _ _ h => h)

/-- The first keys in the order of their numbers. -/
def numbers (n : Nat) : List Bytes := (List.range n).map fun i => putFixed64 (UInt64.ofNat i)

theorem numbers_nodup {n : Nat} (hn : n ≤ 2 ^ 64) : (numbers n).Nodup := by
  refine List.Nodup.map_on (fun i hi j hj h => ?_) List.nodup_range
  rw [List.mem_range] at hi hj
  have heq := congrArg (fun p => (decodeFixed64 p).toNat) h
  have hdecode : ∀ v, decodeFixed64 (putFixed64 v) = v := fun v => by
    have := decodeFixed64_putFixed64 v []
    rwa [List.append_nil] at this
  simp only [hdecode, UInt64.toNat_ofNat', Nat.mod_eq_of_lt (show i < 2 ^ 64 by omega),
    Nat.mod_eq_of_lt (show j < 2 ^ 64 by omega)] at heq
  exact heq

/-- A put without a value for each of the keys. -/
def numberPuts (n : Nat) : List BatchOp := (numbers n).map fun key => .put key []

theorem numberPuts_cases {n : Nat} {op : BatchOp} (h : op ∈ numberPuts n) :
    ∃ key, key.length = 8 ∧ op = .put key [] := by
  obtain ⟨key, hkey, rfl⟩ := List.mem_map.mp h
  obtain ⟨i, -, rfl⟩ := List.mem_map.mp hkey
  exact ⟨_, putFixed64_length _, rfl⟩

/-- The memtable after one batch with all of the keys. -/
theorem numberPuts_memtable {n : Nat} (hn : n ≤ 2 ^ 64) :
    ((numberPuts n).foldl MemTable.handler.call {}).flushEntries.length = n ∧
      ∀ e ∈ ((numberPuts n).foldl MemTable.handler.call {}).flushEntries,
        e.key.length ≤ 8 ∧ e.value = [] := by
  have hkeys : (numberPuts n).map BatchOp.key = numbers n := by
    rw [numberPuts, List.map_map]
    exact List.map_id _
  constructor
  · rw [MemTable.flushEntries_length, MemTable.size_foldl (by rw [hkeys]; exact numbers_nodup hn)
      (by simp), numberPuts, numbers, List.length_map, List.length_map, List.length_range]
    exact Nat.zero_add n
  · intro e he
    obtain ⟨p, hp, rfl⟩ := List.mem_map.mp he
    have hentry := MemTable.all_foldl (P := fun k mv => k.length ≤ 8 ∧ mv = ⟨false, []⟩)
      (fun op hop => ?_) (by simp) p.1 p.2
      (Std.ExtTreeMap.mem_toList_iff_getElem?_eq_some.mp hp)
    · rw [MemTable.flushEntry_key, hentry.2]
      exact ⟨hentry.1, rfl⟩
    · obtain ⟨key, hkey, rfl⟩ := numberPuts_cases hop
      exact ⟨Nat.le_of_eq hkey, rfl⟩

theorem numberPuts_short {n : Nat} {op : BatchOp} (h : op ∈ numberPuts n) : op.Short := by
  obtain ⟨key, hkey, rfl⟩ := numberPuts_cases h
  exact ⟨by omega, by simp⟩

theorem numberPuts_length (n : Nat) : (numberPuts n).length = n := by
  rw [numberPuts, numbers, List.length_map, List.length_map, List.length_range]

theorem numberPuts_rep_length_le (n : Nat) :
    (WriteBatch.ofOps (numberPuts n)).rep.length ≤ n * 19 := by
  have hle : ((numberPuts n).flatMap BatchOp.encode).length ≤ (numberPuts n).length * 19 := by
    refine flatMap_length_le fun op hop => ?_
    obtain ⟨key, hkey, rfl⟩ := numberPuts_cases hop
    have hlen := putVarint32_length_le (UInt32.ofNat key.length)
    have hempty : (putVarint32 (UInt32.ofNat 0)).length ≤ 5 := putVarint32_length_le _
    rw [BatchOp.encode, putLengthPrefixedSlice, putLengthPrefixedSlice, List.length_cons,
      List.length_append, List.length_append, List.length_append, List.length_nil]
    omega
  rwa [numberPuts_length, ← WriteBatch.ofOps_rep] at hle

/-- The flush of a memtable for whose keys the number of filter bits wraps is the end of
the process. -/
theorem overflow_unsettled {n : Nat} {bits : Int} (hpos : 0 < n) (hn : n * 40 + 8 ≤ maxFileBytes)
    (hbits : BloomFilter.filterBytes n bits * 8 = 0) :
    ∃ es t m db b, Run Env.calm Free [0x64] ⟨⟨false, ∅⟩, none⟩ es t m ∧ (∀ e ∈ es, e.Issued) ∧
      m.db = some db ∧ db.options = { bloomBitsPerKey := bits } ∧ ¬Settles m.world db b := by
  have hmax : maxFileBytes < 2 ^ 64 := by decide
  let batch := WriteBatch.ofOps (numberPuts n)
  have hrep : batch.rep.length ≤ n * 19 := numberPuts_rep_length_le n
  have hbytes : batch.rep.length < 2 ^ 64 := by omega
  have hshort : ∀ op ∈ numberPuts n, op.Short := fun _ => numberPuts_short
  have hne : numberPuts n ≠ [] := fun h => by
    have := numberPuts_length n
    rw [h, List.length_nil] at this
    omega
  obtain ⟨e, t, w, db, hopen, hcreated⟩ := Created.run { bloomBitsPerKey := bits } rfl [0x64]
  -- the batch goes to the log and to the memtable
  obtain ⟨⟨s, db'⟩, w', rest, t', hrun, hwrite⟩ := wp.returns fun b =>
    @wp_write_untriggered Env.sure w b db batch 1 {} id id
      (Or.inr (by decide)) (Or.inr (by rw [WriteAheadLog.frame_length]; omega))
      ⟨hcreated.closed, hcreated.log, by rw [hcreated.dbPath]; exact hcreated.file⟩
      (Or.inl (by rw [hcreated.options]))
  rcases hwrite with ⟨he, -⟩ | ⟨-, -, ⟨requested, rfl⟩, -⟩
  · rw [WriteBatch.ofOps_not_empty hne hbytes] at he
    cases he
  have hwrite : Op.prog 1 [0x64] (.write {} batch) (some db) w [] =
      .returned (s, some { db.applied batch with bgWorkRequested := requested }) w' rest t' := by
    simp only [Op.prog, bind, Prog.seq, hrun, Outcome.after]
    rfl
  have hstep : Step Env.calm Free [0x64] ⟨w, some db⟩
      (.returned (.write {} batch) (Machine.accepting ⟨w, some db⟩) s) t'
      ⟨w', some { db.applied batch with bgWorkRequested := requested }⟩ :=
    .returned (Env.admits_nil _) trivial hwrite
  -- the flush ends the process
  have hmem : (db.applied batch).memtable = (numberPuts n).foldl MemTable.handler.call {} := by
    rw [DB.applied, hcreated.memtable, WriteBatch.ofOps_rep, WriteBatch.decodeOps_encode hshort]
  obtain ⟨hlength, hsmall⟩ := numberPuts_memtable (show n ≤ 2 ^ 64 by omega)
  have hempty : (db.applied batch).memtable.empty = false := by
    rw [hmem]
    exact MemTable.empty_foldl hne {}
  have hsections := sections_length_le hsmall
  rw [hlength] at hsections
  rw [← hmem] at hlength hsections
  have hfit := Nat.le_trans hsections (show n * 40 ≤ maxFileBytes by omega)
  have hbuild : BloomFilter.build ((db.applied batch).memtable.flushEntries.map SSTableEntry.key)
      (db.applied batch).options.bloomBitsPerKey = none := by
    have hoptions : (db.applied batch).options.bloomBitsPerKey = bits :=
      congrArg Options.bloomBitsPerKey hcreated.options
    rw [hoptions, BloomFilter.build, List.length_map, hlength, hbits]
    refine if_pos ⟨rfl, fun h => ?_⟩
    rw [List.map_eq_nil_iff] at h
    rw [h, List.length_nil] at hlength
    omega
  obtain ⟨w'', t'', hcrash, -⟩ := wp.dies fun b =>
    @wp_flush_unfiltered w' { db.applied batch with bgWorkRequested := requested } b hempty hbuild
      hfit 16
  refine ⟨_, _, _, _, t'', hopen.step hstep, ?_, rfl, hcreated.options, fun hsettles => ?_⟩
  · intro e he
    rcases List.mem_append.mp he with he | he
    · rw [List.mem_singleton.mp he]
      exact trivial
    · rw [List.mem_singleton.mp he]
      exact ⟨numberPuts n, hshort, rfl⟩
  · have hend := hsettles.ends 16 (by decide) [] (Env.admits_nil _)
    rw [hcrash] at hend
    exact hend (Nat.le_refl t'')

end Overflow

end ClomDB
