import ClomDB.Operations

/-!
# Batches as bytes

A batch carries its bytes and the number of its operations. `SetData` replaces
the bytes only, and a record of the log has 32 bits for their length.

## Implementation notes

A write is compared with its replay where nothing fails and no flush follows,
on a log that is empty before it.
-/

namespace ClomDB

open FaultProgram FileSystem FileSystem.World LayeredMap DB WriteAheadLog Coding

namespace WriteBatch

/-- One batch does what another one does. -/
structure StandsFor (c b : WriteBatch) : Prop where
  iterate : ∀ {H : Type} (handler : Handler H) (h : H),
    c.iterate handler h = (.OK, (b.iterate handler h).2)
  count : c.count = b.count
  empty : c.empty = b.empty
  write : ∀ (fuel : Nat) (db : DB) (opts : WriteOptions),
    db.write fuel opts c = db.write fuel opts b

theorem ofOps_eta (ops : List BatchOp) {previous : WriteBatch}
    (h : previous.count = (ofOps ops).count) : previous.setData (ofOps ops).rep = ofOps ops := by
  rw [setData, h]

theorem iterate_ok_of_recorder {b : WriteBatch} (hb : (b.iterate recorder []).1 = .OK) {H : Type}
    (handler : Handler H) (h : H) : b.iterate handler h = (.OK, (b.iterate handler h).2) := by
  rw [iterate_eq handler b h, hb]

/-- `SetData` makes an equivalent batch exactly when the target held as many
operations before, and the bytes are those of short operations or walked to
their end for another reason. -/
theorem setData_standsFor_iff (ops : List BatchOp) (previous : WriteBatch) :
    (StandsFor (previous.setData (ofOps ops).rep) (ofOps ops) ↔
        previous.count = (ofOps ops).count ∧ ((ofOps ops).iterate recorder []).1 = .OK) ∧
      ((∀ op ∈ ops, op.Short) →
        (StandsFor (previous.setData (ofOps ops).rep) (ofOps ops) ↔
          previous.count = (ofOps ops).count)) := by
  have hiff : StandsFor (previous.setData (ofOps ops).rep) (ofOps ops) ↔
      previous.count = (ofOps ops).count ∧ ((ofOps ops).iterate recorder []).1 = .OK := by
    constructor
    · intro h
      have hcount : previous.count = (ofOps ops).count := h.count
      refine ⟨hcount, ?_⟩
      have hiterate := h.iterate recorder []
      rw [ofOps_eta ops hcount] at hiterate
      rw [hiterate]
    · rintro ⟨hcount, hok⟩
      rw [ofOps_eta ops hcount]
      exact ⟨fun handler h => iterate_ok_of_recorder hok handler h, rfl, rfl, fun _ _ _ => rfl⟩
  refine ⟨hiff, fun hops => ?_⟩
  rw [hiff, iterate_ofOps recorder [] hops]
  exact and_iff_left rfl

theorem setData_standsFor_iff_onePut :
    (StandsFor (setData {} (ofOps [.put [97] [120]]).rep) (ofOps [.put [97] [120]]) ↔
        (({} : WriteBatch).count = (ofOps [.put [97] [120]]).count)) :=
  (setData_standsFor_iff [.put [97] [120]] {}).2 (by simp [BatchOp.Short])

/-- A fresh batch that takes the bytes of a batch with one operation still counts none. -/
theorem fresh_setData_empty : ¬∀ (ops : List BatchOp) (previous : WriteBatch),
    StandsFor (previous.setData (ofOps ops).rep) (ofOps ops) := by
  intro h
  exact absurd (h [.put [97] [120]] {}).count (by decide)

theorem encode_length_pos (op : BatchOp) : 1 ≤ op.encode.length := by
  cases op <;> simp [BatchOp.encode]

theorem length_le_encode (ops : List BatchOp) :
    ops.length ≤ (ops.flatMap BatchOp.encode).length := by
  induction ops with
  | nil => exact Nat.le_refl 0
  | cons op ops ih =>
      have := encode_length_pos op
      rw [List.length_cons, List.flatMap_cons, List.length_append]
      omega

/-- The fields of a batch are shorter than the batch. -/
theorem short_of_length {ops : List BatchOp} (h : (ofOps ops).rep.length < 2 ^ 32) :
    ∀ op ∈ ops, op.Short := by
  intro op hop
  have hle : op.encode.length ≤ (ofOps ops).rep.length := by
    obtain ⟨as, bs, rfl⟩ := List.append_of_mem hop
    rw [ofOps_rep]
    simp only [List.flatMap_append, List.flatMap_cons, List.length_append]
    omega
  cases op with
  | put key value =>
      simp only [BatchOp.encode, putLengthPrefixedSlice, List.length_cons, List.length_append] at hle
      exact ⟨by omega, by omega⟩
  | delete key =>
      simp only [BatchOp.encode, putLengthPrefixedSlice, List.length_cons, List.length_append] at hle
      change key.length < 2 ^ 32
      omega

/-- A batch of some operations that is not too long is not empty. -/
theorem ofOps_not_empty {ops : List BatchOp} (hne : ops ≠ [])
    (h : (ofOps ops).rep.length < 2 ^ 64) : (ofOps ops).empty = false := by
  have hle := length_le_encode ops
  rw [← ofOps_rep] at hle
  have hpos := List.length_pos_iff.mpr hne
  rw [WriteBatch.empty, ofOps_count, beq_eq_false_iff_ne]
  intro hzero
  have hnat := congrArg UInt64.toNat hzero
  rw [UInt64.toNat_ofNat', Nat.mod_eq_of_lt (by omega), show (0 : UInt64).toNat = 0 from rfl] at hnat
  omega

end WriteBatch

open WriteBatch

/-- Operations leave a memtable with an entry. -/
theorem MemTable.foldl_ne_empty {ops : List BatchOp} (hne : ops ≠ []) (m : MemTable) :
    ops.foldl MemTable.handler.call m ≠ {} := by
  intro h
  have hempty := MemTable.empty_foldl hne m
  rw [h] at hempty
  cases hempty

theorem replayRecords_singleton (rep : Bytes) :
    replayRecords {} [rep] = (decodeOps rep).foldl MemTable.handler.call {} := by
  rw [replayRecords, List.foldl_cons, List.foldl_nil, iterate_eq]
  rfl

/-- Records without an operation leave no trace. -/
theorem replayRecords_silent {recs : List Bytes} (h : ∀ r ∈ recs, decodeOps r = []) :
    replayRecords {} recs = {} := by
  rw [replayRecords]
  induction recs with
  | nil => rfl
  | cons r recs ih =>
      rw [List.foldl_cons, iterate_eq, show (setData {} r).rep = r from rfl,
        h r List.mem_cons_self]
      exact ih fun r' hr' => h r' (List.mem_cons_of_mem r hr')

namespace DB

/-- Neither a flush nor a compaction follows the write of a batch. -/
def Untriggered (db : DB) (batch : WriteBatch) : Prop :=
  db.options.backgroundCompaction = true ∨
    (db.applied batch).memtable.approximateBytes < db.options.memtableFlushBytes ∧
      db.needsCompactionLocked = none

/-- The database is open, and its log holds no byte. -/
structure LogEmpty (w : World) (db : DB) : Prop where
  closed : db.closed = false
  log : db.LogOpen
  file : w.bytes (walPath db.dbPath) = some []

/-- An acknowledged write of some operations applies exactly these to the
memtable, and a replay of the log applies exactly these to an empty one. -/
def WritesExactly (w : World) (db : DB) (ops : List BatchOp) : Prop :=
  ∀ fuel opts fs s db' w' rest t, Env.calm.Admits fs →
    db.write fuel opts (ofOps ops) w fs = .returned (s, db') w' rest t → s.ok = true →
    db'.memtable = ops.foldl MemTable.handler.call db.memtable ∧
      ∀ fs' s' recs w'' rest' t', Env.calm.Admits fs' →
        replayAll (walPath db.dbPath) w' fs' = .returned (s', recs) w'' rest' t' →
        s' = .OK ∧ replayRecords {} recs = ops.foldl MemTable.handler.call {}

/-- The decision looks at the version and the options only. -/
theorem needsCompactionLocked_congr {db db' : DB} (hversion : db'.version = db.version)
    (hoptions : db'.options = db.options) :
    db'.needsCompactionLocked = db.needsCompactionLocked := by
  rw [needsCompactionLocked, needsCompactionLocked, hversion, hoptions]

section Write

variable {E : Env} {w : World} {b : Nat} {db : DB}

/-- A write that triggers nothing, where no call fails. -/
theorem wp_write_untriggered {batch : WriteBatch} (fuel : Nat) (opts : WriteOptions)
    (hfails : ¬E.fails) (hcrashes : ¬E.crashes) (hfuel : E.diverges ∨ 0 < fuel)
    (hfit : E.excludes ∨ (frame batch.rep).length ≤ maxFileBytes) (h : LogEmpty w db)
    (hquiet : Untriggered db batch) :
    wp E (db.write fuel opts batch) (fun r w' _ =>
      batch.empty = true ∧ r = (.OK, db) ∧ w' = w ∨
      batch.empty = false ∧ r.1.ok = (batch.iterate recorder []).1.ok ∧
        (∃ requested, r.2 = { db.applied batch with bgWorkRequested := requested }) ∧
        w'.bytes (walPath db.dbPath) = some (frame batch.rep)) (fun _ _ => False) w b := by
  rw [DB.write]
  refine wp_ite (fun he => wp_pure (Or.inl ⟨he, rfl, rfl⟩)) fun hne => ?_
  have hne' : batch.empty = false := by simpa using hne
  rw [if_neg (by rw [h.closed]; decide)]
  have hwal := h.log
  rw [DB.LogOpen] at hwal
  rw [hwal]
  have hsame : { db with wal := some ⟨some ⟨walPath db.dbPath, []⟩, walPath db.dbPath⟩ } = db := by
    rw [← hwal]
  refine wp_bind (wp_addRecord rfl (hfit.imp_right fun hle => ?_) (fun w' hw' _ => ?_)
    (fun hf => absurd hf hfails) fun hc => absurd hc hcrashes)
  · rw [h.file, Option.getD_some, List.length_nil, Nat.zero_add]
    exact hle
  have hfile : w'.bytes (walPath db.dbPath) = some (frame batch.rep) := by
    rw [hw'.bytes, h.file, Option.map_some, List.nil_append]
  simp only [Status.ok_OK, Bool.not_true, Bool.false_eq_true, if_false, hsame, applyBatchLocked_eq]
  cases hwell : (batch.iterate recorder []).1.ok with
  | false => exact wp_pure (Or.inr ⟨hne', hwell, ⟨db.bgWorkRequested, rfl⟩, hfile⟩)
  | true =>
      simp only [Bool.not_true, Bool.false_eq_true, if_false]
      refine wp_ite (fun _ => wp_pure (Or.inr ⟨hne', hwell, ⟨true, rfl⟩, hfile⟩)) fun hinline => ?_
      obtain ⟨hsmall, hsettled⟩ := hquiet.resolve_left hinline
      rw [maybeFlushLocked, if_neg (show ¬(db.applied batch).memtable.approximateBytes ≥
        (db.applied batch).options.memtableFlushBytes from UInt64.not_le.mpr hsmall)]
      cases fuel with
      | zero => exact wp_outOfFuel (hfuel.resolve_right (Nat.lt_irrefl 0))
      | succ fuel =>
          have hsame' : (db.applied batch).needsCompactionLocked = db.needsCompactionLocked :=
            needsCompactionLocked_congr rfl rfl
          rw [compactionLoop, hsame', hsettled]
          exact wp_pure (Or.inr ⟨hne', rfl, ⟨db.bgWorkRequested, rfl⟩, hfile⟩)

/-- A batch below the limit of the length field is written exactly. -/
theorem writesExactly_of_length {ops : List BatchOp} (h : LogEmpty w db)
    (hquiet : Untriggered db (ofOps ops)) (hlen : (ofOps ops).rep.length < 2 ^ 32) :
    WritesExactly w db ops := by
  have hdecode : decodeOps (ofOps ops).rep = ops := by
    rw [ofOps_rep]
    exact decodeOps_encode (short_of_length hlen)
  intro fuel opts fs s db' w' rest t hfs hrun hok
  have hwrite := (wp_write_untriggered (E := ⟨False, False, True, True⟩) (b := t) fuel opts
    id id (Or.inl trivial) (Or.inl trivial) h hquiet).of_returned hfs hrun
    (Nat.le_refl t)
  have hreplay : ∀ data, w'.bytes (walPath db.dbPath) = some data →
      replayRecords {} (records data) = ops.foldl MemTable.handler.call {} →
      ∀ fs' s' recs w'' rest' t', Env.calm.Admits fs' →
        replayAll (walPath db.dbPath) w' fs' = .returned (s', recs) w'' rest' t' →
        s' = .OK ∧ replayRecords {} recs = ops.foldl MemTable.handler.call {} := by
    intro data hdata heq fs' s' recs w'' rest' t' hfs' hrun'
    obtain ⟨hrecs, -, -⟩ := (observes_replayAll (E := Env.calm) hdata t').of_returned hfs' hrun'
      (Nat.le_refl t')
    obtain ⟨rfl, rfl⟩ := Prod.mk.inj (hrecs.resolve_right id)
    exact ⟨rfl, heq⟩
  rcases hwrite with ⟨he, hr, rfl⟩ | ⟨-, -, ⟨_, rfl⟩, hfile⟩
  · have hops : ops = [] := by
      by_contra hne
      rw [ofOps_not_empty hne (by omega)] at he
      cases he
    subst hops
    obtain ⟨-, rfl⟩ := Prod.mk.inj hr
    exact ⟨rfl, hreplay [] h.file (by rw [records_nil]; rfl)⟩
  · refine ⟨?_, hreplay _ hfile ?_⟩
    · rw [DB.applied, hdecode]
    · have hrecords : records ([(ofOps ops).rep].flatMap frame ++ []) =
        [(ofOps ops).rep] ++ records [] := records_frames (by simpa using hlen) []
      simp only [List.flatMap_cons, List.flatMap_nil, List.append_nil, records_nil] at hrecords
      rw [hrecords, replayRecords_singleton, hdecode]

/-- A log whose records hold no operation is not the batch. -/
theorem not_writesExactly {ops : List BatchOp} (h : LogEmpty w db)
    (hquiet : Untriggered db (ofOps ops)) (hops : ops ≠ [])
    (hfit : (ofOps ops).rep.length + 8 ≤ maxFileBytes)
    (hok : ((ofOps ops).iterate recorder []).1.ok = true)
    (hsilent : ∀ r ∈ records (frame (ofOps ops).rep), decodeOps r = []) :
    ¬WritesExactly w db ops := by
  intro hexact
  have hmax : maxFileBytes < 2 ^ 64 := by decide
  have hframe : (frame (ofOps ops).rep).length ≤ maxFileBytes := by rw [frame_length]; omega
  obtain ⟨⟨s, db'⟩, w', rest, t, hrun, hwrite⟩ := wp.returns fun b =>
    wp_write_untriggered (E := Env.sure) (b := b) 1 {} id id
      (Or.inr (by decide)) (Or.inr hframe) h hquiet
  rcases hwrite with ⟨he, -⟩ | ⟨-, hstatus, -, hfile⟩
  · rw [ofOps_not_empty hops (by omega)] at he
    cases he
  obtain ⟨⟨s', recs⟩, w'', rest', t', hrun', hrecs⟩ := wp.returns fun b =>
    wp_mono (observes_replayAll (E := Env.sure) hfile b) (fun _ _ _ hr => hr.1) fun _ _ hc => hc.1
  obtain ⟨-, heq⟩ := (hexact 1 {} [] s db' w' rest t (Env.admits_nil _) hrun
    (hstatus.trans hok)).2 [] s' recs w'' rest' t' (Env.admits_nil _) hrun'
  obtain ⟨-, rfl⟩ := Prod.mk.inj (hrecs.resolve_right id)
  rw [replayRecords_silent hsilent] at heq
  exact MemTable.foldl_ne_empty hops {} heq.symm

/-- A record whose length is cut is rejected, unless the checksum of the part
that is left is the checksum of the whole. -/
theorem records_cut {data : Bytes} (hlen : 2 ^ 32 ≤ data.length)
    (hcrc : CRC32C.value (putFixed32 (UInt32.ofNat data.length) ++ data.take (data.length % 2 ^ 32)) ≠
      CRC32C.value (putFixed32 (UInt32.ofNat data.length) ++ data)) : records (frame data) = [] := by
  obtain ⟨hstored, hfield, hpayload⟩ := frame_header data []
  rw [List.append_nil] at hstored hfield hpayload
  have hnat : (UInt32.ofNat data.length).toNat = data.length % 2 ^ 32 := UInt32.toNat_ofNat'
  have hcut : data.length % 2 ^ 32 ≤ data.length := Nat.mod_le _ _
  rw [records_eq, parseFrame, if_neg (by rw [frame_length]; omega)]
  simp only [hstored, hfield, hpayload, hnat, CRC32C.unmask_mask, List.append_nil]
  rw [if_neg (by rw [List.length_take]; omega), if_pos hcrc]

/-- An acknowledged batch is in memory and in the log as it was built exactly
when it fits the length field of the record, the coincidence of two checksums
left aside. -/
theorem writesExactly_iff {ops : List BatchOp} (h : LogEmpty w db)
    (hquiet : Untriggered db (ofOps ops)) :
    ((ofOps ops).rep.length < 2 ^ 32 → WritesExactly w db ops) ∧
      ((ofOps ops).rep.length + 8 ≤ maxFileBytes →
        ((ofOps ops).iterate recorder []).1.ok = true →
        CRC32C.value (putFixed32 (UInt32.ofNat (ofOps ops).rep.length) ++
            (ofOps ops).rep.take ((ofOps ops).rep.length % 2 ^ 32)) ≠
          CRC32C.value (putFixed32 (UInt32.ofNat (ofOps ops).rep.length) ++ (ofOps ops).rep) →
        WritesExactly w db ops → (ofOps ops).rep.length < 2 ^ 32) := by
  refine ⟨writesExactly_of_length h hquiet, fun hfit hok hcrc hexact => ?_⟩
  by_contra hlong
  have hlong' := Nat.not_lt.mp hlong
  have hops : ops ≠ [] := by
    rintro rfl
    rw [ofOps_rep] at hlong'
    exact absurd hlong' (by decide)
  refine not_writesExactly h hquiet hops hfit hok ?_ hexact
  rw [records_cut hlong' hcrc]
  exact fun r hr => absurd hr List.not_mem_nil

/-- An open database on an empty log. -/
def freshlyOpened : DB :=
  { dbPath := [100], options := {}, wal := some ⟨some ⟨walPath [100], []⟩, walPath [100]⟩ }

def freshLog : World := (⟨true, ∅⟩ : World).put (walPath [100]) .empty

theorem freshlyOpened_logEmpty : LogEmpty freshLog freshlyOpened :=
  ⟨rfl, rfl, by decide +kernel⟩

theorem writesExactly_iff_onePut :
    ((ofOps [.put [97] [120]]).rep.length < 2 ^ 32 →
        WritesExactly freshLog freshlyOpened [.put [97] [120]]) ∧
      ((ofOps [.put [97] [120]]).rep.length + 8 ≤ maxFileBytes →
        ((ofOps [.put [97] [120]]).iterate recorder []).1.ok = true →
        CRC32C.value (putFixed32 (UInt32.ofNat (ofOps [.put [97] [120]]).rep.length) ++
            (ofOps [.put [97] [120]]).rep.take ((ofOps [.put [97] [120]]).rep.length % 2 ^ 32)) ≠
          CRC32C.value (putFixed32 (UInt32.ofNat (ofOps [.put [97] [120]]).rep.length) ++
            (ofOps [.put [97] [120]]).rep) →
        WritesExactly freshLog freshlyOpened [.put [97] [120]] →
        (ofOps [.put [97] [120]]).rep.length < 2 ^ 32) :=
  writesExactly_iff freshlyOpened_logEmpty (Or.inl rfl)

/-- Two puts of one value of half of `2 ^ 32` bytes: every field is short, the
batch is not. -/
def twoHalves (value : Bytes) : List BatchOp := [.put [97] value, .put [98] value]

section Halves

variable {value tail : Bytes}

theorem twoHalves_short (hlen : value.length = 2 ^ 31) : ∀ op ∈ twoHalves value, op.Short := by
  intro op hop
  have hshort : value.length < 2 ^ 32 := by omega
  rcases List.mem_cons.mp hop with rfl | hop
  · exact ⟨by simp, hshort⟩
  · rw [List.mem_singleton.mp hop]
    exact ⟨by simp, hshort⟩

/-- The bytes in front of a value of `2 ^ 31` bytes. -/
theorem encode_half (hlen : value.length = 2 ^ 31) (key : UInt8) :
    BatchOp.encode (.put [key] value) = [1, 1, key, 0x80, 0x80, 0x80, 0x80, 8] ++ value := by
  have hkey : putVarint32 (UInt32.ofNat 1) = [1] := by decide
  have hvalue : putVarint32 (UInt32.ofNat (2 ^ 31)) = [0x80, 0x80, 0x80, 0x80, 8] := by decide
  rw [BatchOp.encode, putLengthPrefixedSlice, putLengthPrefixedSlice, hlen,
    show [key].length = 1 from rfl, hkey, hvalue]
  rfl

theorem twoHalves_length (hlen : value.length = 2 ^ 31) :
    (ofOps (twoHalves value)).rep.length = 2 ^ 32 + 16 := by
  rw [ofOps_rep, twoHalves, List.flatMap_cons, List.flatMap_cons, List.flatMap_nil,
    encode_half hlen, encode_half hlen]
  simp only [List.length_append, List.length_cons, List.length_nil, hlen]
  omega

/-- The length of the batch wraps to 16, and neither these 16 bytes nor the
zeros behind them make an operation. -/
theorem twoHalves_silent (hlen : value.length = 2 ^ 31) (hzeros : value = List.replicate 16 0 ++ tail) :
    ∀ r ∈ records (frame (ofOps (twoHalves value)).rep), decodeOps r = [] := by
  have hrep : (ofOps (twoHalves value)).rep =
      [1, 1, 97, 0x80, 0x80, 0x80, 0x80, 8, 0, 0, 0, 0, 0, 0, 0, 0] ++
        ([0, 0, 0, 0, 0, 0, 0, 0] ++ (tail ++ BatchOp.encode (.put [98] value))) := by
    rw [ofOps_rep, twoHalves, List.flatMap_cons, List.flatMap_cons, List.flatMap_nil,
      encode_half hlen, List.append_nil]
    generalize BatchOp.encode (.put [98] value) = later
    rw [hzeros]
    rfl
  obtain ⟨hstored, hfield, hpayload⟩ := frame_header (ofOps (twoHalves value)).rep []
  rw [List.append_nil] at hstored hfield hpayload
  rw [List.append_nil] at hpayload
  have hsize : (UInt32.ofNat (ofOps (twoHalves value)).rep.length).toNat = 16 := by
    rw [twoHalves_length hlen]
    decide
  have hdrop : (frame (ofOps (twoHalves value)).rep).drop (8 + 16) =
      [0, 0, 0, 0, 0, 0, 0, 0] ++ (tail ++ BatchOp.encode (.put [98] value)) := by
    rw [← List.drop_drop, hpayload, hrep]
    exact List.drop_left' rfl
  have hrest : ∀ s : Bytes, records ([0, 0, 0, 0, 0, 0, 0, 0] ++ s) = [] := by
    intro s
    have hcrc : decodeFixed32 ([0, 0, 0, 0, 0, 0, 0, 0] ++ s) = 0 := rfl
    have hsize : decodeFixed32 (([0, 0, 0, 0, 0, 0, 0, 0] ++ s).drop 4) = 0 := rfl
    have hbad : CRC32C.value (putFixed32 0 ++ []) ≠ CRC32C.unmask 0 := by decide +kernel
    rw [records_eq, parseFrame, if_neg (by simp)]
    simp only [hsize, hcrc, UInt32.toNat_zero, List.take_zero]
    rw [if_neg (by simp), if_pos hbad]
  have htake : (ofOps (twoHalves value)).rep.take 16 =
      [1, 1, 97, 0x80, 0x80, 0x80, 0x80, 8, 0, 0, 0, 0, 0, 0, 0, 0] := by
    rw [hrep]
    exact List.take_left' rfl
  have hcut : decodeOps [1, 1, 97, 0x80, 0x80, 0x80, 0x80, 8, 0, 0, 0, 0, 0, 0, 0, 0] = [] := by
    decide +kernel
  rw [records_eq, parseFrame, if_neg (by rw [frame_length]; omega)]
  simp only [hfield, hsize, hpayload, htake, hdrop]
  rw [if_neg (by decide)]
  intro r hr
  split at hr
  next => exact absurd hr List.not_mem_nil
  next buf rest hsome =>
    split at hsome
    next => cases hsome
    next =>
      obtain ⟨rfl, rfl⟩ := Prod.mk.inj (Option.some.inj hsome)
      rw [hrest, List.mem_singleton] at hr
      rw [hr]
      exact hcut

/-- The write is acknowledged, and the log does not hold the batch. -/
theorem twoHalves_lost (hlen : value.length = 2 ^ 31)
    (hzeros : value = List.replicate 16 0 ++ tail) :
    ¬WritesExactly freshLog freshlyOpened (twoHalves value) := by
  refine not_writesExactly freshlyOpened_logEmpty (Or.inl rfl) (List.cons_ne_nil _ _) ?_ ?_
    (twoHalves_silent hlen hzeros)
  · rw [twoHalves_length hlen]
    decide
  · rw [iterate_ofOps recorder [] (twoHalves_short hlen)]
    rfl

end Halves

/-- A batch of two values of `2 ^ 31` zero bytes is acknowledged and not replayed. -/
theorem zeros_lost : ¬∀ (w : World) (db : DB) (ops : List BatchOp), LogEmpty w db →
    Untriggered db (ofOps ops) → WritesExactly w db ops := by
  intro h
  have hzeros : List.replicate (2 ^ 31) (0 : UInt8) =
      List.replicate 16 0 ++ List.replicate (2 ^ 31 - 16) 0 := by
    rw [List.replicate_append_replicate, show 16 + (2 ^ 31 - 16) = 2 ^ 31 by omega]
  exact twoHalves_lost List.length_replicate hzeros
    (h freshLog freshlyOpened _ freshlyOpened_logEmpty (Or.inl rfl))

end Write

end DB

end ClomDB
