import ClomDB.CRC32C
import ClomDB.Coding
import ClomDB.FileSystem

/-!
# The write-ahead log

`wal.h` and `wal.cpp`: framed records appended to one file, and the replay
that reads them back up to the first incomplete or corrupt one.

## Implementation notes

The callback of `ReplayAll` makes no call of its own, so the replay returns
the records it is called with. The stream of a log object that is destroyed
without `Close` is the stream of a process that ends.
-/

namespace ClomDB

open FaultProgram FileSystem FileSystem.World Coding

structure WriteAheadLog where
  file : Option Stream := none
  path : Path := []
  deriving DecidableEq

/-- `WriteAheadLog::Open` on a fresh object. -/
def WriteAheadLog.open (path : Path) : Prog World (Status × WriteAheadLog) := do
  match ← fopenAppend path with
  | .error _ => return (.ioError [.bytes path, .lit ": ", .strerror], ⟨none, path⟩)
  | .ok f => return (.OK, ⟨some f, path⟩)

namespace WriteAheadLog

/-- The record `AddRecord` writes for a payload. -/
def frame (data : Bytes) : Bytes :=
  let framed := putFixed32 (UInt32.ofNat data.length) ++ data
  putFixed32 (CRC32C.mask (CRC32C.value framed)) ++ framed

def sync (log : WriteAheadLog) : Prog World (Status × WriteAheadLog) := do
  match log.file with
  | none => return (.ioError [.lit "WAL not open"], log)
  | some f =>
    let (flushed, f) ← fflush f
    let log := { log with file := some f }
    if !flushed then
      return (.ioError [.bytes log.path, .lit ": fflush failed: ", .strerror], log)
    else
      let synced ← fsync f
      if !synced then
        return (.ioError [.bytes log.path, .lit ": fsync failed: ", .strerror], log)
      else
        return (.OK, log)

def addRecord (log : WriteAheadLog) (data : Bytes) (sync : Bool) :
    Prog World (Status × WriteAheadLog) := do
  match log.file with
  | none => return (.ioError [.lit "WAL not open"], log)
  | some f =>
    let (written, f) ← fwrite f (frame data)
    let log := { log with file := some f }
    if !written then
      return (.ioError [.bytes log.path, .lit ": short write to WAL"], log)
    else if sync then
      log.sync
    else
      let (flushed, f) ← fflush f
      let log := { log with file := some f }
      if !flushed then
        return (.ioError [.bytes log.path, .lit ": fflush failed: ", .strerror], log)
      else
        return (.OK, log)

def close (log : WriteAheadLog) : Prog World (Status × WriteAheadLog) := do
  match log.file with
  | none => return (.OK, log)
  | some _ =>
    let (s, log) ← log.sync
    match log.file with
    | none => return (s, log)
    | some f =>
      let closed ← fclose f
      let s := if !closed ∧ s.ok then
        .ioError [.bytes log.path, .lit ": fclose failed: ", .strerror] else s
      return (s, { log with file := none })

/-- The payload read of `ReplayAll`; nothing is read for the empty payload. -/
def readPayload (content : Bytes) (pos : Nat) (length : UInt32) : Prog World Bytes :=
  if 0 < length then fread content pos length.toNat else pure []

/-- The loop of `ReplayAll`. Every round but the last consumes a header, so one
more than the length of the file is fuel enough. -/
def replayLoop (content : Bytes) : Nat → Nat → Prog World (List Bytes)
  | 0, _ => Prog.outOfFuel
  | fuel + 1, pos => do
      let header ← fread content pos 8
      if header.length < 8 then
        return []
      else
        let storedCrc := CRC32C.unmask (decodeFixed32 header)
        let length := decodeFixed32 (header.drop 4)
        let buf ← readPayload content (pos + 8) length
        if buf.length < length.toNat then
          return []
        else if CRC32C.value (putFixed32 length ++ buf) ≠ storedCrc then
          return []
        else
          let rest ← replayLoop content fuel (pos + 8 + length.toNat)
          return buf :: rest

/-- `WriteAheadLog::ReplayAll`, with the records the callback is called with. -/
def replayAll (path : Path) : Prog World (Status × List Bytes) := do
  match ← fopenRead path with
  | .error errno =>
    if errno = noEntry then return (.OK, [])
    else return (.ioError [.bytes path, .lit ": ", .strerror], [])
  | .ok content =>
    let records ← replayLoop content (content.length + 1) 0
    return (.OK, records)

/-- The first record of some bytes, and what follows it. -/
def parseFrame (data : Bytes) : Option (Bytes × Bytes) :=
  if data.length < 8 then none
  else
    let length := decodeFixed32 (data.drop 4)
    let buf := (data.drop 8).take length.toNat
    if buf.length < length.toNat then none
    else if CRC32C.value (putFixed32 length ++ buf) ≠ CRC32C.unmask (decodeFixed32 data) then none
    else some (buf, data.drop (8 + length.toNat))

def recordsLoop : Nat → Bytes → List Bytes
  | 0, _ => []
  | fuel + 1, data =>
      match parseFrame data with
      | none => []
      | some (buf, rest) => buf :: recordsLoop fuel rest

/-- The records a replay of a file delivers when no read fails. -/
def records (data : Bytes) : List Bytes := recordsLoop (data.length + 1) data

theorem parseFrame_length {data buf rest : Bytes} (h : parseFrame data = some (buf, rest)) :
    rest.length + 8 ≤ data.length := by
  simp only [parseFrame] at h
  split at h
  next => cases h
  next hlen =>
    split at h
    next => cases h
    next =>
      split at h
      next => cases h
      next =>
        obtain ⟨-, rfl⟩ := Prod.mk.inj (Option.some.inj h)
        rw [List.length_drop]
        omega

/-- More fuel than bytes is enough. -/
theorem recordsLoop_eq (fuel fuel' : Nat) (data : Bytes) (h : data.length < fuel)
    (h' : data.length < fuel') : recordsLoop fuel data = recordsLoop fuel' data := by
  induction fuel generalizing fuel' data with
  | zero => omega
  | succ fuel ih =>
      obtain ⟨fuel', rfl⟩ : ∃ m, fuel' = m + 1 := ⟨fuel' - 1, by omega⟩
      simp only [recordsLoop]
      cases hp : parseFrame data with
      | none => rfl
      | some r =>
          obtain ⟨buf, rest⟩ := r
          have := parseFrame_length hp
          simp only [ih fuel' rest (by omega) (by omega)]

theorem records_eq (data : Bytes) : records data =
    match parseFrame data with
    | none => []
    | some (buf, rest) => buf :: records rest := by
  rw [records, recordsLoop]
  cases hp : parseFrame data with
  | none => rfl
  | some r =>
      obtain ⟨buf, rest⟩ := r
      have := parseFrame_length hp
      simp only [records, recordsLoop_eq data.length (rest.length + 1) rest (by omega) (by omega)]

@[simp] theorem records_nil : records [] = [] := by
  rw [records_eq, parseFrame, if_pos (by simp)]

@[simp] theorem frame_length (data : Bytes) : (frame data).length = 8 + data.length := by
  simp only [frame, List.length_append, putFixed32_length]
  omega

/-- The header of a record. -/
theorem frame_header (data rest : Bytes) :
    decodeFixed32 (frame data ++ rest) =
        CRC32C.mask (CRC32C.value (putFixed32 (UInt32.ofNat data.length) ++ data)) ∧
      decodeFixed32 ((frame data ++ rest).drop 4) = UInt32.ofNat data.length ∧
      (frame data ++ rest).drop 8 = data ++ rest := by
  have hdrop : ∀ (v : UInt32) (s : Bytes) (n : Nat),
      (putFixed32 v ++ s).drop (4 + n) = s.drop n := fun v s n => by
    rw [← List.drop_drop, List.drop_left' (putFixed32_length v)]
  rw [frame]
  simp only [List.append_assoc]
  rw [show (4 : Nat) = 4 + 0 from rfl, show (8 : Nat) = 4 + (4 + 0) from rfl]
  simp only [hdrop, List.drop_zero, decodeFixed32_putFixed32, and_self]

theorem parseFrame_frame {data : Bytes} (h : data.length < 2 ^ 32) (rest : Bytes) :
    parseFrame (frame data ++ rest) = some (data, rest) := by
  obtain ⟨hcrc, hlen, hdrop⟩ := frame_header data rest
  rw [parseFrame, if_neg (by rw [List.length_append, frame_length]; omega)]
  have hnat : (UInt32.ofNat data.length).toNat = data.length := by
    rw [UInt32.toNat_ofNat', Nat.mod_eq_of_lt h]
  simp only [hlen, hdrop, hcrc, hnat, List.take_left, CRC32C.unmask_mask]
  rw [if_neg (by omega), if_neg (by simp), ← List.drop_drop, hdrop, List.drop_left]

/-- A record that is not there to its end is not a record. -/
theorem parseFrame_torn {data torn rest : Bytes} (h : data.length < 2 ^ 32)
    (hsplit : frame data = torn ++ rest) (hrest : rest ≠ []) : parseFrame torn = none := by
  have htotal := congrArg List.length hsplit
  rw [frame_length, List.length_append] at htotal
  have hpos : 0 < rest.length := List.length_pos_iff.mpr hrest
  rw [parseFrame]
  by_cases hlen : torn.length < 8
  · rw [if_pos hlen]
  · rw [if_neg hlen]
    obtain ⟨-, hfield, -⟩ := frame_header data []
    rw [List.append_nil, hsplit] at hfield
    -- the length field lies inside the torn part
    have hdecode : decodeFixed32 (torn.drop 4) = UInt32.ofNat data.length := by
      rw [← hfield, decodeFixed32, decodeFixed32, List.drop_append_of_le_length (by omega),
        List.take_append_of_le_length (by rw [List.length_drop]; omega)]
    have hnat : (UInt32.ofNat data.length).toNat = data.length := by
      rw [UInt32.toNat_ofNat', Nat.mod_eq_of_lt h]
    simp only [hdecode, hnat]
    rw [if_pos (by rw [List.length_take, List.length_drop]; omega)]

/-- Whole records are replayed, and then whatever follows them. -/
theorem records_frames {recs : List Bytes} (h : ∀ r ∈ recs, r.length < 2 ^ 32) (tail : Bytes) :
    records (recs.flatMap frame ++ tail) = recs ++ records tail := by
  induction recs with
  | nil => rfl
  | cons r recs ih =>
      rw [List.flatMap_cons, List.append_assoc, records_eq,
        parseFrame_frame (h r List.mem_cons_self)]
      simp only [List.cons_append]
      rw [ih fun r' hr' => h r' (List.mem_cons_of_mem _ hr')]

theorem records_torn {data torn rest : Bytes} (h : data.length < 2 ^ 32)
    (hsplit : frame data = torn ++ rest) (hrest : rest ≠ []) : records torn = [] := by
  rw [records_eq, parseFrame_torn h hsplit hrest]

section Calls

variable {E : Env} {C : World → Nat → Prop} {w : World} {b : Nat}

theorem observes_readPayload (content : Bytes) (pos : Nat) (length : UInt32) :
    Observes E (readPayload content pos length)
      (fun buf => buf = (content.drop pos).take length.toNat ∨
        E.fails ∧ buf.length < length.toNat) w := by
  rw [readPayload]
  by_cases h0 : 0 < length
  · rw [if_pos h0]
    exact observes_fread_take content pos length.toNat
  · rw [if_neg h0]
    have hz : length.toNat = 0 := by
      simpa [UInt32.lt_iff_toNat_lt] using h0
    exact Observes.ret (Or.inl (by rw [hz, List.take_zero]))

/-- The replay loop delivers the records behind its position. -/
theorem observes_replayLoop (content : Bytes) (fuel pos : Nat)
    (hfuel : (content.drop pos).length < fuel) :
    Observes E (replayLoop content fuel pos)
      (fun r => r = recordsLoop fuel (content.drop pos) ∨ E.fails) w := by
  induction fuel generalizing pos with
  | zero => omega
  | succ fuel ih =>
      rw [replayLoop]
      refine Observes.bind (observes_fread_take content pos 8) fun header hh => ?_
      rcases hh with rfl | ⟨hf, hlt⟩
      swap
      · rw [if_pos hlt]
        exact Observes.ret (Or.inr hf)
      generalize hdata : content.drop pos = data at hfuel ⊢
      by_cases hlen : data.length < 8
      · rw [if_pos (by rw [List.length_take]; omega)]
        refine Observes.ret (Or.inl ?_)
        rw [recordsLoop, parseFrame, if_pos hlen]
      rw [if_neg (by rw [List.length_take]; omega)]
      have hcrc : decodeFixed32 (data.take 8) = decodeFixed32 data := by
        rw [decodeFixed32, decodeFixed32, List.take_take]
        rfl
      have hsize : decodeFixed32 ((data.take 8).drop 4) = decodeFixed32 (data.drop 4) := by
        rw [decodeFixed32, decodeFixed32, List.drop_take, List.take_take]
        rfl
      have hnext : content.drop (pos + 8 + (decodeFixed32 (data.drop 4)).toNat) =
          data.drop (8 + (decodeFixed32 (data.drop 4)).toNat) := by
        rw [Nat.add_assoc, ← List.drop_drop, hdata]
      simp only [hcrc, hsize]
      rw [recordsLoop]
      simp only [parseFrame, if_neg hlen]
      generalize decodeFixed32 (data.drop 4) = length at hnext ⊢
      have hbuf : (content.drop (pos + 8)).take length.toNat = (data.drop 8).take length.toNat := by
        rw [← hdata, List.drop_drop]
      refine Observes.bind (observes_readPayload content (pos + 8) length) fun buf hb => ?_
      rw [hbuf] at hb
      rcases hb with rfl | ⟨hf, hlt⟩
      swap
      · rw [if_pos hlt]
        exact Observes.ret (Or.inr hf)
      by_cases hshort : ((data.drop 8).take length.toNat).length < length.toNat
      · rw [if_pos hshort, if_pos hshort]
        exact Observes.ret (Or.inl rfl)
      rw [if_neg hshort, if_neg hshort]
      by_cases hsum : CRC32C.value (putFixed32 length ++ (data.drop 8).take length.toNat) ≠
          CRC32C.unmask (decodeFixed32 data)
      · rw [if_pos hsum, if_pos hsum]
        exact Observes.ret (Or.inl rfl)
      rw [if_neg hsum, if_neg hsum]
      refine Observes.bind (ih _ (by rw [hnext, List.length_drop]; omega)) fun rest hr => ?_
      rcases hr with rfl | hf
      · exact Observes.ret (Or.inl (by rw [hnext]))
      · exact Observes.ret (Or.inr hf)

/-- A replay that returns OK without a failing read delivers all records. -/
theorem observes_replayAll {path : Path} {data : Bytes} (h : w.bytes path = some data) :
    Observes E (replayAll path) (fun r => r = (.OK, records data) ∨ E.fails) w := by
  rw [replayAll]
  refine Observes.bind (observes_fopenRead h) fun r hr => ?_
  rcases hr with rfl | ⟨hf, n, hn, rfl⟩
  · refine Observes.bind (observes_replayLoop data _ 0 (by simp)) fun r hr => ?_
    rcases hr with rfl | hf
    · exact Observes.ret (Or.inl rfl)
    · exact Observes.ret (Or.inr hf)
  · simp only [if_neg hn]
    exact Observes.ret (Or.inr hf)

theorem observes_replayAll_missing {path : Path} (h : w.bytes path = none) :
    Observes E (replayAll path) (fun r => r = (.OK, []) ∨ E.fails) w := by
  rw [replayAll]
  refine Observes.bind (observes_fopenRead_missing h) fun r hr => ?_
  rcases hr with rfl | ⟨hf, n, hn, rfl⟩
  · simp only [if_pos]
    exact Observes.ret (Or.inl rfl)
  · simp only [if_neg hn]
    exact Observes.ret (Or.inr hf)

/-- A log between two operations: its stream, if there is one, buffers nothing. -/
def Idle (log : WriteAheadLog) (path : Path) : Prop :=
  log.path = path ∧ (log.file = none ∨ log.file = some ⟨path, []⟩)

/-- A log that can be appended to. -/
def Ready (log : WriteAheadLog) (path : Path) : Prop :=
  log = ⟨some ⟨path, []⟩, path⟩

theorem Ready.idle {log : WriteAheadLog} {path : Path} (h : log.Ready path) : log.Idle path := by
  rw [Ready] at h
  subst h
  exact ⟨rfl, Or.inr rfl⟩

theorem idle_closed (path : Path) : Idle ⟨none, path⟩ path := ⟨rfl, Or.inl rfl⟩

theorem Idle.cases {log : WriteAheadLog} {path : Path} (h : log.Idle path) :
    log = ⟨none, path⟩ ∨ log.Ready path := by
  obtain ⟨file, p⟩ := log
  obtain ⟨hp, hf | hf⟩ := h
  · exact Or.inl (by simp_all)
  · exact Or.inr (by simp_all [Ready])

theorem wp_open {Q : Status × WriteAheadLog → World → Nat → Prop} {path : Path}
    (hok : ∀ w', OnlyAt path w w' → w'.bytes path = some ((w.bytes path).getD []) →
      Q (.OK, ⟨some ⟨path, []⟩, path⟩) w' b)
    (hfail : E.fails → ∀ s, s.ok = false → Q (s, ⟨none, path⟩) w b)
    (hC : E.crashes → ∀ w', OnlyAt path w w' →
      w'.bytes path = w.bytes path ∨ w.bytes path = none ∧ w'.bytes path = some [] → C w' b) :
    wp E (WriteAheadLog.open path) Q C w b := by
  rw [WriteAheadLog.open]
  cases hb : w.bytes path with
  | some data =>
      refine wp_bind (wp_fopenAppend hb
        (wp_pure (hok w (OnlyAt.refl path w) (by simp [hb])))
        (fun hf n _ => wp_pure (hfail hf _ rfl)) fun hc => hC hc w (OnlyAt.refl path w) (Or.inl rfl))
  | none =>
      refine wp_bind (wp_fopenAppend_missing hb
        (wp_pure (hok _ (put_onlyAt w path .empty) (by simp [hb])))
        (fun hf n _ => wp_pure (hfail hf _ rfl))
        fun hc => ⟨hC hc w (OnlyAt.refl path w) (Or.inl rfl),
          hC hc _ (put_onlyAt w path .empty) (Or.inr ⟨hb, by simp⟩)⟩)

variable {path : Path} {log : WriteAheadLog}

theorem wp_sync {Q : Status × WriteAheadLog → World → Nat → Prop} {pending : Bytes}
    (hlog : log = ⟨some ⟨path, pending⟩, path⟩)
    (hok : ∀ w', Grew path pending w w' → w'.Durable path →
      Q (.OK, ⟨some ⟨path, []⟩, path⟩) w' b)
    (hfail : E.fails → ∀ s n w', s.ok = false → Grew path (pending.take n) w w' →
      Q (s, ⟨some ⟨path, []⟩, path⟩) w' b)
    (hC : E.crashes → ∀ n w', Grew path (pending.take n) w w' → C w' b) :
    wp E log.sync Q C w b := by
  subst hlog
  have hfull : pending = pending.take pending.length := (List.take_length).symm
  have hgrew := append_grew w path pending
  have hsynced : Grew path pending w ((w.append path pending).sync path) := by
    simpa using hgrew.trans (sync_grew _ path)
  rw [sync]
  refine wp_bind (wp_fflush ?_
    (fun hf n => wp_pure (hfail hf _ n _ rfl (append_grew w path _)))
    fun hc n => hC hc n _ (append_grew w path _))
  refine wp_bind (wp_fsync (wp_pure (hok _ hsynced (durable_sync _ _)))
    (fun hf => wp_pure (hfail hf _ pending.length _ rfl (hfull ▸ hgrew)))
    fun hc => ⟨hC hc pending.length _ (hfull ▸ hgrew), hC hc pending.length _ (hfull ▸ hsynced)⟩)

/-- Appending a record adds its frame, or fails and adds a prefix of it. -/
theorem wp_addRecord {Q : Status × WriteAheadLog → World → Nat → Prop} {data : Bytes}
    {sync : Bool} (hlog : log.Ready path)
    (hfit : E.excludes ∨ ((w.bytes path).getD []).length + (frame data).length ≤ maxFileBytes)
    (hok : ∀ w', Grew path (frame data) w w' → (sync = true → w'.Durable path) →
      Q (.OK, log) w' b)
    (hfail : E.fails → ∀ s n w', s.ok = false → Grew path ((frame data).take n) w w' →
      Q (s, log) w' b)
    (hC : E.crashes → ∀ n w', Grew path ((frame data).take n) w w' → C w' b) :
    wp E (log.addRecord data sync) Q C w b := by
  rw [Ready] at hlog
  subst hlog
  rw [addRecord]
  generalize frame data = record at hfit hok hfail hC ⊢
  refine wp_bind (wp_fwrite (List.nil_append record) hfit (fun _ => ?_)
    (fun hf n => wp_pure (hfail hf _ n _ rfl (append_grew w path _)))
    fun hc n => hC hc n _ (append_grew w path _))
  simp only [Bool.not_true, Bool.false_eq_true, if_false]
  cases sync with
  | true => exact wp_sync rfl (fun w' hw' hd => hok w' hw' fun _ => hd) hfail hC
  | false =>
      refine wp_bind (wp_fflush ?_
        (fun hf n => wp_pure (hfail hf _ n _ rfl (append_grew w path _)))
        fun hc n => hC hc n _ (append_grew w path _))
      exact wp_pure (hok _ (append_grew w path _) (by simp))

/-- Closing an idle log adds no byte. -/
theorem wp_close {Q : Status × WriteAheadLog → World → Nat → Prop} (hlog : log.Idle path)
    (hok : ∀ w', Grew path [] w w' → Q (.OK, ⟨none, path⟩) w' b)
    (hfail : E.fails → ∀ s w', s.ok = false → Grew path [] w w' → Q (s, ⟨none, path⟩) w' b)
    (hC : E.crashes → ∀ w', Grew path [] w w' → C w' b) :
    wp E log.close Q C w b := by
  rcases hlog.cases with rfl | hr
  · exact wp_pure (hok w (Grew.refl path w))
  · rw [Ready] at hr
    subst hr
    rw [close]
    have hclose : ∀ (w' : World), Grew path [] w w' → ∀ n,
        Grew path [] w (w'.append path (([] : Bytes).take n)) := fun w' hw' n => by
      simpa using hw'.trans (append_grew w' path (([] : Bytes).take n))
    refine wp_bind (wp_sync rfl (fun w' hw' _ => ?_) (fun hf s n w' hs hw' => ?_)
      fun hc n w' hw' => hC hc w' (by simpa using hw'))
    · refine wp_bind (wp_fclose ?_ (fun hf n => ?_) fun hc n => hC hc _ (hclose w' hw' n))
      · exact wp_pure (hok _ (by simpa using hclose w' hw' 0))
      · exact wp_pure (hfail hf _ _ rfl (hclose w' hw' n))
    · have hw'' : Grew path [] w w' := by simpa using hw'
      refine wp_bind (wp_fclose ?_ (fun hf n => ?_) fun hc n => hC hc _ (hclose w' hw'' n))
      · simp only [Bool.not_true, Bool.false_eq_true, false_and, if_false]
        exact wp_pure (hfail hf _ _ hs (by simpa using hclose w' hw'' 0))
      · simp only [hs, Bool.false_eq_true, and_false, if_false]
        exact wp_pure (hfail hf _ _ hs (hclose w' hw'' n))

end Calls

end WriteAheadLog

end ClomDB
