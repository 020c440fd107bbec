import ClomDB.Version
import ClomDB.WriteAheadLog

/-!
# Damage to stored bytes

What a load of the manifest and a replay of the log make of bytes that have
changed since they were written.
-/

namespace ClomDB

open FaultProgram FileSystem FileSystem.World Coding

variable {w : World} {path : Path}

namespace Version

/-- A body that does not have the stored checksum is rejected. -/
theorem observes_load_damaged {E : Env} {crc : UInt32} {body : Bytes} (hcrc : CRC32C.value body ≠ crc)
    (hw : w.bytes path = some (putFixed32 crc ++ body)) (v : Version) :
    Observes E (v.load path) (fun r => r.1.code = .kCorruption ∨ E.fails) w := by
  refine Observes.mono (observes_load_bytes (by simp) hw v) fun r hr => ?_
  rcases hr with rfl | ⟨hf, -⟩
  · left
    have hdrop : (putFixed32 crc ++ body).drop 4 = body := List.drop_left' (putFixed32_length crc)
    rw [decode, hdrop, decodeFixed32_putFixed32, if_pos hcrc]
    rfl
  · exact Or.inr hf

end Version

namespace WriteAheadLog

/-- A frame whose checksum does not belong to its payload ends a replay. -/
theorem parseFrame_damaged {crc : UInt32} {data rest : Bytes} (hlen : data.length < 2 ^ 32)
    (hcrc : CRC32C.value (putFixed32 (UInt32.ofNat data.length) ++ data) ≠ CRC32C.unmask crc) :
    parseFrame (putFixed32 crc ++ (putFixed32 (UInt32.ofNat data.length) ++ data) ++ rest) =
      none := by
  have hdrop : ∀ (v : UInt32) (s : Bytes), (putFixed32 v ++ s).drop 4 = s := fun v s =>
    List.drop_left' (putFixed32_length v)
  have hnat : (UInt32.ofNat data.length).toNat = data.length := by
    rw [UInt32.toNat_ofNat', Nat.mod_eq_of_lt hlen]
  rw [parseFrame, if_neg (by simp; omega), List.append_assoc, List.append_assoc]
  simp only [hdrop, decodeFixed32_putFixed32]
  rw [show (8 : Nat) = 4 + 4 from rfl, ← List.drop_drop, hdrop, hdrop, hnat, List.take_left,
    if_neg (by omega), if_pos hcrc]

theorem records_damaged {recs : List Bytes} {crc : UInt32} {data rest : Bytes}
    (hrecs : ∀ r ∈ recs, r.length < 2 ^ 32) (hlen : data.length < 2 ^ 32)
    (hcrc : CRC32C.value (putFixed32 (UInt32.ofNat data.length) ++ data) ≠ CRC32C.unmask crc) :
    records (recs.flatMap frame ++
      (putFixed32 crc ++ (putFixed32 (UInt32.ofNat data.length) ++ data) ++ rest)) = recs := by
  rw [records_frames hrecs, records_eq, parseFrame_damaged hlen hcrc, List.append_nil]

end WriteAheadLog

/-- Two byte strings of one length that differ within at most four consecutive bytes. -/
def Burst (x y : Bytes) : Prop :=
  ∃ before s t after, x = before ++ s ++ after ∧ y = before ++ t ++ after ∧
    s.length = t.length ∧ s.length ≤ 4 ∧ s ≠ t

theorem Burst.length_eq {x y : Bytes} (h : Burst x y) : x.length = y.length := by
  obtain ⟨before, s, t, after, rfl, rfl, hlen, -⟩ := h
  simp [hlen]

theorem Burst.append_left (prefix' : Bytes) {x y : Bytes} (h : Burst x y) :
    Burst (prefix' ++ x) (prefix' ++ y) := by
  obtain ⟨before, s, t, after, rfl, rfl, h⟩ := h
  exact ⟨prefix' ++ before, s, t, after, by simp, by simp, h⟩

theorem Burst.value_ne {x y : Bytes} (h : Burst x y) : CRC32C.value x ≠ CRC32C.value y := by
  obtain ⟨before, s, t, after, rfl, rfl, hlen, hle, hne⟩ := h
  exact CRC32C.value_ne_of_burst before after hlen hle hne

/-- The payload of a record altered in a burst. -/
theorem WriteAheadLog.records_burst {recs : List Bytes} {data payload rest : Bytes}
    (hrecs : ∀ r ∈ recs, r.length < 2 ^ 32) (hlen : data.length < 2 ^ 32)
    (h : Burst data payload) :
    records (recs.flatMap frame ++ ((frame data).take 8 ++ payload ++ rest)) = recs := by
  have htake : (frame data).take 8 =
      putFixed32 (CRC32C.mask (CRC32C.value (putFixed32 (UInt32.ofNat data.length) ++ data))) ++
        putFixed32 (UInt32.ofNat data.length) := by
    rw [frame, ← List.append_assoc]
    exact List.take_left' (by simp)
  have hsame := h.length_eq
  rw [htake, hsame, List.append_assoc (putFixed32 _) (putFixed32 _) payload]
  refine records_damaged hrecs (by omega) ?_
  rw [CRC32C.unmask_mask]
  exact fun heq => (h.append_left _).value_ne heq.symm

/-- The stored checksum of a record altered. -/
theorem WriteAheadLog.records_checksum {recs : List Bytes} {data crc rest : Bytes}
    (hrecs : ∀ r ∈ recs, r.length < 2 ^ 32) (hlen : data.length < 2 ^ 32)
    (hcrc : crc.length = 4) (hne : crc ≠ (frame data).take 4) :
    records (recs.flatMap frame ++ (crc ++ (frame data).drop 4 ++ rest)) = recs := by
  have htake : (frame data).take 4 =
      putFixed32 (CRC32C.mask (CRC32C.value (putFixed32 (UInt32.ofNat data.length) ++ data))) :=
    List.take_left' (putFixed32_length _)
  have hdrop : (frame data).drop 4 = putFixed32 (UInt32.ofNat data.length) ++ data :=
    List.drop_left' (putFixed32_length _)
  rw [hdrop, ← putFixed32_decodeFixed32 hcrc]
  refine records_damaged hrecs hlen fun heq => hne ?_
  rw [htake, heq, CRC32C.mask_unmask, putFixed32_decodeFixed32 hcrc]

/-- A burst always shows: in the checksum, in a manifest's body, and in the log,
where also a change of the stored checksum shows. -/
theorem burst_detected :
    (∀ x y, Burst x y → CRC32C.value x ≠ CRC32C.value y) ∧
    (∀ (v receiver : Version) (body : Bytes) (path : Path) (w : World),
      Burst v.encodeBody body → w.bytes path = some (v.encode.take 4 ++ body) →
        Observes Env.sure (receiver.load path) (fun r => r.1.code = .kCorruption) w) ∧
    (∀ (before after : List Bytes) (data damaged : Bytes) (path : Path) (w : World),
      (∀ r ∈ before ++ data :: after, r.length < 2 ^ 32) →
      (∃ payload, Burst data payload ∧ damaged = (WriteAheadLog.frame data).take 8 ++ payload) ∨
        (∃ crc, crc.length = 4 ∧ crc ≠ (WriteAheadLog.frame data).take 4 ∧
          damaged = crc ++ (WriteAheadLog.frame data).drop 4) →
      w.bytes path = some (before.flatMap WriteAheadLog.frame ++
        (damaged ++ after.flatMap WriteAheadLog.frame)) →
      Observes Env.sure (WriteAheadLog.replayAll path) (fun r => r = (.OK, before)) w) := by
  refine ⟨fun x y h => h.value_ne, ?_, ?_⟩
  · intro v receiver body path w hburst hw
    have htake : v.encode.take 4 = putFixed32 (CRC32C.value v.encodeBody) :=
      List.take_left' (putFixed32_length _)
    rw [htake] at hw
    exact (Version.observes_load_damaged (E := Env.sure) hburst.value_ne.symm hw receiver).mono
      fun r hr => hr.resolve_right id
  · intro before after data damaged path w hshort hdamage hw
    have hbefore : ∀ r ∈ before, r.length < 2 ^ 32 := fun r hr => hshort r (by simp [hr])
    have hdata : data.length < 2 ^ 32 := hshort data (by simp)
    refine (WriteAheadLog.observes_replayAll (E := Env.sure) hw).mono fun r hr => ?_
    rw [hr.resolve_right id]
    rcases hdamage with ⟨payload, hburst, rfl⟩ | ⟨crc, hcrc, hne, rfl⟩
    · rw [WriteAheadLog.records_burst hbefore hdata hburst]
    · rw [WriteAheadLog.records_checksum hbefore hdata hcrc hne]

end ClomDB
