import ClomDB.Status
import ClomDB.Library.ShiftRegister

/-!
# The checksum

`CRC32C` of `coding.h`: the byte-wise table implementation and the mask under
which a checksum is stored in the log. Damage within four consecutive bytes
always shows.

## Implementation notes

A row of the table is computed where it is used. The source fills the table
once, with the same eight steps for each row.
-/

namespace ClomDB.CRC32C

/-- One step of the table's inner loop. -/
def tableStep (c : UInt32) : UInt32 :=
  if c &&& 1 ≠ 0 then (0x82F63B78 : UInt32) ^^^ (c >>> 1) else c >>> 1

/-- The table row of `n`. -/
def table (n : UInt32) : UInt32 := (List.range 8).foldl (fun c _ => tableStep c) n

/-- One byte of input. -/
def extendByte (c : UInt32) (p : UInt8) : UInt32 :=
  table ((c ^^^ p.toUInt32) &&& 0xFF) ^^^ (c >>> 8)

def extend (crc : UInt32) (data : Bytes) : UInt32 :=
  data.foldl extendByte (crc ^^^ 0xFFFFFFFF) ^^^ 0xFFFFFFFF

def value (data : Bytes) : UInt32 := extend 0 data

def mask (crc : UInt32) : UInt32 := ((crc >>> 15) ||| (crc <<< 17)) + 0xa282ead8

def unmask (masked : UInt32) : UInt32 :=
  let rot := masked - 0xa282ead8
  (rot >>> 17) ||| (rot <<< 15)

/-- Two rotations that make up a full turn. -/
theorem rotate_rotate {m n : Nat} (h : m + n = 32) (c : BitVec 32) :
    (((c >>> m) ||| (c <<< n)) >>> n) ||| (((c >>> m) ||| (c <<< n)) <<< m) = c := by
  ext i hi
  simp only [BitVec.getElem_or, BitVec.getElem_ushiftRight, BitVec.getElem_shiftLeft,
    BitVec.getLsbD_or, BitVec.getLsbD_ushiftRight, BitVec.getLsbD_shiftLeft]
  by_cases hm : i < m
  · simp [hm, show n + i < 32 by omega, show m + (n + i) = 32 + i by omega,
      BitVec.getLsbD_of_ge, BitVec.getLsbD_eq_getElem hi]
  · have hsub : m + (i - m) = i := by omega
    have hge : c.getLsbD (m + (n + i)) = false := BitVec.getLsbD_of_ge _ _ (by omega)
    simp [hm, hge, show i - m < n by omega, hsub, BitVec.getLsbD_eq_getElem hi]

@[simp] theorem unmask_mask (crc : UInt32) : unmask (mask crc) = crc := by
  rw [unmask, mask, UInt32.add_sub_cancel]
  apply UInt32.toBitVec_inj.mp
  exact rotate_rotate (m := 15) (n := 17) rfl crc.toBitVec

@[simp] theorem mask_unmask (masked : UInt32) : mask (unmask masked) = masked := by
  have hrotate : ((unmask masked >>> 15) ||| (unmask masked <<< 17)) = masked - 0xa282ead8 := by
    apply UInt32.toBitVec_inj.mp
    exact rotate_rotate (m := 17) (n := 15) rfl (masked - 0xa282ead8).toBitVec
  rw [mask, hrotate, UInt32.sub_add_cancel]

/-- Different stored checksums are different checksums. -/
theorem unmask_inj {m m' : UInt32} (h : unmask m = unmask m') : m = m' := by
  rw [← mask_unmask m, h, mask_unmask]

/-- The checksum of the nine ASCII digits. -/
example : value (ascii ['1', '2', '3', '4', '5', '6', '7', '8', '9']) = 0xE3069283 := by
  decide +kernel

section Bits

open ShiftRegister

/-- The constant of the table, the polynomial with its lowest power in the highest bit. -/
def polynomial : BitVec 32 := 0x82F63B78

/-- The checksum bit by bit: the register starts with ones, takes every byte from
its lowest bit on, and is inverted at the end. -/
def bitwise (data : Bytes) : UInt32 :=
  ⟨run polynomial 0xFFFFFFFF (data.flatMap fun p => lowBits 8 p.toBitVec) ^^^ 0xFFFFFFFF⟩

theorem and_one_ne_zero_iff (c : UInt32) : c &&& 1 ≠ 0 ↔ c.toBitVec.getLsbD 0 = true := by
  have hbit : (c &&& 1).toBitVec = BitVec.setWidth 32 (BitVec.ofBool (c.toBitVec.getLsbD 0)) :=
    BitVec.and_one_eq_setWidth_ofBool_getLsbD
  rw [ne_eq, ← UInt32.toBitVec_inj, hbit]
  cases c.toBitVec.getLsbD 0 <;> decide

theorem tableStep_toBitVec (c : UInt32) :
    (tableStep c).toBitVec = step polynomial c.toBitVec := by
  rw [tableStep, step]
  by_cases h : c &&& 1 ≠ 0
  · rw [if_pos h, if_pos ((and_one_ne_zero_iff c).mp h)]
    rfl
  · rw [if_neg h, if_neg (mt (and_one_ne_zero_iff c).mpr h)]
    rfl

/-- A row of the table is eight steps of the register. -/
theorem table_toBitVec (n : UInt32) : (table n).toBitVec = (step polynomial)^[8] n.toBitVec := by
  simp only [table, List.range, List.range.loop, List.foldl, tableStep_toBitVec]
  rfl

/-- A table row is linear in its index. -/
theorem table_xor (a b : UInt32) : table (a ^^^ b) = table a ^^^ table b := by
  apply UInt32.toBitVec_inj.mp
  rw [UInt32.toBitVec_xor, table_toBitVec, table_toBitVec, table_toBitVec, UInt32.toBitVec_xor,
    iterate_step_xor]

theorem getLsbD_low_byte {i : Nat} (hi : i < 8) (x : UInt32) :
    (x &&& 0xFF).toBitVec.getLsbD i = x.toBitVec.getLsbD i := by
  have hmask : ∀ i < 8, (0xFF : UInt32).toBitVec.getLsbD i = true := by decide
  rw [UInt32.toBitVec_and, BitVec.getLsbD_and, hmask i hi, Bool.and_true]

theorem getLsbD_byte {i : Nat} (hi : i < 8) (p : UInt8) :
    p.toUInt32.toBitVec.getLsbD i = p.toBitVec.getLsbD i := by
  change (p.toBitVec.setWidth 32).getLsbD i = _
  rw [BitVec.getLsbD_setWidth, decide_eq_true (show i < 32 by omega), Bool.true_and]

theorem shift_low_byte (x : UInt32) : (x &&& 0xFF) >>> 8 = 0 := by
  have hmask : (0xFF : UInt32).toBitVec >>> 8 = 0 := by decide
  apply UInt32.toBitVec_inj.mp
  change (x.toBitVec &&& (0xFF : UInt32).toBitVec) >>> 8 = 0
  rw [BitVec.ushiftRight_and_distrib, hmask]
  exact BitVec.and_zero

theorem shift_byte (p : UInt8) : p.toUInt32.toBitVec >>> 8 = 0 := by
  change p.toBitVec.setWidth 32 >>> 8 = 0
  apply BitVec.eq_of_getLsbD_eq
  intro i _
  rw [BitVec.getLsbD_ushiftRight, BitVec.getLsbD_setWidth,
    BitVec.getLsbD_of_ge p.toBitVec (8 + i) (by omega), Bool.and_false]
  exact BitVec.getLsbD_zero.symm

theorem shift_xor_byte (c : UInt32) (p : UInt8) : (c ^^^ p.toUInt32) >>> 8 = c >>> 8 := by
  apply UInt32.toBitVec_inj.mp
  change (c.toBitVec ^^^ p.toUInt32.toBitVec) >>> 8 = c.toBitVec >>> 8
  rw [BitVec.ushiftRight_xor_distrib, shift_byte]
  exact BitVec.xor_zero

/-- The table does the eight bits of a byte at once. -/
theorem extendByte_toBitVec (c : UInt32) (p : UInt8) :
    (extendByte c p).toBitVec = run polynomial c.toBitVec (lowBits 8 p.toBitVec) := by
  have hbits : lowBits 8 p.toBitVec = lowBits 8 p.toUInt32.toBitVec :=
    List.map_congr_left fun i hi => (getLsbD_byte (List.mem_range.mp hi) p).symm
  have hfeed : run polynomial c.toBitVec (lowBits 8 p.toBitVec) =
      (step polynomial)^[8] (c ^^^ p.toUInt32).toBitVec := by
    have h := run_lowBits polynomial 8 c.toBitVec p.toUInt32.toBitVec
    rw [shift_byte] at h
    rw [hbits]
    exact (BitVec.xor_zero).symm.trans h
  have hrest : ((c ^^^ p.toUInt32).toBitVec ^^^ ((c ^^^ p.toUInt32) &&& 0xFF).toBitVec) >>> 8 =
      (c >>> 8).toBitVec := by
    rw [← shift_xor_byte c p]
    generalize c ^^^ p.toUInt32 = x
    have hlow : (x &&& 0xFF).toBitVec >>> 8 = 0 := congrArg UInt32.toBitVec (shift_low_byte x)
    rw [BitVec.ushiftRight_xor_distrib, hlow]
    exact BitVec.xor_zero
  rw [hfeed, iterate_step_of_agree polynomial fun i hi => (getLsbD_low_byte hi _).symm, hrest,
    extendByte, UInt32.toBitVec_xor, table_toBitVec]

theorem foldl_extendByte_toBitVec (c : UInt32) (data : Bytes) :
    (data.foldl extendByte c).toBitVec =
      run polynomial c.toBitVec (data.flatMap fun p => lowBits 8 p.toBitVec) := by
  induction data generalizing c with
  | nil => rfl
  | cons p data ih =>
      rw [List.foldl_cons, ih, extendByte_toBitVec, List.flatMap_cons, run_append]

/-- The table-driven checksum is the one defined bit by bit, and it may be taken
in pieces. -/
theorem value_extend :
    (∀ data, value data = bitwise data) ∧
      ∀ crc a b, extend (extend crc a) b = extend crc (a ++ b) := by
  constructor
  · intro data
    apply UInt32.toBitVec_inj.mp
    rw [value, extend, UInt32.toBitVec_xor, foldl_extendByte_toBitVec]
    rfl
  · intro crc a b
    rw [extend, extend, extend, UInt32.xor_assoc, UInt32.xor_self, UInt32.xor_zero,
      List.foldl_append]

end Bits

section Burst

theorem xor_and (a b m : UInt32) : (a ^^^ b) &&& m = (a &&& m) ^^^ (b &&& m) := by
  apply UInt32.toBitVec_inj.mp
  apply BitVec.eq_of_getLsbD_eq
  intro i _
  simp [Bool.and_xor_distrib_right]

/-- The table's rows differ in their high byte. -/
theorem table_high_inj {x y : UInt32} (h : table (x &&& 0xFF) >>> 24 = table (y &&& 0xFF) >>> 24) :
    x &&& 0xFF = y &&& 0xFF := by
  have hzero : ∀ i : Fin 256, table (UInt32.ofNat i.val) >>> 24 = 0 → i = 0 := by
    decide +kernel
  -- by linearity only the row of zero has an empty high byte
  have hlt : ((x ^^^ y) &&& 0xFF).toNat < 256 := by
    rw [UInt32.toNat_and]
    exact Nat.lt_of_le_of_lt Nat.and_le_right (by decide)
  have hhigh : table ((x ^^^ y) &&& 0xFF) >>> 24 = 0 := by
    have hshift : (table (x &&& 0xFF) ^^^ table (y &&& 0xFF)) >>> 24 =
        (table (x &&& 0xFF) >>> 24) ^^^ (table (y &&& 0xFF) >>> 24) := by
      apply UInt32.toBitVec_inj.mp
      exact BitVec.ushiftRight_xor_distrib ..
    rw [xor_and, table_xor, hshift, h, UInt32.xor_self]
  have hval := congrArg Fin.val (hzero ⟨_, hlt⟩ (by rw [UInt32.ofNat_toNat]; exact hhigh))
  have hxor : (x &&& 0xFF) ^^^ (y &&& 0xFF) = 0 := by
    rw [← xor_and]
    exact UInt32.toNat_inj.mp hval
  exact UInt32.xor_eq_zero_iff.mp hxor

/-- The byte step, once the byte has been laid over the checksum. -/
def advance (x : UInt32) : UInt32 := table (x &&& 0xFF) ^^^ (x >>> 8)

theorem extendByte_eq (c : UInt32) (p : UInt8) : extendByte c p = advance (c ^^^ p.toUInt32) := by
  rw [extendByte, advance, shift_xor_byte]

/-- The bits of `x` from byte `k` on. -/
def above (k : Nat) (x : UInt32) : BitVec 32 := x.toBitVec >>> (8 * k)

theorem above_zero (x : UInt32) : above 0 x = x.toBitVec := by
  rw [above, Nat.mul_zero, BitVec.ushiftRight_zero]

theorem above_add (j k : Nat) (x : UInt32) : above (j + k) x = (above j x) >>> (8 * k) := by
  rw [above, above, Nat.mul_add, BitVec.shiftRight_add]

theorem above_shift (k : Nat) (x : UInt32) : above k (x >>> 8) = above (k + 1) x := by
  rw [above, Nat.add_comm, above_add]
  rfl

theorem above_xor (k : Nat) (x y : UInt32) : above k (x ^^^ y) = above k x ^^^ above k y := by
  rw [above, UInt32.toBitVec_xor, BitVec.ushiftRight_xor_distrib]
  rfl

theorem above_byte (k : Nat) (c : UInt32) (p : UInt8) :
    above (k + 1) (c ^^^ p.toUInt32) = above (k + 1) c := by
  rw [← above_shift, shift_xor_byte, above_shift]

theorem above_four (x : UInt32) : above 4 x = 0 := by
  apply BitVec.eq_of_getLsbD_eq
  intro i _
  simp [above]

/-- The step can be undone: the high byte tells the row, the row the rest. -/
theorem advance_inj {k : Nat} (hk : k ≤ 3) {x y : UInt32}
    (h : above k (advance x) = above k (advance y)) :
    x &&& 0xFF = y &&& 0xFF ∧ above (k + 1) x = above (k + 1) y := by
  have hhigh : ∀ z : UInt32, above 3 (advance z) = above 3 (table (z &&& 0xFF)) := fun z => by
    rw [advance, above_xor, above_shift, above_four]
    exact BitVec.xor_zero
  have h3 : above 3 (advance x) = above 3 (advance y) := by
    rw [show 3 = k + (3 - k) by omega, above_add, above_add, h]
  rw [hhigh, hhigh] at h3
  have hrow := table_high_inj (x := x) (y := y) (UInt32.toBitVec_inj.mp h3)
  refine ⟨hrow, ?_⟩
  rw [advance, advance, above_xor, above_xor, above_shift, above_shift, hrow] at h
  exact (BitVec.xor_right_inj _).mp h

theorem low_byte_inj {c : UInt32} {p q : UInt8}
    (h : (c ^^^ p.toUInt32) &&& 0xFF = (c ^^^ q.toUInt32) &&& 0xFF) : p = q := by
  apply UInt8.toBitVec_inj.mp
  apply BitVec.eq_of_getLsbD_eq
  intro i hi
  have hxor : ∀ r : UInt8, ((c ^^^ r.toUInt32) &&& 0xFF).toBitVec.getLsbD i =
      (c.toBitVec.getLsbD i ^^ r.toBitVec.getLsbD i) := fun r => by
    rw [getLsbD_low_byte hi, UInt32.toBitVec_xor, BitVec.getLsbD_xor, getLsbD_byte hi]
  have hb := congrArg (fun z : UInt32 => z.toBitVec.getLsbD i) h
  simp only [hxor] at hb
  exact Bool.xor_right_inj.mp hb

/-- Bytes of one length that lead to the same high bytes began with the same
high bytes. -/
theorem above_of_foldl {xs ys : Bytes} (hlen : xs.length = ys.length) {k : Nat}
    (hk : xs.length + k ≤ 4) {c d : UInt32}
    (h : above k (xs.foldl extendByte c) = above k (ys.foldl extendByte d)) :
    above (k + xs.length) c = above (k + xs.length) d := by
  induction xs generalizing ys c d with
  | nil =>
      obtain rfl : ys = [] := List.length_eq_zero_iff.mp hlen.symm
      exact h
  | cons p xs ih =>
      cases ys with
      | nil => simp at hlen
      | cons q ys =>
          rw [List.length_cons] at hk ⊢
          have hlen' : xs.length = ys.length := by simpa using hlen
          have hstep := ih hlen' (by omega) (c := extendByte c p) (d := extendByte d q) h
          rw [extendByte_eq, extendByte_eq] at hstep
          have hback := (advance_inj (by omega) hstep).2
          rwa [above_byte, above_byte] at hback

/-- At most four bytes after the same checksum can be told apart. -/
theorem foldl_inj_of_length_le {xs ys : Bytes} (hlen : xs.length = ys.length)
    (hle : xs.length ≤ 4) {c : UInt32} (h : xs.foldl extendByte c = ys.foldl extendByte c) :
    xs = ys := by
  induction xs generalizing ys c with
  | nil => exact (List.length_eq_zero_iff.mp hlen.symm).symm
  | cons p xs ih =>
      cases ys with
      | nil => simp at hlen
      | cons q ys =>
          simp only [List.length_cons, Nat.add_right_cancel_iff] at hlen hle
          have hstep := above_of_foldl hlen (k := 0) (by omega)
            (congrArg (above 0) h)
          rw [extendByte_eq, extendByte_eq] at hstep
          obtain rfl := low_byte_inj (advance_inj (by omega) hstep).1
          rw [ih hlen (by omega) h]

/-- A checksum is its low byte and the bytes above. -/
theorem eq_of_low_of_above {x y : UInt32} (hlow : x &&& 0xFF = y &&& 0xFF)
    (habove : above 1 x = above 1 y) : x = y := by
  apply UInt32.toBitVec_inj.mp
  apply BitVec.eq_of_getLsbD_eq
  intro i _
  by_cases hi : i < 8
  · rw [← getLsbD_low_byte hi, hlow, getLsbD_low_byte hi]
  · have hb := congrArg (fun z : BitVec 32 => z.getLsbD (i - 8)) habove
    simpa only [above, BitVec.getLsbD_ushiftRight, show 8 * 1 + (i - 8) = i by omega] using hb

/-- Different checksums stay different under the same bytes. -/
theorem foldl_extendByte_inj {c d : UInt32} (zs : Bytes)
    (h : zs.foldl extendByte c = zs.foldl extendByte d) : c = d := by
  induction zs generalizing c d with
  | nil => exact h
  | cons p zs ih =>
      have hstep := ih h
      rw [extendByte_eq, extendByte_eq] at hstep
      obtain ⟨hlow, habove⟩ := advance_inj (by omega) (congrArg (above 0) hstep)
      have hxor := congrArg UInt32.toBitVec (eq_of_low_of_above hlow habove)
      exact UInt32.toBitVec_inj.mp ((BitVec.xor_left_inj _).mp hxor)

/-- Damage within four consecutive bytes changes the checksum. -/
theorem value_ne_of_burst {xs ys : Bytes} (a z : Bytes) (hlen : xs.length = ys.length)
    (hle : xs.length ≤ 4) (hne : xs ≠ ys) : value (a ++ xs ++ z) ≠ value (a ++ ys ++ z) := by
  intro h
  rw [value, value, extend, extend] at h
  have hxor := congrArg UInt32.toBitVec h
  have hfold := UInt32.toBitVec_inj.mp ((BitVec.xor_left_inj _).mp hxor)
  rw [List.foldl_append, List.foldl_append, List.foldl_append, List.foldl_append] at hfold
  exact hne (foldl_inj_of_length_le hlen hle (foldl_extendByte_inj z hfold))

end Burst

end ClomDB.CRC32C
