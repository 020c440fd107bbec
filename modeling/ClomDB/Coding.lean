import ClomDB.Status
import Mathlib.Algebra.BigOperators.Fin
import Mathlib.Tactic.Ring

/-!
# Fixed-width and varint coding

The encoders and decoders of `coding.h`. A decoder that moves a pointer
returns the bytes behind that pointer; a null pointer is `none`.

## Implementation notes

`memcpy` of an unsigned integer is read as little endian, the layout the
format comments fix. The decoders of fixed-width integers look at the first
bytes only, because every caller has checked that they are there.
-/

namespace ClomDB.Coding

/-- The `n` low bytes of `v`, least significant first. -/
def littleEndian : Nat → Nat → Bytes
  | 0, _ => []
  | n + 1, v => UInt8.ofNat v :: littleEndian n (v / 256)

/-- The value of a little-endian byte string. -/
def ofLittleEndian : Bytes → Nat
  | [] => 0
  | b :: rest => b.toNat + 256 * ofLittleEndian rest

def putFixed32 (v : UInt32) : Bytes := littleEndian 4 v.toNat

def putFixed64 (v : UInt64) : Bytes := littleEndian 8 v.toNat

def decodeFixed32 (p : Bytes) : UInt32 := UInt32.ofNat (ofLittleEndian (p.take 4))

def decodeFixed64 (p : Bytes) : UInt64 := UInt64.ofNat (ofLittleEndian (p.take 8))

@[simp] theorem littleEndian_length (n v : Nat) : (littleEndian n v).length = n := by
  induction n generalizing v with
  | zero => rfl
  | succ n ih => simp [littleEndian, ih]

theorem ofLittleEndian_littleEndian (n v : Nat) :
    ofLittleEndian (littleEndian n v) = v % 256 ^ n := by
  induction n generalizing v with
  | zero => simp [littleEndian, ofLittleEndian, Nat.mod_one]
  | succ n ih =>
      have hpow : 256 ^ (n + 1) = 256 * 256 ^ n := by rw [Nat.pow_succ, Nat.mul_comm]
      rw [littleEndian, ofLittleEndian, ih, UInt8.toNat_ofNat', hpow, Nat.mod_mul]

@[simp] theorem putFixed32_length (v : UInt32) : (putFixed32 v).length = 4 :=
  littleEndian_length 4 _

@[simp] theorem putFixed64_length (v : UInt64) : (putFixed64 v).length = 8 :=
  littleEndian_length 8 _

@[simp] theorem decodeFixed32_putFixed32 (v : UInt32) (s : Bytes) :
    decodeFixed32 (putFixed32 v ++ s) = v := by
  have ht : (putFixed32 v ++ s).take 4 = putFixed32 v :=
    List.take_left' (putFixed32_length v)
  rw [decodeFixed32, ht, putFixed32, ofLittleEndian_littleEndian]
  rw [Nat.mod_eq_of_lt (by simpa using v.toNat_lt), UInt32.ofNat_toNat]

@[simp] theorem decodeFixed64_putFixed64 (v : UInt64) (s : Bytes) :
    decodeFixed64 (putFixed64 v ++ s) = v := by
  have ht : (putFixed64 v ++ s).take 8 = putFixed64 v :=
    List.take_left' (putFixed64_length v)
  rw [decodeFixed64, ht, putFixed64, ofLittleEndian_littleEndian]
  rw [Nat.mod_eq_of_lt (by simpa using v.toNat_lt), UInt64.ofNat_toNat]

theorem littleEndian_ofLittleEndian (p : Bytes) :
    littleEndian p.length (ofLittleEndian p) = p := by
  induction p with
  | nil => rfl
  | cons b rest ih =>
      have hb := b.toNat_lt
      have hlow : UInt8.ofNat (b.toNat + 256 * ofLittleEndian rest) = b := by
        apply UInt8.toNat_inj.mp
        rw [UInt8.toNat_ofNat', Nat.add_mul_mod_self_left, Nat.mod_eq_of_lt hb]
      have hhigh : (b.toNat + 256 * ofLittleEndian rest) / 256 = ofLittleEndian rest := by
        rw [Nat.add_mul_div_left _ _ (by decide), Nat.div_eq_of_lt hb, Nat.zero_add]
      rw [List.length_cons, littleEndian, ofLittleEndian, hlow, hhigh, ih]

theorem ofLittleEndian_lt (p : Bytes) : ofLittleEndian p < 256 ^ p.length := by
  induction p with
  | nil => decide
  | cons b rest ih =>
      have hb := b.toNat_lt
      rw [List.length_cons, Nat.pow_succ, ofLittleEndian]
      omega

/-- Four bytes are the encoding of what they decode to. -/
theorem putFixed32_decodeFixed32 {p : Bytes} (h : p.length = 4) :
    putFixed32 (decodeFixed32 p) = p := by
  have hlt := ofLittleEndian_lt p
  have hle := littleEndian_ofLittleEndian p
  rw [h] at hlt hle
  rw [putFixed32, decodeFixed32, List.take_of_length_le (Nat.le_of_eq h), UInt32.toNat_ofNat',
    Nat.mod_eq_of_lt (by simpa using hlt), hle]

/-- Eight bytes are the encoding of what they decode to. -/
theorem putFixed64_decodeFixed64 {p : Bytes} (h : 8 ≤ p.length) :
    putFixed64 (decodeFixed64 p) = p.take 8 := by
  have hlen : (p.take 8).length = 8 := by rw [List.length_take]; omega
  have hlt := ofLittleEndian_lt (p.take 8)
  have hle := littleEndian_ofLittleEndian (p.take 8)
  rw [hlen] at hlt hle
  rw [putFixed64, decodeFixed64, UInt64.toNat_ofNat', Nat.mod_eq_of_lt (by simpa using hlt), hle]

/-- The loop of the varint encoders. The first argument bounds the recursion;
the word width is always enough. -/
def putVarintLoop : Nat → Nat → Bytes
  | 0, _ => []
  | fuel + 1, v =>
      if 0x80 ≤ v then (UInt8.ofNat v ||| 0x80) :: putVarintLoop fuel (v >>> 7)
      else [UInt8.ofNat v]

def putVarint32 (v : UInt32) : Bytes := putVarintLoop 32 v.toNat

def putVarint64 (v : UInt64) : Bytes := putVarintLoop 64 v.toNat

/-- The loop of the varint decoders on words of `w` bits: `last` is the last
shift it tries, and bits moved above the word are lost. -/
def getVarintLoop {w : Nat} (last : Nat) : Nat → BitVec w → Bytes → Option (BitVec w × Bytes)
  | _, _, [] => none
  | shift, result, b :: rest =>
      if shift ≤ last then
        if b &&& 0x80 ≠ 0 then
          getVarintLoop last (shift + 7)
            (result ||| (BitVec.ofNat w (b &&& 0x7f).toNat <<< shift)) rest
        else some (result ||| (BitVec.ofNat w b.toNat <<< shift), rest)
      else none

def getVarint32Ptr (p : Bytes) : Option (UInt32 × Bytes) :=
  (getVarintLoop 28 0 (0 : BitVec 32) p).map fun r => (⟨r.1⟩, r.2)

def getVarint64Ptr (p : Bytes) : Option (UInt64 × Bytes) :=
  (getVarintLoop 63 0 (0 : BitVec 64) p).map fun r => (⟨r.1⟩, r.2)

def putLengthPrefixedSlice (value : Bytes) : Bytes :=
  putVarint32 (UInt32.ofNat value.length) ++ value

/-- The parsed slice and the advanced input. -/
def getLengthPrefixedSlice (input : Bytes) : Option (Bytes × Bytes) :=
  match getVarint32Ptr input with
  | none => none
  | some (len, p) =>
      if input.length < (input.length - p.length) + len.toNat then none
      else some (p.take len.toNat, p.drop len.toNat)

/-- The number that the groups of seven bits spell, the first group lowest. -/
def spelled (p : Bytes) : Nat := ∑ i : Fin p.length, p[i].toNat % 128 * 2 ^ (7 * i.val)

/-- The last byte, and only the last one, has no continuation bit. -/
def Terminated : Bytes → Prop
  | [] => False
  | b :: rest => if b &&& 0x80 = 0 then rest = [] else Terminated rest

/-- A group is seven bits. -/
theorem two_pow_group (n : Nat) : 2 ^ (7 * (n + 1)) = 128 * 2 ^ (7 * n) := by
  rw [Nat.mul_add, Nat.pow_add, Nat.mul_comm]

theorem spelled_cons (b : UInt8) (p : Bytes) :
    spelled (b :: p) = b.toNat % 128 + 128 * spelled p := by
  rw [spelled, spelled, Finset.mul_sum]
  refine (Fin.sum_univ_succ _).trans (congrArg₂ _ (Nat.mul_one _) (Finset.sum_congr rfl ?_))
  intro i _
  change p[i].toNat % 128 * 2 ^ (7 * (i.val + 1)) = _
  rw [two_pow_group]
  ring

@[simp] theorem spelled_nil : spelled [] = 0 := rfl

theorem spelled_singleton (b : UInt8) : spelled [b] = b.toNat % 128 := by
  rw [spelled_cons, spelled_nil, Nat.mul_zero, Nat.add_zero]

theorem spelled_append (p q : Bytes) :
    spelled (p ++ q) = spelled p + 2 ^ (7 * p.length) * spelled q := by
  induction p with
  | nil => simp
  | cons b p ih =>
      rw [List.cons_append, spelled_cons, spelled_cons, ih, List.length_cons, two_pow_group]
      ring

theorem spelled_lt (p : Bytes) : spelled p < 2 ^ (7 * p.length) := by
  induction p with
  | nil => decide
  | cons b p ih =>
      have hb := Nat.mod_lt b.toNat (show 0 < 128 by decide)
      rw [spelled_cons, List.length_cons, two_pow_group]
      omega

/-- Bits are added above the ones already there, and those above the word are lost. -/
theorem or_shiftLeft_toNat {w s : Nat} (x : Nat) {r : BitVec w} (hr : r.toNat < 2 ^ s) :
    (r ||| (BitVec.ofNat w x <<< s)).toNat = (r.toNat + x * 2 ^ s) % 2 ^ w := by
  have hdisjoint : r &&& (BitVec.ofNat w x <<< s) = 0#w := by
    apply BitVec.eq_of_getLsbD_eq
    intro i _
    rw [BitVec.getLsbD_and, BitVec.getLsbD_shiftLeft, BitVec.getLsbD_zero]
    by_cases hi : i < s
    · simp [hi]
    · have hle : (2 : Nat) ^ s ≤ 2 ^ i := Nat.pow_le_pow_right (by decide) (by omega)
      have hbit : r.getLsbD i = false := Nat.testBit_lt_two_pow (by omega)
      rw [hbit, Bool.false_and]
  rw [← BitVec.add_eq_or_of_and_eq_zero _ _ hdisjoint, BitVec.toNat_add, BitVec.toNat_shiftLeft,
    BitVec.toNat_ofNat, Nat.shiftLeft_eq, Nat.add_mod_mod, Nat.add_mod, Nat.mod_mul_mod,
    ← Nat.add_mod]

theorem and_high_eq_zero_iff (b : UInt8) : b &&& 0x80 = 0 ↔ b.toNat < 128 := by
  have hall : ∀ x : Fin 256, UInt8.ofNat x.val &&& 0x80 = 0 ↔ x.val < 128 := by decide +kernel
  have h := hall ⟨b.toNat, b.toNat_lt⟩
  rwa [UInt8.ofNat_toNat] at h

theorem and_low_toNat (b : UInt8) : (b &&& 0x7f).toNat = b.toNat % 128 := by
  rw [UInt8.toNat_and]
  exact Nat.and_two_pow_sub_one_eq_mod b.toNat 7

/-- What the decoder makes of a whole number: the value that is spelled, as far as
it fits the word, if the last shift is not beyond the last one it tries. -/
theorem getVarintLoop_terminated {w last : Nat} {front : Bytes} (hfront : Terminated front)
    (rest : Bytes) {shift : Nat} {r : BitVec w} (hr : r.toNat < 2 ^ shift) :
    getVarintLoop last shift r (front ++ rest) =
      if shift + 7 * front.length ≤ last + 7 then
        some (BitVec.ofNat w (r.toNat + spelled front * 2 ^ shift), rest)
      else none := by
  induction front generalizing shift r with
  | nil => exact hfront.elim
  | cons b front ih =>
      rw [Terminated] at hfront
      rw [List.cons_append, getVarintLoop]
      by_cases hb : b &&& 0x80 = 0
      · rw [if_pos hb] at hfront
        subst hfront
        rw [List.length_singleton, spelled_singleton,
          Nat.mod_eq_of_lt ((and_high_eq_zero_iff b).mp hb), if_neg (not_not_intro hb)]
        by_cases hshift : shift ≤ last
        · rw [if_pos hshift, if_pos (by omega)]
          congr 2
          apply BitVec.eq_of_toNat_eq
          rw [or_shiftLeft_toNat _ hr, BitVec.toNat_ofNat]
        · rw [if_neg hshift, if_neg (by omega)]
      · rw [if_neg hb] at hfront
        have hor := or_shiftLeft_toNat (b &&& 0x7f).toNat hr
        rw [and_low_toNat] at hor
        have hnext : (r ||| (BitVec.ofNat w (b.toNat % 128) <<< shift)).toNat <
            2 ^ (shift + 7) := by
          have hle := Nat.mod_le (r.toNat + b.toNat % 128 * 2 ^ shift) (2 ^ w)
          have hgroup : b.toNat % 128 * 2 ^ shift ≤ 127 * 2 ^ shift :=
            Nat.mul_le_mul_right _ (by omega)
          rw [hor, Nat.pow_add]
          omega
        rw [if_pos hb, and_low_toNat, ih hfront hnext, List.length_cons]
        by_cases hshift : shift ≤ last
        · have hlength : shift + 7 + 7 * front.length = shift + 7 * (front.length + 1) := by ring
          rw [if_pos hshift, hlength]
          congr 3
          apply BitVec.eq_of_toNat_eq
          rw [BitVec.toNat_ofNat, BitVec.toNat_ofNat, hor, Nat.mod_add_mod, spelled_cons,
            Nat.pow_add]
          congr 1
          ring
        · rw [if_neg hshift, if_neg (by omega)]

/-- A decoder that sees continuation bytes only runs out of input. -/
theorem getVarintLoop_continued {w : Nat} (last : Nat) {p : Bytes}
    (hp : ∀ b ∈ p, b &&& 0x80 ≠ 0) (shift : Nat) (r : BitVec w) :
    getVarintLoop last shift r p = none := by
  induction p generalizing shift r with
  | nil => rfl
  | cons b p ih =>
      rw [getVarintLoop, if_pos (hp b List.mem_cons_self),
        ih (fun c hc => hp c (List.mem_cons_of_mem b hc))]
      split <;> rfl

/-- A byte string starts with a number, or all its bytes continue one. -/
theorem terminated_or_continued (p : Bytes) :
    (∃ front rest, p = front ++ rest ∧ Terminated front) ∨ ∀ b ∈ p, b &&& 0x80 ≠ 0 := by
  induction p with
  | nil => exact Or.inr (by simp)
  | cons b p ih =>
      by_cases hb : b &&& 0x80 = 0
      · exact Or.inl ⟨[b], p, rfl, by rw [Terminated, if_pos hb]⟩
      · rcases ih with ⟨front, rest, rfl, hfront⟩ | hp
        · exact Or.inl ⟨b :: front, rest, rfl, by rwa [Terminated, if_neg hb]⟩
        · exact Or.inr (List.forall_mem_cons.mpr ⟨hb, hp⟩)

theorem getVarint32Ptr_terminated {front : Bytes} (hfront : Terminated front) (rest : Bytes) :
    getVarint32Ptr (front ++ rest) =
      if front.length ≤ 5 then some (UInt32.ofNat (spelled front), rest) else none := by
  have hzero : (0 : BitVec 32).toNat < 2 ^ 0 := by decide
  rw [getVarint32Ptr, getVarintLoop_terminated hfront rest hzero]
  by_cases hlength : front.length ≤ 5
  · rw [if_pos hlength, if_pos (by omega)]
    simp [UInt32.ofNat]
  · rw [if_neg hlength, if_neg (by omega)]
    rfl

theorem getVarint64Ptr_terminated {front : Bytes} (hfront : Terminated front) (rest : Bytes) :
    getVarint64Ptr (front ++ rest) =
      if front.length ≤ 10 then some (UInt64.ofNat (spelled front), rest) else none := by
  have hzero : (0 : BitVec 64).toNat < 2 ^ 0 := by decide
  rw [getVarint64Ptr, getVarintLoop_terminated hfront rest hzero]
  by_cases hlength : front.length ≤ 10
  · rw [if_pos hlength, if_pos (by omega)]
    simp [UInt64.ofNat]
  · rw [if_neg hlength, if_neg (by omega)]
    rfl

theorem getVarint32Ptr_continued {p : Bytes} (hp : ∀ b ∈ p, b &&& 0x80 ≠ 0) :
    getVarint32Ptr p = none := by
  rw [getVarint32Ptr, getVarintLoop_continued 28 hp]
  rfl

theorem getVarint64Ptr_continued {p : Bytes} (hp : ∀ b ∈ p, b &&& 0x80 ≠ 0) :
    getVarint64Ptr p = none := by
  rw [getVarint64Ptr, getVarintLoop_continued 63 hp]
  rfl

theorem Terminated.length_pos {p : Bytes} (h : Terminated p) : 1 ≤ p.length := by
  cases p with
  | nil => exact h.elim
  | cons b p => exact Nat.succ_le_succ (Nat.zero_le _)

/-- A decoded number takes its bytes from the front. -/
theorem getVarint32Ptr_split {p rest : Bytes} {v : UInt32} (h : getVarint32Ptr p = some (v, rest)) :
    ∃ front, p = front ++ rest ∧ 1 ≤ front.length ∧ front.length ≤ 5 := by
  rcases terminated_or_continued p with ⟨front, tail, rfl, hfront⟩ | hp
  · rw [getVarint32Ptr_terminated hfront] at h
    by_cases hlength : front.length ≤ 5
    · rw [if_pos hlength] at h
      obtain ⟨-, rfl⟩ := Prod.mk.inj (Option.some.inj h)
      exact ⟨front, rfl, hfront.length_pos, hlength⟩
    · rw [if_neg hlength] at h
      cases h
  · rw [getVarint32Ptr_continued hp] at h
    cases h

theorem continuation_byte (v : Nat) :
    (UInt8.ofNat v ||| 0x80) &&& 0x80 ≠ 0 ∧ (UInt8.ofNat v ||| 0x80).toNat % 128 = v % 128 := by
  have hall : ∀ x : Fin 256, (UInt8.ofNat x.val ||| 0x80) &&& 0x80 ≠ 0 ∧
      (UInt8.ofNat x.val ||| 0x80).toNat % 128 = x.val % 128 := by decide +kernel
  have h := hall ⟨v % 256, Nat.mod_lt _ (by decide)⟩
  have he : UInt8.ofNat (v % 256) = UInt8.ofNat v := by
    apply UInt8.toNat_inj.mp
    simp
  simp only [he] at h
  exact ⟨h.1, h.2.trans (by omega)⟩

theorem last_byte {v : Nat} (h : v < 0x80) :
    UInt8.ofNat v &&& 0x80 = 0 ∧ (UInt8.ofNat v).toNat % 128 = v := by
  have hall : ∀ x : Fin 128, UInt8.ofNat x.val &&& 0x80 = 0 ∧
      (UInt8.ofNat x.val).toNat % 128 = x.val := by decide +kernel
  exact hall ⟨v, h⟩

/-- The encoder's loop ends at its own test, and its groups spell the number. -/
theorem putVarintLoop_spec (fuel v : Nat) (h : v < 2 ^ (fuel + 1)) :
    Terminated (putVarintLoop (fuel + 1) v) ∧ spelled (putVarintLoop (fuel + 1) v) = v := by
  induction fuel generalizing v with
  | zero =>
      obtain ⟨hstop, hval⟩ := last_byte (show v < 0x80 by omega)
      rw [putVarintLoop, if_neg (by omega), Terminated, if_pos hstop, spelled_singleton]
      exact ⟨rfl, hval⟩
  | succ fuel ih =>
      rw [putVarintLoop]
      by_cases hc : 0x80 ≤ v
      · obtain ⟨hcont, hlow⟩ := continuation_byte v
        have hshift : v >>> 7 = v / 128 := Nat.shiftRight_eq_div_pow v 7
        have hpow : (2 : Nat) ^ (fuel + 1 + 1) = 2 * 2 ^ (fuel + 1) := by
          rw [Nat.pow_succ, Nat.mul_comm]
        obtain ⟨hrest, hval⟩ := ih (v >>> 7) (by omega)
        rw [if_pos hc, Terminated, if_neg hcont, spelled_cons, hlow, hval]
        exact ⟨hrest, by omega⟩
      · obtain ⟨hstop, hval⟩ := last_byte (Nat.lt_of_not_le hc)
        rw [if_neg hc, Terminated, if_pos hstop, spelled_singleton]
        exact ⟨rfl, hval⟩

theorem putVarintLoop_length_le {n : Nat} (fuel v : Nat) (hn : 0 < n) (h : v < 2 ^ (7 * n)) :
    (putVarintLoop fuel v).length ≤ n := by
  induction n generalizing fuel v with
  | zero => omega
  | succ n ih =>
      cases fuel with
      | zero => simp [putVarintLoop]
      | succ fuel =>
          rw [putVarintLoop]
          by_cases hc : 0x80 ≤ v
          · rw [if_pos hc, List.length_cons]
            have hpow := two_pow_group n
            have hpos : 0 < n := by
              rcases Nat.eq_zero_or_pos n with rfl | hp
              · omega
              · exact hp
            refine Nat.succ_le_succ (ih fuel _ hpos ?_)
            rw [Nat.shiftRight_eq_div_pow]
            omega
          · rw [if_neg hc]
            simp

theorem terminated_putVarint32 (v : UInt32) : Terminated (putVarint32 v) :=
  (putVarintLoop_spec 31 _ v.toNat_lt).1

theorem terminated_putVarint64 (v : UInt64) : Terminated (putVarint64 v) :=
  (putVarintLoop_spec 63 _ v.toNat_lt).1

theorem spelled_putVarint32 (v : UInt32) : spelled (putVarint32 v) = v.toNat :=
  (putVarintLoop_spec 31 _ v.toNat_lt).2

theorem spelled_putVarint64 (v : UInt64) : spelled (putVarint64 v) = v.toNat :=
  (putVarintLoop_spec 63 _ v.toNat_lt).2

theorem putVarint32_length_le (v : UInt32) : (putVarint32 v).length ≤ 5 :=
  putVarintLoop_length_le 32 _ (by decide) (by have := v.toNat_lt; omega)

theorem putVarint64_length_le (v : UInt64) : (putVarint64 v).length ≤ 10 :=
  putVarintLoop_length_le 64 _ (by decide) (by have := v.toNat_lt; omega)

theorem getVarint32Ptr_putVarint32 (v : UInt32) (s : Bytes) :
    getVarint32Ptr (putVarint32 v ++ s) = some (v, s) := by
  rw [getVarint32Ptr_terminated (terminated_putVarint32 v), if_pos (putVarint32_length_le v),
    spelled_putVarint32, UInt32.ofNat_toNat]

theorem getVarint64Ptr_putVarint64 (v : UInt64) (s : Bytes) :
    getVarint64Ptr (putVarint64 v ++ s) = some (v, s) := by
  rw [getVarint64Ptr_terminated (terminated_putVarint64 v), if_pos (putVarint64_length_le v),
    spelled_putVarint64, UInt64.ofNat_toNat]

theorem getLengthPrefixedSlice_put {value : Bytes} (h : value.length < 2 ^ 32) (s : Bytes) :
    getLengthPrefixedSlice (putLengthPrefixedSlice value ++ s) = some (value, s) := by
  have hlen : (UInt32.ofNat value.length).toNat = value.length := by
    rw [UInt32.toNat_ofNat', Nat.mod_eq_of_lt h]
  simp only [getLengthPrefixedSlice, putLengthPrefixedSlice, List.append_assoc,
    getVarint32Ptr_putVarint32, hlen]
  rw [if_neg (by simp only [List.length_append]; omega)]
  simp

/-- A strict prefix of an encoded number has continuation bytes only. -/
theorem Terminated.continued {p q : Bytes} (h : Terminated (p ++ q)) (hq : q ≠ []) :
    ∀ b ∈ p, b &&& 0x80 ≠ 0 := by
  induction p with
  | nil => simp
  | cons b p ih =>
      rw [List.cons_append, Terminated] at h
      split at h
      next => exact absurd (List.append_eq_nil_iff.mp h).2 hq
      next hb =>
        intro c hc
        rcases List.mem_cons.mp hc with rfl | hc
        · exact hb
        · exact ih h c hc

/-- A length-prefixed slice that is cut anywhere is not a slice. -/
theorem getLengthPrefixedSlice_torn {value p q : Bytes} (h : value.length < 2 ^ 32)
    (hsplit : putLengthPrefixedSlice value = p ++ q) (hq : q ≠ []) :
    getLengthPrefixedSlice p = none := by
  have hlen : (UInt32.ofNat value.length).toNat = value.length := by
    rw [UInt32.toNat_ofNat', Nat.mod_eq_of_lt h]
  rw [putLengthPrefixedSlice] at hsplit
  rcases List.append_eq_append_iff.mp hsplit with ⟨v, rfl, hv⟩ | ⟨c, hc, rfl⟩
  · -- the cut is behind the length
    have hshort : v.length < value.length := by
      have hpos := List.length_pos_iff.mpr hq
      rw [hv, List.length_append]
      omega
    rw [getLengthPrefixedSlice, getVarint32Ptr_putVarint32]
    simp only [hlen]
    rw [if_pos (by rw [List.length_append]; omega)]
  · rcases eq_or_ne c [] with rfl | hc'
    · -- the cut is right behind the length
      rw [List.append_nil] at hc
      subst hc
      have hpos := List.length_pos_iff.mpr hq
      rw [List.nil_append] at hpos
      have hdecode := getVarint32Ptr_putVarint32 (UInt32.ofNat value.length) []
      rw [List.append_nil] at hdecode
      rw [getLengthPrefixedSlice, hdecode]
      simp only [hlen]
      rw [if_pos (by rw [List.length_nil]; omega)]
    · have hterminated := terminated_putVarint32 (UInt32.ofNat value.length)
      rw [hc] at hterminated
      rw [getLengthPrefixedSlice, getVarint32Ptr_continued (hterminated.continued hc')]

/-- What an encoder and a decoder owe each other: a number is read back, with the
position behind it, no strict prefix is read, the encoder stops at a last byte and
stays in its buffer. -/
structure Coder {α : Type} (put : α → Bytes) (get : Bytes → Option (α × Bytes)) (room : Nat) :
    Prop where
  reads : ∀ v s, get (put v ++ s) = some (v, s)
  torn : ∀ v p q, put v = p ++ q → q ≠ [] → get p = none
  ends : ∀ v, Terminated (put v)
  fits : ∀ v, (put v).length ≤ room

/-- Both varint pairs are coders for every number of their width. -/
theorem varint_coders :
    Coder putVarint32 getVarint32Ptr 5 ∧ Coder putVarint64 getVarint64Ptr 10 := by
  constructor
  · constructor
    · exact getVarint32Ptr_putVarint32
    · intro v p q hsplit hq
      have hterminated := terminated_putVarint32 v
      rw [hsplit] at hterminated
      exact getVarint32Ptr_continued (hterminated.continued hq)
    · exact terminated_putVarint32
    · exact putVarint32_length_le
  · constructor
    · exact getVarint64Ptr_putVarint64
    · intro v p q hsplit hq
      have hterminated := terminated_putVarint64 v
      rw [hsplit] at hterminated
      exact getVarint64Ptr_continued (hterminated.continued hq)
    · exact terminated_putVarint64
    · exact putVarint64_length_le

section Overflow

/-- `n` continuation bytes, and behind them a last byte that is not below `least`. -/
def Overflows (n least : Nat) (p : Bytes) : Prop :=
  ∃ front b rest, p = front ++ b :: rest ∧ front.length = n ∧
    (∀ c ∈ front, c &&& 0x80 ≠ 0) ∧ b &&& 0x80 = 0 ∧ least ≤ b.toNat

/-- A decoder for `w` bits is right about the bytes `p`: what it accepts is the
number that the consumed bytes spell, and a number beyond its word it rejects. -/
structure ReadsSpelled {α : Type} (toNat : α → Nat) (w : Nat)
    (get : Bytes → Option (α × Bytes)) (p : Bytes) : Prop where
  value : ∀ v rest, get p = some (v, rest) → ∃ front, p = front ++ rest ∧ toNat v = spelled front
  rejects : ∀ front rest, p = front ++ rest → Terminated front → 2 ^ w ≤ spelled front →
    get p = none

/-- A slice is as long as its length prefix spells. -/
def SlicesSpelled (p : Bytes) : Prop :=
  ∀ slice rest, getLengthPrefixedSlice p = some (slice, rest) →
    ∃ front, p = front ++ (slice ++ rest) ∧ spelled front = slice.length

theorem terminated_append_last {front : Bytes} {b : UInt8}
    (hfront : ∀ c ∈ front, c &&& 0x80 ≠ 0) (hb : b &&& 0x80 = 0) :
    Terminated (front ++ [b]) := by
  induction front with
  | nil => rw [List.nil_append, Terminated, if_pos hb]
  | cons c front ih =>
      rw [List.cons_append, Terminated, if_neg (hfront c List.mem_cons_self)]
      exact ih fun d hd => hfront d (List.mem_cons_of_mem c hd)

theorem Terminated.exists_last {p : Bytes} (h : Terminated p) :
    ∃ front b, p = front ++ [b] ∧ (∀ c ∈ front, c &&& 0x80 ≠ 0) ∧ b &&& 0x80 = 0 := by
  induction p with
  | nil => exact h.elim
  | cons b p ih =>
      rw [Terminated] at h
      by_cases hb : b &&& 0x80 = 0
      · rw [if_pos hb] at h
        exact ⟨[], b, by rw [h]; rfl, by simp, hb⟩
      · rw [if_neg hb] at h
        obtain ⟨front, last, rfl, hfront, hlast⟩ := ih h
        exact ⟨b :: front, last, rfl, List.forall_mem_cons.mpr ⟨hb, hfront⟩, hlast⟩

theorem spelled_append_last (front : Bytes) {b : UInt8} (hb : b &&& 0x80 = 0) :
    spelled (front ++ [b]) = spelled front + b.toNat * 2 ^ (7 * front.length) := by
  rw [spelled_append, spelled_singleton, Nat.mod_eq_of_lt ((and_high_eq_zero_iff b).mp hb),
    Nat.mul_comm]

variable {n e : Nat}

/-- An overflowing number is too large for the word. -/
theorem Overflows.exists_spelled {p : Bytes} (h : Overflows n (2 ^ e) p) :
    ∃ front rest, p = front ++ rest ∧ Terminated front ∧ front.length = n + 1 ∧
      2 ^ (7 * n + e) ≤ spelled front := by
  obtain ⟨front, b, rest, rfl, rfl, hfront, hb, hleast⟩ := h
  refine ⟨front ++ [b], rest, by simp, terminated_append_last hfront hb, by simp, ?_⟩
  rw [spelled_append_last front hb, Nat.pow_add, Nat.mul_comm]
  exact Nat.le_trans (Nat.mul_le_mul_right _ hleast) (Nat.le_add_left _ _)

/-- A number of at most `n + 1` bytes that does not overflow fits the word. -/
theorem spelled_lt_of_not_overflows {front rest : Bytes} (hfront : Terminated front)
    (hlength : front.length ≤ n + 1) (h : ¬Overflows n (2 ^ e) (front ++ rest)) :
    spelled front < 2 ^ (7 * n + e) := by
  by_cases hn : front.length ≤ n
  · exact Nat.lt_of_lt_of_le (spelled_lt front) (Nat.pow_le_pow_right (by decide) (by omega))
  · obtain ⟨init, b, rfl, hinit, hb⟩ := hfront.exists_last
    have hinit_length : init.length = n := by
      rw [List.length_append, List.length_singleton] at hlength hn
      omega
    have hlast : b.toNat < 2 ^ e := by
      by_contra hge
      exact h ⟨init, b, rest, by simp, hinit_length, hinit, hb, Nat.le_of_not_lt hge⟩
    have hlow := spelled_lt init
    have hhigh : (b.toNat + 1) * 2 ^ (7 * n) ≤ 2 ^ e * 2 ^ (7 * n) :=
      Nat.mul_le_mul_right _ hlast
    rw [hinit_length] at hlow
    rw [spelled_append_last init hb, hinit_length, Nat.pow_add, Nat.mul_comm (2 ^ (7 * n))]
    rw [Nat.add_mul] at hhigh
    omega

/-- A decoder that takes at most `n + 1` groups into a word with room for `e` bits
of the last one is right about everything that does not overflow. -/
theorem readsSpelled_iff {α : Type} {toNat : α → Nat} {ofNat : Nat → α}
    {get : Bytes → Option (α × Bytes)} (hofNat : ∀ x, toNat (ofNat x) = x % 2 ^ (7 * n + e))
    (hget : ∀ front rest, Terminated front → get (front ++ rest) =
      if front.length ≤ n + 1 then some (ofNat (spelled front), rest) else none)
    (hcontinued : ∀ p, (∀ b ∈ p, b &&& 0x80 ≠ 0) → get p = none) (p : Bytes) :
    ReadsSpelled toNat (7 * n + e) get p ↔ ¬Overflows n (2 ^ e) p := by
  constructor
  · intro hreads hover
    obtain ⟨front, rest, rfl, hfront, hlength, hlarge⟩ := hover.exists_spelled
    have hnone := hreads.rejects front rest rfl hfront hlarge
    rw [hget front rest hfront, if_pos (Nat.le_of_eq hlength)] at hnone
    cases hnone
  · intro hover
    constructor
    · intro v rest hv
      rcases terminated_or_continued p with ⟨front, tail, rfl, hfront⟩ | hp
      · rw [hget front tail hfront] at hv
        by_cases hlength : front.length ≤ n + 1
        · rw [if_pos hlength] at hv
          obtain ⟨rfl, rfl⟩ := Prod.mk.inj (Option.some.inj hv)
          refine ⟨front, rfl, ?_⟩
          rw [hofNat, Nat.mod_eq_of_lt (spelled_lt_of_not_overflows hfront hlength hover)]
        · rw [if_neg hlength] at hv
          cases hv
      · rw [hcontinued p hp] at hv
        cases hv
    · intro front rest hsplit hfront hlarge
      subst hsplit
      rw [hget front rest hfront, if_neg]
      intro hlength
      have hlt := spelled_lt_of_not_overflows hfront hlength hover
      omega

theorem readsSpelled32_iff (p : Bytes) :
    ReadsSpelled UInt32.toNat 32 getVarint32Ptr p ↔ ¬Overflows 4 16 p :=
  readsSpelled_iff (n := 4) (e := 4) (fun _ => UInt32.toNat_ofNat')
    (fun _ rest hfront => getVarint32Ptr_terminated hfront rest)
    (fun _ hp => getVarint32Ptr_continued hp) p

theorem readsSpelled64_iff (p : Bytes) :
    ReadsSpelled UInt64.toNat 64 getVarint64Ptr p ↔ ¬Overflows 9 2 p :=
  readsSpelled_iff (n := 9) (e := 1) (fun _ => UInt64.toNat_ofNat')
    (fun _ rest hfront => getVarint64Ptr_terminated hfront rest)
    (fun _ hp => getVarint64Ptr_continued hp) p

/-- A length that is read as it is spelled gives a slice of that length. -/
theorem ReadsSpelled.slices {p : Bytes} (h : ReadsSpelled UInt32.toNat 32 getVarint32Ptr p) :
    SlicesSpelled p := by
  intro slice rest hslice
  rw [getLengthPrefixedSlice] at hslice
  split at hslice
  next => cases hslice
  next len tail hget =>
    obtain ⟨front, hfront, hlen⟩ := h.value len tail hget
    have hsize := congrArg List.length hfront
    rw [List.length_append] at hsize
    split at hslice
    next => cases hslice
    next hfits =>
      obtain ⟨rfl, rfl⟩ := Prod.mk.inj (Option.some.inj hslice)
      refine ⟨front, by rw [List.take_append_drop, hfront], ?_⟩
      rw [List.length_take, hlen]
      omega

/-- The decoders are right about all bytes but those of an overflowing number: four
continuation bytes before a last byte from 16 on, for 64 bits nine before one from
2 on. -/
theorem varint_spelled_iff (p : Bytes) :
    ((ReadsSpelled UInt32.toNat 32 getVarint32Ptr p ∧ SlicesSpelled p) ↔ ¬Overflows 4 16 p) ∧
      (ReadsSpelled UInt64.toNat 64 getVarint64Ptr p ↔ ¬Overflows 9 2 p) := by
  constructor
  · constructor
    · intro h
      exact (readsSpelled32_iff p).mp h.1
    · intro h
      have hreads := (readsSpelled32_iff p).mpr h
      exact ⟨hreads, hreads.slices⟩
  · exact readsSpelled64_iff p

/-- The five bytes that spell `2 ^ 32` are accepted as zero, also as the length of
a slice, and so are the ten bytes that spell `2 ^ 64`. -/
theorem overflowing_varint :
    ¬(ReadsSpelled UInt32.toNat 32 getVarint32Ptr [0x80, 0x80, 0x80, 0x80, 0x10] ∧
      SlicesSpelled [0x80, 0x80, 0x80, 0x80, 0x10]) ∧
    getVarint32Ptr [0x80, 0x80, 0x80, 0x80, 0x10] = some (0, []) ∧
    getLengthPrefixedSlice [0x80, 0x80, 0x80, 0x80, 0x10] = some ([], []) ∧
    spelled [0x80, 0x80, 0x80, 0x80, 0x10] = 2 ^ 32 ∧
    getVarint64Ptr [0x80, 0x80, 0x80, 0x80, 0x80, 0x80, 0x80, 0x80, 0x80, 0x02] =
      some (0, []) ∧
    spelled [0x80, 0x80, 0x80, 0x80, 0x80, 0x80, 0x80, 0x80, 0x80, 0x02] = 2 ^ 64 := by
  refine ⟨fun h => ?_, by decide, by decide, by decide, by decide, by decide⟩
  obtain ⟨front, hfront, hvalue⟩ := h.1.value 0 [] (by decide)
  rw [List.append_nil] at hfront
  subst hfront
  exact absurd hvalue (by decide)

end Overflow

end ClomDB.Coding
