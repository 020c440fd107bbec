import ClomDB.Status

/-!
# The Bloom filter of one table

`bloom.h`: the key hash, the filter built from a batch of keys, and the
membership test. The filter string ends in the probe count, and the bits
before it are set and tested at the same positions.

## Implementation notes

`static_cast<int>(bits_per_key * 0.69)` is a product of doubles. For 1 to 43
bits per key the product stays away from every integer by far more than its
rounding error, and above that the clamp to 30 decides, so the exact quotient
gives the same count. `Build` divides by the number of bits, and without a bit
that is the end of the process: `none`.
-/

namespace ClomDB.BloomFilter

/-- The loop of `BloomHash` over four bytes at a time, and its tail switch. -/
def bloomHashLoop (h : UInt32) : Bytes → UInt32
  | a :: b :: c :: d :: rest =>
      let w := a.toUInt32 ||| (b.toUInt32 <<< 8) ||| (c.toUInt32 <<< 16) |||
        (d.toUInt32 <<< 24)
      let h := (h + w) * 0xc6a4a793
      bloomHashLoop (h ^^^ (h >>> 16)) rest
  | [a, b, c] =>
      let h := h + (c.toUInt32 <<< 16) + (b.toUInt32 <<< 8) + a.toUInt32
      let h := h * 0xc6a4a793
      h ^^^ (h >>> 24)
  | [a, b] =>
      let h := h + (b.toUInt32 <<< 8) + a.toUInt32
      let h := h * 0xc6a4a793
      h ^^^ (h >>> 24)
  | [a] =>
      let h := (h + a.toUInt32) * 0xc6a4a793
      h ^^^ (h >>> 24)
  | [] => h

def bloomHash (key : Bytes) : UInt32 :=
  bloomHashLoop (0xbc9f1d34 ^^^ UInt32.ofNat (key.length * 0xc6a4a793)) key

/-- The rotated hash that moves from one probe to the next. -/
def delta (h : UInt32) : UInt32 := (h >>> 17) ||| (h <<< 15)

/-- The probe count: the clamped product with `ln 2`. -/
def probeCount (bitsPerKey : Int) : Nat :=
  let k := (bitsPerKey * 69).tdiv 100
  if k < 1 then 1 else if 30 < k then 30 else k.toNat

/-- The number of bytes of the bit array. -/
def filterBytes (keyCount : Nat) (bitsPerKey : Int) : UInt64 :=
  let bits := UInt64.ofNat keyCount * UInt64.ofInt bitsPerKey
  let bits := if bits < 64 then 64 else bits
  (bits + 7) / 8

def setBit (filter : Bytes) (bitpos : Nat) : Bytes :=
  filter.modify (bitpos / 8) fun b => b ||| (1 <<< UInt8.ofNat (bitpos % 8))

def testBit (filter : Bytes) (bitpos : Nat) : Bool :=
  (filter.getD (bitpos / 8) 0 &&& (1 <<< UInt8.ofNat (bitpos % 8))) != 0

/-- The probe loop of `Build`: `k` probes from hash `h`. -/
def setProbes (bits : Nat) (delta : UInt32) : Nat → UInt32 → Bytes → Bytes
  | 0, _, filter => filter
  | k + 1, h, filter => setProbes bits delta k (h + delta) (setBit filter (h.toNat % bits))

/-- The probe loop of `MayContain`. -/
def testProbes (bits : Nat) (delta : UInt32) : Nat → UInt32 → Bytes → Bool
  | 0, _, _ => true
  | k + 1, h, filter =>
      if testBit filter (h.toNat % bits) then testProbes bits delta k (h + delta) filter
      else false

def build (keys : List Bytes) (bitsPerKey : Int) : Option Bytes :=
  let k := probeCount bitsPerKey
  let bytes := filterBytes keys.length bitsPerKey
  let bits := bytes * 8
  let filter := List.replicate bytes.toNat 0 ++ [UInt8.ofNat k]
  if bits = 0 ∧ keys ≠ [] then none
  else some (keys.foldl (fun filter key =>
    setProbes bits.toNat (delta (bloomHash key)) k (bloomHash key) filter) filter)

def mayContain (filter key : Bytes) : Bool :=
  if filter.length < 1 then true
  else
    let bits := (filter.length - 1) * 8
    if bits = 0 then true
    else
      let k := (filter.getD (filter.length - 1) 0).toNat
      if 30 < k then true
      else testProbes bits (delta (bloomHash key)) k (bloomHash key) filter

@[simp] theorem setBit_length (filter : Bytes) (p : Nat) :
    (setBit filter p).length = filter.length := by
  simp [setBit]

/-- The byte with the new bit has it. -/
theorem bit_or_self (b : UInt8) (i : Nat) (hi : i < 8) :
    (b ||| (1 <<< UInt8.ofNat i)) &&& (1 <<< UInt8.ofNat i) ≠ 0 := by
  have hall : ∀ j : Fin 8, ∀ x : Fin 256,
      (UInt8.ofNat x.val ||| (1 <<< UInt8.ofNat j.val)) &&& (1 <<< UInt8.ofNat j.val) ≠ 0 := by
    decide +kernel
  have h := hall ⟨i, hi⟩ ⟨b.toNat, b.toNat_lt⟩
  simpa using h

/-- A new bit takes no other bit away. -/
theorem bit_or_mono {b m : UInt8} (n : UInt8) (h : b &&& m ≠ 0) : (b ||| n) &&& m ≠ 0 := by
  intro hz
  apply h
  have hz' : (b ||| n).toBitVec &&& m.toBitVec = 0#8 := congrArg UInt8.toBitVec hz
  apply UInt8.toBitVec_inj.mp
  change b.toBitVec &&& m.toBitVec = 0#8
  rw [UInt8.toBitVec_or, BitVec.and_comm, BitVec.and_or_distrib_left,
    BitVec.or_eq_zero_iff] at hz'
  rw [BitVec.and_comm]
  exact hz'.1

theorem testBit_setBit_same {filter : Bytes} {p : Nat} (h : p / 8 < filter.length) :
    testBit (setBit filter p) p = true := by
  simp only [testBit, setBit, bne_iff_ne]
  rw [List.getD_eq_getElem?_getD, List.getElem?_modify_eq, List.getElem?_eq_getElem h]
  exact bit_or_self _ _ (Nat.mod_lt _ (by decide))

theorem testBit_setBit_mono {filter : Bytes} {p : Nat} (q : Nat)
    (h : testBit filter p = true) : testBit (setBit filter q) p = true := by
  simp only [testBit, bne_iff_ne, List.getD_eq_getElem?_getD] at h ⊢
  simp only [setBit, List.getElem?_modify]
  cases hf : filter[p / 8]? with
  | none => simp [hf] at h
  | some b =>
      rw [hf] at h
      simp only [Option.getD_some] at h ⊢
      change (if _ then _ else b) &&& _ ≠ 0
      split
      · exact bit_or_mono _ h
      · exact h

@[simp] theorem setProbes_length (bits : Nat) (d : UInt32) (k : Nat) (h : UInt32)
    (filter : Bytes) : (setProbes bits d k h filter).length = filter.length := by
  induction k generalizing h filter with
  | zero => rfl
  | succ k ih => simp [setProbes, ih]

theorem testBit_setProbes_mono (bits : Nat) (d : UInt32) (k : Nat) (h : UInt32)
    {filter : Bytes} {p : Nat} (hp : testBit filter p = true) :
    testBit (setProbes bits d k h filter) p = true := by
  induction k generalizing h filter with
  | zero => exact hp
  | succ k ih => exact ih _ (testBit_setBit_mono _ hp)

/-- Bits that are there stay there under more insertions, so a probe sequence
found before is found after. -/
theorem testProbes_mono {bits : Nat} {d : UInt32} {filter filter' : Bytes}
    (hmono : ∀ p, testBit filter p = true → testBit filter' p = true) (k : Nat) (h : UInt32)
    (ht : testProbes bits d k h filter = true) : testProbes bits d k h filter' = true := by
  induction k generalizing h with
  | zero => rfl
  | succ k ih =>
      simp only [testProbes] at ht ⊢
      split at ht
      next hb => rw [if_pos (hmono _ hb)]; exact ih _ ht
      next => exact absurd ht (by decide)

theorem testProbes_setProbes {bits : Nat} (hbits : 0 < bits) (d : UInt32) (k : Nat)
    (h : UInt32) {filter : Bytes} (hlen : bits ≤ filter.length * 8) :
    testProbes bits d k h (setProbes bits d k h filter) = true := by
  induction k generalizing h filter with
  | zero => rfl
  | succ k ih =>
      have hpos : h.toNat % bits / 8 < filter.length := by
        have := Nat.mod_lt h.toNat hbits
        omega
      have hset := testBit_setProbes_mono bits d k (h + d) (testBit_setBit_same hpos)
      rw [setProbes, testProbes, if_pos hset]
      exact ih _ (by simpa using hlen)

/-- A probe sequence touches bytes of the bit array only. -/
theorem getD_setProbes {bits : Nat} (hbits : 0 < bits) (d : UInt32) (k : Nat) (h : UInt32)
    (filter : Bytes) {i : Nat} (hi : bits ≤ i * 8) :
    (setProbes bits d k h filter).getD i 0 = filter.getD i 0 := by
  induction k generalizing h filter with
  | zero => rfl
  | succ k ih =>
      have hne : h.toNat % bits / 8 ≠ i := by
        have := Nat.mod_lt h.toNat hbits
        omega
      rw [setProbes, ih]
      simp only [setBit, List.getD_eq_getElem?_getD, List.getElem?_modify, if_neg hne]
      exact congrArg (Option.getD · 0) (id_map _)

/-- What the insertion loop of `Build` keeps, and what it adds. -/
theorem foldl_setProbes {bits k : Nat} (hbits : 0 < bits) (keys : List Bytes)
    (filter : Bytes) (hlen : bits ≤ filter.length * 8) :
    let out := keys.foldl (fun filter key =>
      setProbes bits (delta (bloomHash key)) k (bloomHash key) filter) filter
    out.length = filter.length ∧
      (∀ i, bits ≤ i * 8 → out.getD i 0 = filter.getD i 0) ∧
      (∀ p, testBit filter p = true → testBit out p = true) ∧
      ∀ key ∈ keys, testProbes bits (delta (bloomHash key)) k (bloomHash key) out = true := by
  induction keys generalizing filter with
  | nil => exact ⟨rfl, fun _ _ => rfl, fun _ h => h, by simp⟩
  | cons key keys ih =>
      obtain ⟨h₁, h₂, h₃, h₄⟩ := ih
        (setProbes bits (delta (bloomHash key)) k (bloomHash key) filter)
        (by simpa using hlen)
      simp only [List.foldl_cons]
      refine ⟨by simpa using h₁, fun i hi => ?_, fun p hp => ?_, ?_⟩
      · rw [h₂ i hi, getD_setProbes hbits _ _ _ _ hi]
      · exact h₃ p (testBit_setProbes_mono _ _ _ _ hp)
      · intro x hx
        rcases List.mem_cons.mp hx with rfl | hx
        · exact testProbes_mono h₃ _ _ (testProbes_setProbes hbits _ _ _ hlen)
        · exact h₄ x hx

theorem probeCount_le (bitsPerKey : Int) : probeCount bitsPerKey ≤ 30 := by
  simp only [probeCount]
  split
  · omega
  · split <;> omega

/-- The bit count of `Build` does not wrap: its byte count is already a quotient. -/
theorem filterBytes_mul_toNat (n : Nat) (bitsPerKey : Int) :
    (filterBytes n bitsPerKey * 8).toNat = (filterBytes n bitsPerKey).toNat * 8 := by
  have h : (filterBytes n bitsPerKey).toNat ≤ (2 ^ 64 - 1) / 8 := by
    simp only [filterBytes, UInt64.toNat_div]
    have := UInt64.toNat_lt ((if UInt64.ofNat n * UInt64.ofInt bitsPerKey < 64 then 64
      else UInt64.ofNat n * UInt64.ofInt bitsPerKey) + 7)
    exact Nat.div_le_div_right (by omega)
  rw [UInt64.toNat_mul]
  exact Nat.mod_eq_of_lt (by simp; omega)

/-- A filter that could be built says yes to every key it was built from,
whatever the configured number of bits. -/
theorem mayContain_of_build {keys : List Bytes} {bitsPerKey : Int} {filter key : Bytes}
    (hb : build keys bitsPerKey = some filter) (hk : key ∈ keys) :
    mayContain filter key = true := by
  simp only [build] at hb
  split at hb
  next => exact absurd hb (by simp)
  next hne =>
    have hbits0 : filterBytes keys.length bitsPerKey * 8 ≠ 0 :=
      fun h => hne ⟨h, List.ne_nil_of_mem hk⟩
    have hmul := filterBytes_mul_toNat keys.length bitsPerKey
    have hpos : 0 < (filterBytes keys.length bitsPerKey * 8).toNat :=
      Nat.pos_of_ne_zero fun h => hbits0 (UInt64.toNat_inj.mp (by simpa using h))
    generalize hn : (filterBytes keys.length bitsPerKey).toNat = n at *
    generalize hk' : probeCount bitsPerKey = k at *
    have hk30 : k ≤ 30 := hk' ▸ probeCount_le bitsPerKey
    rw [hmul] at hb hpos
    have hroom : n * 8 ≤ (List.replicate n 0 ++ [UInt8.ofNat k]).length * 8 := by
      rw [List.length_append, List.length_replicate]
      omega
    obtain ⟨hlen, hlast, -, hall⟩ := foldl_setProbes (k := k) hpos keys
      (List.replicate n 0 ++ [UInt8.ofNat k]) hroom
    rw [Option.some.inj hb] at hlen hlast hall
    have hlen' : filter.length = n + 1 := by simpa using hlen
    have hcount : (filter.getD n 0).toNat = k := by
      rw [hlast n (Nat.le_refl _)]
      simp
      omega
    have hsub : filter.length - 1 = n := by omega
    rw [mayContain, if_neg (by omega)]
    simp only [hsub, hcount]
    rw [if_neg (by omega), if_neg (by omega)]
    exact hall key hk

/-- The bit positions that `k` probes from hash `h` visit, in order. -/
def probePositions (bits : Nat) (delta : UInt32) : Nat → UInt32 → List Nat
  | 0, _ => []
  | k + 1, h => h.toNat % bits :: probePositions bits delta k (h + delta)

/-- The positions probed for a key. -/
def keyPositions (bits k : Nat) (key : Bytes) : List Nat :=
  probePositions bits (delta (bloomHash key)) k (bloomHash key)

/-- `Build` sets the probed positions. -/
theorem setProbes_eq_foldl (bits : Nat) (d : UInt32) (k : Nat) (h : UInt32) (filter : Bytes) :
    setProbes bits d k h filter = (probePositions bits d k h).foldl setBit filter := by
  induction k generalizing h filter with
  | zero => rfl
  | succ k ih =>
      rw [setProbes, probePositions, List.foldl_cons]
      exact ih _ _

/-- `MayContain` tests the probed positions. -/
theorem testProbes_eq_all (bits : Nat) (d : UInt32) (k : Nat) (h : UInt32) (filter : Bytes) :
    testProbes bits d k h filter = (probePositions bits d k h).all (testBit filter) := by
  induction k generalizing h with
  | zero => rfl
  | succ k ih =>
      rw [testProbes, probePositions, List.all_cons, ih]
      cases testBit filter (h.toNat % bits) <;> rfl

theorem lt_of_mem_probePositions {bits : Nat} (hbits : 0 < bits) (d : UInt32) (k : Nat)
    (h : UInt32) {p : Nat} (hp : p ∈ probePositions bits d k h) : p < bits := by
  induction k generalizing h with
  | zero => cases hp
  | succ k ih =>
      rcases List.mem_cons.mp hp with rfl | hp
      · exact Nat.mod_lt _ hbits
      · exact ih _ hp

/-- Every key of a batch sets its own positions. -/
theorem foldl_setProbes_eq (bits k : Nat) (keys : List Bytes) (filter : Bytes) :
    keys.foldl (fun filter key =>
        setProbes bits (delta (bloomHash key)) k (bloomHash key) filter) filter =
      (keys.flatMap (keyPositions bits k)).foldl setBit filter := by
  induction keys generalizing filter with
  | nil => rfl
  | cons key keys ih =>
      rw [List.foldl_cons, ih, List.flatMap_cons, List.foldl_append, setProbes_eq_foldl]
      rfl

/-- What a built filter is: its bit array with the positions of all keys set,
and behind it the probe count. -/
theorem build_eq {keys : List Bytes} {bitsPerKey : Int} {filter : Bytes}
    (hpos : 0 < (filterBytes keys.length bitsPerKey).toNat)
    (hb : build keys bitsPerKey = some filter) :
    filter = (keys.flatMap (keyPositions ((filterBytes keys.length bitsPerKey).toNat * 8)
        (probeCount bitsPerKey))).foldl setBit
          (List.replicate (filterBytes keys.length bitsPerKey).toNat 0 ++
            [UInt8.ofNat (probeCount bitsPerKey)]) ∧
      filter.length = (filterBytes keys.length bitsPerKey).toNat + 1 ∧
      filter.getD (filterBytes keys.length bitsPerKey).toNat 0 =
        UInt8.ofNat (probeCount bitsPerKey) := by
  have hmul := filterBytes_mul_toNat keys.length bitsPerKey
  simp only [build] at hb
  split at hb
  next => cases hb
  rw [hmul] at hb
  generalize (filterBytes keys.length bitsPerKey).toNat = n at hpos hb ⊢
  generalize probeCount bitsPerKey = k at hb ⊢
  have hroom : n * 8 ≤ (List.replicate n 0 ++ [UInt8.ofNat k]).length * 8 := by
    rw [List.length_append, List.length_replicate]
    omega
  obtain ⟨hlen, hlast, -, -⟩ := foldl_setProbes (k := k) (Nat.mul_pos hpos (by decide)) keys
    (List.replicate n 0 ++ [UInt8.ofNat k]) hroom
  have hout := Option.some.inj hb
  rw [hout] at hlen hlast
  refine ⟨?_, by simpa using hlen, ?_⟩
  · rw [← hout, foldl_setProbes_eq]
  · rw [hlast n (Nat.le_refl _)]
    simp

/-- `MayContain` on a filter string of `n` bytes and a probe count. -/
theorem mayContain_eq_all {filter : Bytes} {n k : Nat} (hpos : 0 < n)
    (hlen : filter.length = n + 1) (hcount : filter.getD n 0 = UInt8.ofNat k) (hk : k ≤ 30)
    (key : Bytes) : mayContain filter key = (keyPositions (n * 8) k key).all (testBit filter) := by
  have hsub : filter.length - 1 = n := by omega
  have hnat : (UInt8.ofNat k).toNat = k := by
    rw [UInt8.toNat_ofNat', Nat.mod_eq_of_lt (by omega)]
  rw [mayContain, if_neg (by omega)]
  simp only [hsub, hcount, hnat]
  rw [if_neg (by omega), if_neg (by omega), testProbes_eq_all]
  rfl

theorem probeCount_pos (bitsPerKey : Int) : 1 ≤ probeCount bitsPerKey := by
  simp only [probeCount]
  split
  · omega
  · split <;> omega

/-- The bits that `Build` asks for, at least 64. -/
def leastBits (keyCount : Nat) (bitsPerKey : Int) : UInt64 :=
  let bits := UInt64.ofNat keyCount * UInt64.ofInt bitsPerKey
  if bits < 64 then 64 else bits

theorem filterBytes_eq (keyCount : Nat) (bitsPerKey : Int) :
    filterBytes keyCount bitsPerKey = (leastBits keyCount bitsPerKey + 7) / 8 := rfl

/-- The conversion of a negative number wraps. -/
theorem ofInt_toNat (i : Int) : ((UInt64.ofInt i).toNat : Int) = i % 2 ^ 64 := by
  rw [UInt64.ofInt, UInt64.toNat_ofNat']
  omega

theorem product_toNat (keyCount : Nat) (x : UInt64) :
    (UInt64.ofNat keyCount * x).toNat = keyCount * x.toNat % 2 ^ 64 := by
  rw [UInt64.toNat_mul, UInt64.toNat_ofNat', Nat.mod_mul_mod]

theorem leastBits_toNat {keyCount : Nat} {bitsPerKey : Int}
    (h : keyCount * (UInt64.ofInt bitsPerKey).toNat < 2 ^ 64) :
    (leastBits keyCount bitsPerKey).toNat =
      max 64 (keyCount * (UInt64.ofInt bitsPerKey).toNat) := by
  have hprod := product_toNat keyCount (UInt64.ofInt bitsPerKey)
  have h64 : (64 : UInt64).toNat = 64 := rfl
  rw [Nat.mod_eq_of_lt h] at hprod
  simp only [leastBits, UInt64.lt_iff_toNat_lt, hprod, h64]
  by_cases hlt : keyCount * (UInt64.ofInt bitsPerKey).toNat < 64
  · rw [if_pos hlt, h64, Nat.max_eq_left (Nat.le_of_lt hlt)]
  · rw [if_neg hlt, hprod, Nat.max_eq_right (Nat.le_of_not_lt hlt)]

theorem leastBits_add_toNat {keyCount : Nat} {bitsPerKey : Int}
    (h : keyCount * (UInt64.ofInt bitsPerKey).toNat + 7 < 2 ^ 64) :
    (leastBits keyCount bitsPerKey + 7).toNat = (leastBits keyCount bitsPerKey).toNat + 7 := by
  have hleast := leastBits_toNat (show keyCount * (UInt64.ofInt bitsPerKey).toNat < 2 ^ 64 by omega)
  have h7 : (7 : UInt64).toNat = 7 := rfl
  rw [UInt64.toNat_add, h7]
  exact Nat.mod_eq_of_lt (by omega)

/-- Where nothing wraps the bit array has at least its 64 bits. -/
theorem eight_le_filterBytes {keyCount : Nat} {bitsPerKey : Int}
    (h : keyCount * (UInt64.ofInt bitsPerKey).toNat + 7 < 2 ^ 64) :
    8 ≤ (filterBytes keyCount bitsPerKey).toNat := by
  have hleast := leastBits_toNat (show keyCount * (UInt64.ofInt bitsPerKey).toNat < 2 ^ 64 by omega)
  have h8 : (8 : UInt64).toNat = 8 := rfl
  rw [filterBytes_eq, UInt64.toNat_div, leastBits_add_toNat h, h8]
  omega

theorem product_le (keyCount : Nat) {bitsPerKey : Int} (hnonneg : 0 ≤ bitsPerKey) :
    (keyCount * (UInt64.ofInt bitsPerKey).toNat : Int) ≤ keyCount * bitsPerKey := by
  have hle : ((UInt64.ofInt bitsPerKey).toNat : Int) ≤ bitsPerKey := by
    rw [ofInt_toNat]
    omega
  exact Int.mul_le_mul_of_nonneg_left hle (Int.natCast_nonneg keyCount)

/-- Without a wrap the bit array is not empty. -/
theorem filterBytes_pos {keyCount : Nat} {bitsPerKey : Int} (hnonneg : 0 ≤ bitsPerKey)
    (hbits : keyCount * bitsPerKey + 7 < 2 ^ 64) :
    0 < (filterBytes keyCount bitsPerKey).toNat := by
  have hle := product_le keyCount hnonneg
  have hfits : keyCount * (UInt64.ofInt bitsPerKey).toNat + 7 < 2 ^ 64 := by
    have : (keyCount * (UInt64.ofInt bitsPerKey).toNat : Int) + 7 < 2 ^ 64 := by omega
    exact_mod_cast this
  exact Nat.lt_of_lt_of_le (by decide) (eight_le_filterBytes hfits)

/-- A filter can be built when its number of bits does not wrap. -/
theorem exists_build {keys : List Bytes} {bitsPerKey : Int} (hnonneg : 0 ≤ bitsPerKey)
    (hbits : keys.length * bitsPerKey + 7 < 2 ^ 64) :
    ∃ filter, build keys bitsPerKey = some filter := by
  have hpos := filterBytes_pos hnonneg hbits
  have hne : filterBytes keys.length bitsPerKey * 8 ≠ 0 := fun h => by
    have hmul := filterBytes_mul_toNat keys.length bitsPerKey
    rw [h, show (0 : UInt64).toNat = 0 from rfl] at hmul
    omega
  exact ⟨_, if_neg fun h => hne h.1⟩

/-- A filter has no false negatives: `Build` sets and `MayContain` tests the same
positions, all of them in the bit array before the byte of the probe count. -/
theorem no_false_negatives (keys : List Bytes) {bitsPerKey : Int} (hnonneg : 0 ≤ bitsPerKey)
    (hbits : keys.length * bitsPerKey + 7 < 2 ^ 64) :
    ∃ filter n k, build keys bitsPerKey = some filter ∧
      (∀ key ∈ keys, mayContain filter key = true) ∧
      1 ≤ k ∧ k ≤ 30 ∧ k = probeCount bitsPerKey ∧
      filter.length = n + 1 ∧ filter.getD n 0 = UInt8.ofNat k ∧
      filter = (keys.flatMap (keyPositions (n * 8) k)).foldl setBit
        (List.replicate n 0 ++ [UInt8.ofNat k]) ∧
      (∀ key, mayContain filter key = (keyPositions (n * 8) k key).all (testBit filter)) ∧
      ∀ key, ∀ p ∈ keyPositions (n * 8) k key, p / 8 < n := by
  obtain ⟨filter, hb⟩ := exists_build hnonneg hbits
  have hpos := filterBytes_pos hnonneg hbits
  obtain ⟨heq, hlen, hcount⟩ := build_eq hpos hb
  refine ⟨filter, (filterBytes keys.length bitsPerKey).toNat, probeCount bitsPerKey, hb,
    fun key hk => mayContain_of_build hb hk, probeCount_pos _, probeCount_le _, rfl, hlen, hcount,
    heq, fun key => mayContain_eq_all hpos hlen hcount (probeCount_le _) key, fun key p hp => ?_⟩
  have := lt_of_mem_probePositions (Nat.mul_pos hpos (by decide)) _ _ _ hp
  omega

theorem no_false_negatives_twoKeys :
    ∃ filter n k, build [[7], [1, 2, 3, 4, 5]] 10 = some filter ∧
      (∀ key ∈ ([[7], [1, 2, 3, 4, 5]] : List Bytes), mayContain filter key = true) ∧
      1 ≤ k ∧ k ≤ 30 ∧ k = probeCount 10 ∧
      filter.length = n + 1 ∧ filter.getD n 0 = UInt8.ofNat k ∧
      filter = (([[7], [1, 2, 3, 4, 5]] : List Bytes).flatMap (keyPositions (n * 8) k)).foldl setBit
        (List.replicate n 0 ++ [UInt8.ofNat k]) ∧
      (∀ key, mayContain filter key = (keyPositions (n * 8) k key).all (testBit filter)) ∧
      ∀ key, ∀ p ∈ keyPositions (n * 8) k key, p / 8 < n :=
  no_false_negatives [[7], [1, 2, 3, 4, 5]] (by decide) (by decide)

/-- The arithmetic of `Build` as it is written: no remainder modulo zero, no `size_t`
operation that wraps, no byte written outside the bit array. -/
structure SizesExact (keys : List Bytes) (bitsPerKey : Int) : Prop where
  divides : build keys bitsPerKey ≠ none
  product : (UInt64.ofNat keys.length * UInt64.ofInt bitsPerKey).toNat =
    keys.length * (UInt64.ofInt bitsPerKey).toNat
  rounding : (leastBits keys.length bitsPerKey + 7).toNat =
    (leastBits keys.length bitsPerKey).toNat + 7
  bits : (filterBytes keys.length bitsPerKey * 8).toNat =
    (filterBytes keys.length bitsPerKey).toNat * 8
  inside : ∀ key ∈ keys, ∀ p ∈ keyPositions (filterBytes keys.length bitsPerKey * 8).toNat
    (probeCount bitsPerKey) key, p / 8 < (filterBytes keys.length bitsPerKey).toNat

/-- The product and the addition decide, the clamp and the way back add nothing. -/
theorem sizesExact_iff (keys : List Bytes) (bitsPerKey : Int) :
    SizesExact keys bitsPerKey ↔
      keys.length * (UInt64.ofInt bitsPerKey).toNat + 7 < 2 ^ 64 := by
  constructor
  · intro h
    have hlt := UInt64.toNat_lt (UInt64.ofNat keys.length * UInt64.ofInt bitsPerKey)
    rw [h.product] at hlt
    have hround := UInt64.toNat_lt (leastBits keys.length bitsPerKey + 7)
    rw [h.rounding, leastBits_toNat hlt] at hround
    omega
  · intro h
    have hbits := filterBytes_mul_toNat keys.length bitsPerKey
    have hbytes := eight_le_filterBytes h
    have hne : filterBytes keys.length bitsPerKey * 8 ≠ 0 := fun hz => by
      rw [hz, show (0 : UInt64).toNat = 0 from rfl] at hbits
      omega
    constructor
    · rw [build, if_neg fun hz => hne hz.1]
      exact Option.some_ne_none _
    · rw [product_toNat, Nat.mod_eq_of_lt (by omega)]
    · exact leastBits_add_toNat h
    · exact hbits
    · intro key _ p hp
      rw [hbits] at hp
      have hlt := lt_of_mem_probePositions (by omega) _ _ _ hp
      omega

/-- For a nonempty batch and any `int`, `Build` computes the sizes it asks for if the
number of bits per key is not negative and the rounded number of bits fits. Apart from
the conversion itself a negative number can only stay unnoticed with a single key. -/
theorem build_sizes_iff {keys : List Bytes} (hkeys : keys ≠ []) (bitsPerKey : Int32) :
    (SizesExact keys bitsPerKey.toInt ∧
        ((UInt64.ofInt bitsPerKey.toInt).toNat : Int) = bitsPerKey.toInt ↔
      0 ≤ bitsPerKey.toInt ∧ keys.length * bitsPerKey.toInt + 7 < 2 ^ 64) ∧
    (SizesExact keys bitsPerKey.toInt ↔
      0 ≤ bitsPerKey.toInt ∧ keys.length * bitsPerKey.toInt + 7 < 2 ^ 64 ∨
        keys.length = 1 ∧ bitsPerKey.toInt ≤ -8) := by
  have hlo := bitsPerKey.le_toInt
  have hhi := bitsPerKey.toInt_lt
  have hcast := ofInt_toNat bitsPerKey.toInt
  have hpos := List.length_pos_iff.mpr hkeys
  rw [sizesExact_iff]
  generalize bitsPerKey.toInt = b at hlo hhi hcast ⊢
  generalize (UInt64.ofInt b).toNat = x at hcast ⊢
  generalize keys.length = n at hpos ⊢
  by_cases hb : 0 ≤ b
  · obtain rfl : (x : Int) = b := by omega
    have hfits : n * x + 7 < 2 ^ 64 ↔ (n * x : Int) + 7 < 2 ^ 64 := by exact_mod_cast Iff.rfl
    rw [hfits]
    constructor
    · exact ⟨fun h => ⟨hb, h.1⟩, fun h => ⟨h.2, rfl⟩⟩
    · exact ⟨fun h => Or.inl ⟨hb, h⟩, fun h => h.elim And.right fun h => by omega⟩
  · have hx : (x : Int) = b + 2 ^ 64 := by omega
    constructor
    · exact ⟨fun h => by omega, fun h => absurd h.1 hb⟩
    · -- two keys or more double a number that is almost `2 ^ 64`
      by_cases hn : n = 1
      · subst hn
        constructor
        · intro h
          exact Or.inr ⟨rfl, by omega⟩
        · intro h
          omega
      · have hdouble : 2 * x ≤ n * x := Nat.mul_le_mul_right x (by omega)
        constructor
        · intro h
          omega
        · intro h
          omega

theorem build_sizes_iff_oneKey :
    (SizesExact [[7]] (10 : Int32).toInt ∧
        ((UInt64.ofInt (10 : Int32).toInt).toNat : Int) = (10 : Int32).toInt ↔
      0 ≤ (10 : Int32).toInt ∧ ([[7]] : List Bytes).length * (10 : Int32).toInt + 7 < 2 ^ 64) ∧
    (SizesExact [[7]] (10 : Int32).toInt ↔
      0 ≤ (10 : Int32).toInt ∧ ([[7]] : List Bytes).length * (10 : Int32).toInt + 7 < 2 ^ 64 ∨
        ([[7]] : List Bytes).length = 1 ∧ (10 : Int32).toInt ≤ -8) :=
  build_sizes_iff (by decide) 10

/-- With one key and -1 bits per key the rounding wraps to zero bytes, and `Build`
divides by zero. -/
theorem build_minusOne :
    build [[7]] (-1 : Int32).toInt = none ∧ ¬SizesExact [[7]] (-1 : Int32).toInt := by
  have hnone : build [[7]] (-1 : Int32).toInt = none := by decide
  exact ⟨hnone, fun h => h.divides hnone⟩

end ClomDB.BloomFilter
