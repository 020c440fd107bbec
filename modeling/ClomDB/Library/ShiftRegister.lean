import Mathlib.Logic.Function.Iterate

/-!
# Shift registers over a feedback polynomial

A register of `w` bits that moves one place down in each step and takes the
polynomial in whenever a one falls out. A message goes in bit by bit, the bit
on the way out decides together with the message bit. Steps are linear over
exclusive or, and that is what lets a table do `n` of them at once: the low
`n` bits choose the row and the others only move.
-/

namespace ShiftRegister

variable {w : Nat} (p : BitVec w)

/-- One place down. -/
def step (c : BitVec w) : BitVec w := if c.getLsbD 0 then p ^^^ (c >>> 1) else c >>> 1

/-- One message bit goes in. -/
def feed (c : BitVec w) (bit : Bool) : BitVec w :=
  if c.getLsbD 0 ^^ bit then p ^^^ (c >>> 1) else c >>> 1

/-- The register after a message. -/
def run (c : BitVec w) (message : List Bool) : BitVec w := message.foldl (feed p) c

/-- The low `n` bits of a word, the lowest first. -/
def lowBits {m : Nat} (n : Nat) (b : BitVec m) : List Bool := (List.range n).map b.getLsbD

theorem run_append (c : BitVec w) (xs ys : List Bool) :
    run p c (xs ++ ys) = run p (run p c xs) ys :=
  List.foldl_append

theorem step_xor (a b : BitVec w) : step p (a ^^^ b) = step p a ^^^ step p b := by
  rw [step, step, step, BitVec.getLsbD_xor, BitVec.ushiftRight_xor_distrib]
  generalize a >>> 1 = x
  generalize b >>> 1 = y
  cases a.getLsbD 0 <;> cases b.getLsbD 0
  · rfl
  · change p ^^^ (x ^^^ y) = x ^^^ (p ^^^ y)
    rw [← BitVec.xor_assoc, BitVec.xor_comm p x, BitVec.xor_assoc]
  · exact (BitVec.xor_assoc ..).symm
  · -- the polynomial is there twice
    change x ^^^ y = (p ^^^ x) ^^^ (p ^^^ y)
    rw [BitVec.xor_comm p x, BitVec.xor_assoc, ← BitVec.xor_assoc p p y, BitVec.xor_self,
      BitVec.zero_xor]

theorem iterate_step_xor (n : Nat) (a b : BitVec w) :
    (step p)^[n] (a ^^^ b) = (step p)^[n] a ^^^ (step p)^[n] b := by
  induction n generalizing a b with
  | zero => rfl
  | succ n ih => rw [Function.iterate_succ_apply, step_xor, ih]; rfl

/-- As long as zeros fall out, the register only moves. -/
theorem iterate_step_of_low {n : Nat} {c : BitVec w} (h : ∀ i < n, c.getLsbD i = false) :
    (step p)^[n] c = c >>> n := by
  induction n generalizing c with
  | zero => exact (BitVec.ushiftRight_zero c).symm
  | succ n ih =>
      have hstep : step p c = c >>> 1 := by
        rw [step, h 0 (Nat.succ_pos n), if_neg Bool.false_ne_true]
      have hrest : ∀ i < n, (c >>> 1).getLsbD i = false := fun i hi => by
        rw [BitVec.getLsbD_ushiftRight]
        exact h (1 + i) (by omega)
      rw [Function.iterate_succ_apply, hstep, ih hrest, ← BitVec.shiftRight_add, Nat.add_comm]

/-- The low `n` bits decide what `n` steps add, the other bits only move. -/
theorem iterate_step_of_agree {n : Nat} {c l : BitVec w}
    (h : ∀ i < n, c.getLsbD i = l.getLsbD i) :
    (step p)^[n] c = (step p)^[n] l ^^^ ((c ^^^ l) >>> n) := by
  have hlow : ∀ i < n, (c ^^^ l).getLsbD i = false := fun i hi => by
    rw [BitVec.getLsbD_xor, h i hi, Bool.xor_self]
  have hsplit : c = l ^^^ (c ^^^ l) := by
    rw [BitVec.xor_comm c l, ← BitVec.xor_assoc, BitVec.xor_self, BitVec.zero_xor]
  calc (step p)^[n] c
      = (step p)^[n] (l ^^^ (c ^^^ l)) := congrArg _ hsplit
    _ = (step p)^[n] l ^^^ (step p)^[n] (c ^^^ l) := iterate_step_xor p n _ _
    _ = (step p)^[n] l ^^^ ((c ^^^ l) >>> n) := by rw [iterate_step_of_low p hlow]

/-- A message bit may be laid over the register before the step. -/
theorem feed_getLsbD (c b : BitVec w) :
    feed p c (b.getLsbD 0) ^^^ (b >>> 1) = step p (c ^^^ b) := by
  rw [feed, step, BitVec.getLsbD_xor, BitVec.ushiftRight_xor_distrib]
  split
  · exact BitVec.xor_assoc ..
  · rfl

theorem lowBits_succ {m : Nat} (n : Nat) (b : BitVec m) :
    lowBits (n + 1) b = b.getLsbD 0 :: lowBits n (b >>> 1) := by
  rw [lowBits, List.range_succ_eq_map, List.map_cons, List.map_map, lowBits]
  congr 1
  apply List.map_congr_left
  intro i _
  rw [BitVec.getLsbD_ushiftRight, Nat.add_comm]
  rfl

/-- A whole word may be laid over the register before its bits are shifted in. -/
theorem run_lowBits (n : Nat) (c b : BitVec w) :
    run p c (lowBits n b) ^^^ (b >>> n) = (step p)^[n] (c ^^^ b) := by
  induction n generalizing c b with
  | zero => rw [BitVec.ushiftRight_zero]; rfl
  | succ n ih =>
      have hrest := ih (feed p c (b.getLsbD 0)) (b >>> 1)
      rw [feed_getLsbD, ← BitVec.shiftRight_add, Nat.add_comm 1 n] at hrest
      rw [lowBits_succ]
      exact hrest

end ShiftRegister
