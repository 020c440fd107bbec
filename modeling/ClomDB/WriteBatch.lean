import ClomDB.Coding
import ClomDB.Library.LayeredMap

/-!
# Write batches

`write_batch.h`: a batch is the concatenation of its serialized operations,
and `Iterate` walks over the bytes and calls a handler for each operation it
decodes.

## Implementation notes

The walk calls its handler before it knows whether the rest of the bytes is
well formed. So the operations of arbitrary bytes are those decoded before the
first malformed one, and a batch built with `Put` and `Delete` has the
operations it was built from.
-/

namespace ClomDB

open Coding LayeredMap

/-- `enum class RecordType : uint8_t`. -/
def RecordType.kPut : UInt8 := 1
def RecordType.kDelete : UInt8 := 2

structure WriteBatch where
  rep : Bytes := []
  count : UInt64 := 0
  deriving DecidableEq, Repr

/-- What `Iterate` needs of a handler whose state is an `H`. -/
structure Handler (H : Type) where
  put : H → Bytes → Bytes → H
  delete : H → Bytes → H

namespace WriteBatch

def put (b : WriteBatch) (key value : Bytes) : WriteBatch :=
  { rep := b.rep ++ RecordType.kPut :: (putLengthPrefixedSlice key ++ putLengthPrefixedSlice value)
    count := b.count + 1 }

def delete (b : WriteBatch) (key : Bytes) : WriteBatch :=
  { rep := b.rep ++ RecordType.kDelete :: putLengthPrefixedSlice key
    count := b.count + 1 }

def clear (_ : WriteBatch) : WriteBatch := {}

def empty (b : WriteBatch) : Bool := b.count == 0

def setData (b : WriteBatch) (d : Bytes) : WriteBatch := { b with rep := d }

section Iterate

variable {H : Type} (handler : Handler H)

/-- The loop of `Iterate`. Every round takes the tag away, so the length of the
input is fuel enough. -/
def iterateLoop : Nat → Bytes → UInt64 → H → Status × UInt64 × H
  | _, [], seen, h => (.OK, seen, h)
  | 0, _ :: _, seen, h => (.OK, seen, h)
  | fuel + 1, tag :: input, seen, h =>
      if tag = RecordType.kPut then
        match getLengthPrefixedSlice input with
        | none => (.corruption [.lit "malformed WriteBatch (put)"], seen, h)
        | some (key, input) =>
            match getLengthPrefixedSlice input with
            | none => (.corruption [.lit "malformed WriteBatch (put)"], seen, h)
            | some (value, input) =>
                iterateLoop fuel input (seen + 1) (handler.put h key value)
      else if tag = RecordType.kDelete then
        match getLengthPrefixedSlice input with
        | none => (.corruption [.lit "malformed WriteBatch (delete)"], seen, h)
        | some (key, input) => iterateLoop fuel input (seen + 1) (handler.delete h key)
      else (.corruption [.lit "unknown WriteBatch tag"], seen, h)

def iterate (b : WriteBatch) (h : H) : Status × H :=
  let r := iterateLoop handler b.rep.length b.rep 0 h
  if r.1.ok then
    if r.2.1 ≠ b.count then (.corruption [.lit "WriteBatch count mismatch"], r.2.2)
    else (.OK, r.2.2)
  else (r.1, r.2.2)

end Iterate

end WriteBatch

/-- One operation of a batch. -/
inductive BatchOp where
  | put (key value : Bytes)
  | delete (key : Bytes)
  deriving DecidableEq, Repr

namespace BatchOp

def key : BatchOp → Bytes
  | .put key _ => key
  | .delete key => key

/-- The value an operation leaves under its key. -/
def value? : BatchOp → Option Bytes
  | .put _ value => some value
  | .delete _ => none

def layer (op : BatchOp) : Layer Bytes Bytes := single op.key op.value?

@[simp] theorem layer_put (key value : Bytes) :
    (put key value).layer = single key (some value) := rfl

@[simp] theorem layer_delete (key : Bytes) : (delete key).layer = single key none := rfl

def encode : BatchOp → Bytes
  | .put key value =>
      RecordType.kPut :: (putLengthPrefixedSlice key ++ putLengthPrefixedSlice value)
  | .delete key => RecordType.kDelete :: putLengthPrefixedSlice key

/-- The lengths of an operation fit their length fields. -/
def Short : BatchOp → Prop
  | .put key value => key.length < 2 ^ 32 ∧ value.length < 2 ^ 32
  | .delete key => key.length < 2 ^ 32

/-- The effect of an operation on a plain map. -/
def apply (c : Bytes → Option Bytes) (op : BatchOp) : Bytes → Option Bytes :=
  Function.update c op.key op.value?

end BatchOp

namespace WriteBatch

/-- One operation issued on a batch. -/
def add (b : WriteBatch) : BatchOp → WriteBatch
  | .put key value => b.put key value
  | .delete key => b.delete key

/-- The batch built by issuing operations one after the other. -/
def ofOps (ops : List BatchOp) : WriteBatch := ops.foldl add {}

/-- The handler that writes down its calls. -/
def recorder : Handler (List BatchOp) where
  put ops key value := ops ++ [.put key value]
  delete ops key := ops ++ [.delete key]

/-- The operations `Iterate` makes of some bytes. -/
def decodeOps (rep : Bytes) : List BatchOp := (iterateLoop recorder rep.length rep 0 []).2.2

end WriteBatch

/-- The call a handler receives for an operation. -/
def Handler.call {H : Type} (handler : Handler H) (h : H) : BatchOp → H
  | .put key value => handler.put h key value
  | .delete key => handler.delete h key

namespace WriteBatch

/-- Every handler receives the calls that the recorder writes down. -/
theorem iterateLoop_eq {H : Type} (handler : Handler H) (h : H) (fuel : Nat) (input : Bytes)
    (seen : UInt64) (ops : List BatchOp) :
    iterateLoop handler fuel input seen (ops.foldl handler.call h) =
      ((iterateLoop recorder fuel input seen ops).1,
        (iterateLoop recorder fuel input seen ops).2.1,
        (iterateLoop recorder fuel input seen ops).2.2.foldl handler.call h) := by
  induction fuel generalizing input seen ops with
  | zero => cases input <;> rfl
  | succ fuel ih =>
      cases input with
      | nil => rfl
      | cons tag input =>
          simp only [iterateLoop]
          by_cases hput : tag = RecordType.kPut
          · simp only [if_pos hput]
            cases getLengthPrefixedSlice input with
            | none => rfl
            | some r =>
                simp only
                cases getLengthPrefixedSlice r.2 with
                | none => rfl
                | some r' =>
                    have hcall : handler.put (ops.foldl handler.call h) r.1 r'.1 =
                        (ops ++ [BatchOp.put r.1 r'.1]).foldl handler.call h := by
                      simp [Handler.call]
                    simp only [hcall]
                    exact ih r'.2 (seen + 1) _
          · simp only [if_neg hput]
            by_cases hdel : tag = RecordType.kDelete
            · simp only [if_pos hdel]
              cases getLengthPrefixedSlice input with
              | none => rfl
              | some r =>
                  have hcall : handler.delete (ops.foldl handler.call h) r.1 =
                      (ops ++ [BatchOp.delete r.1]).foldl handler.call h := by
                    simp [Handler.call]
                  simp only [hcall]
                  exact ih r.2 (seen + 1) _
            · simp only [if_neg hdel]

/-- `Iterate` with any handler, seen through the recorder. -/
theorem iterate_eq {H : Type} (handler : Handler H) (b : WriteBatch) (h : H) :
    b.iterate handler h =
      ((b.iterate recorder []).1, (decodeOps b.rep).foldl handler.call h) := by
  have heq := iterateLoop_eq handler h b.rep.length b.rep 0 []
  rw [List.foldl_nil] at heq
  simp only [iterate, heq, decodeOps]
  split
  · split <;> rfl
  · rfl

theorem add_rep (b : WriteBatch) (op : BatchOp) : (b.add op).rep = b.rep ++ op.encode := by
  cases op <;> simp [add, put, delete, BatchOp.encode]

theorem add_count (b : WriteBatch) (op : BatchOp) : (b.add op).count = b.count + 1 := by
  cases op <;> rfl

theorem foldl_add (ops : List BatchOp) (b : WriteBatch) :
    (ops.foldl add b).rep = b.rep ++ ops.flatMap BatchOp.encode ∧
      (ops.foldl add b).count = b.count + UInt64.ofNat ops.length := by
  induction ops generalizing b with
  | nil => simp
  | cons op ops ih =>
      obtain ⟨hrep, hcount⟩ := ih (b.add op)
      rw [List.foldl_cons, hrep, hcount, add_rep, add_count, List.length_cons,
        UInt64.ofNat_add, List.flatMap_cons, List.append_assoc, UInt64.add_assoc]
      exact ⟨rfl, by rw [UInt64.add_comm 1]; rfl⟩

theorem ofOps_rep (ops : List BatchOp) : (ofOps ops).rep = ops.flatMap BatchOp.encode := by
  simpa [ofOps] using (foldl_add ops {}).1

theorem ofOps_count (ops : List BatchOp) : (ofOps ops).count = UInt64.ofNat ops.length := by
  simpa [ofOps] using (foldl_add ops {}).2

/-- The walk over serialized operations meets exactly these, and goes on with
what follows them. -/
theorem iterateLoop_encode_append (ops : List BatchOp) (hops : ∀ op ∈ ops, op.Short)
    (tail : Bytes) (fuel : Nat) (seen : UInt64) (acc : List BatchOp)
    (hfuel : (ops.flatMap BatchOp.encode ++ tail).length ≤ fuel) :
    ∃ fuel', tail.length ≤ fuel' ∧
      iterateLoop recorder fuel (ops.flatMap BatchOp.encode ++ tail) seen acc =
        iterateLoop recorder fuel' tail (seen + UInt64.ofNat ops.length) (acc ++ ops) := by
  induction ops generalizing fuel seen acc with
  | nil => exact ⟨fuel, hfuel, by simp⟩
  | cons op ops ih =>
      have hop := hops op List.mem_cons_self
      have hops' : ∀ o ∈ ops, o.Short := fun o ho => hops o (List.mem_cons_of_mem _ ho)
      have hseen : seen + 1 + UInt64.ofNat ops.length =
          seen + UInt64.ofNat (op :: ops).length := by
        rw [List.length_cons, UInt64.ofNat_add, UInt64.add_assoc, UInt64.add_comm 1]
        rfl
      have hacc : acc ++ op :: ops = acc ++ [op] ++ ops := by simp
      cases op with
      | put key value =>
          simp only [List.flatMap_cons, BatchOp.encode, List.cons_append, List.length_cons,
            List.length_append, List.append_assoc] at hfuel ⊢
          obtain ⟨fuel, rfl⟩ : ∃ m, fuel = m + 1 := ⟨fuel - 1, by omega⟩
          rw [iterateLoop, if_pos rfl]
          simp only [getLengthPrefixedSlice_put hop.1, getLengthPrefixedSlice_put hop.2]
          obtain ⟨fuel', hle, heq⟩ := ih hops' fuel (seen + 1) (acc ++ [.put key value])
            (by rw [List.length_append]; omega)
          refine ⟨fuel', hle, ?_⟩
          rw [hacc, ← List.length_cons, ← hseen]
          exact heq
      | delete key =>
          simp only [List.flatMap_cons, BatchOp.encode, List.cons_append, List.length_cons,
            List.length_append, List.append_assoc] at hfuel ⊢
          obtain ⟨fuel, rfl⟩ : ∃ m, fuel = m + 1 := ⟨fuel - 1, by omega⟩
          rw [iterateLoop, if_neg (by decide), if_pos rfl]
          simp only [getLengthPrefixedSlice_put (show key.length < 2 ^ 32 from hop)]
          obtain ⟨fuel', hle, heq⟩ := ih hops' fuel (seen + 1) (acc ++ [.delete key])
            (by rw [List.length_append]; omega)
          refine ⟨fuel', hle, ?_⟩
          rw [hacc, ← List.length_cons, ← hseen]
          exact heq

theorem iterateLoop_encode (ops : List BatchOp) (hops : ∀ op ∈ ops, op.Short) (fuel : Nat)
    (seen : UInt64) (acc : List BatchOp) (hfuel : (ops.flatMap BatchOp.encode).length ≤ fuel) :
    iterateLoop recorder fuel (ops.flatMap BatchOp.encode) seen acc =
      (.OK, seen + UInt64.ofNat ops.length, acc ++ ops) := by
  obtain ⟨fuel', -, heq⟩ := iterateLoop_encode_append ops hops [] fuel seen acc (by simpa using hfuel)
  rw [List.append_nil] at heq
  rw [heq]
  cases fuel' <;> rfl

/-- The walk stops without a call inside an operation that is cut off. -/
theorem iterateLoop_torn {op : BatchOp} (hop : op.Short) {part rest : Bytes}
    (hsplit : op.encode = part ++ rest) (hpart : part ≠ []) (hrest : rest ≠ []) (fuel : Nat)
    (hfuel : part.length ≤ fuel) (seen : UInt64) (acc : List BatchOp) :
    ∃ s, s.code = .kCorruption ∧ iterateLoop recorder fuel part seen acc = (s, seen, acc) := by
  obtain ⟨tag, input, rfl⟩ := List.exists_cons_of_ne_nil hpart
  obtain ⟨fuel, rfl⟩ : ∃ m, fuel = m + 1 := ⟨fuel - 1, by rw [List.length_cons] at hfuel; omega⟩
  cases op with
  | put key value =>
      obtain ⟨rfl, hinput⟩ := List.cons.inj hsplit
      refine ⟨.corruption [.lit "malformed WriteBatch (put)"], rfl, ?_⟩
      rw [iterateLoop, if_pos rfl]
      rcases List.append_eq_append_iff.mp hinput with ⟨v, rfl, hv⟩ | ⟨k, hk, -⟩
      · -- the key is there and the value is cut off
        simp only [getLengthPrefixedSlice_put hop.1]
        simp only [getLengthPrefixedSlice_torn hop.2 hv hrest]
      · rcases eq_or_ne k [] with rfl | hk'
        · rw [List.append_nil] at hk
          have hkey := getLengthPrefixedSlice_put hop.1 []
          rw [List.append_nil] at hkey
          rw [← hk]
          simp only [hkey]
          rfl
        · simp only [getLengthPrefixedSlice_torn hop.1 hk hk']
  | delete key =>
      obtain ⟨rfl, hinput⟩ := List.cons.inj hsplit
      refine ⟨.corruption [.lit "malformed WriteBatch (delete)"], rfl, ?_⟩
      rw [iterateLoop, if_neg (by decide), if_pos rfl]
      simp only [getLengthPrefixedSlice_torn hop hinput hrest]

theorem decodeOps_encode {ops : List BatchOp} (hops : ∀ op ∈ ops, op.Short) :
    decodeOps (ops.flatMap BatchOp.encode) = ops := by
  rw [decodeOps, iterateLoop_encode ops hops _ _ _ (Nat.le_refl _)]
  simp

/-- A batch built with `Put` and `Delete` is well formed. -/
theorem iterate_ofOps {H : Type} (handler : Handler H) (h : H) {ops : List BatchOp}
    (hops : ∀ op ∈ ops, op.Short) :
    (ofOps ops).iterate handler h = (.OK, ops.foldl handler.call h) := by
  rw [iterate_eq, iterate, ofOps_rep, ofOps_count, decodeOps_encode hops,
    iterateLoop_encode ops hops _ _ _ (Nat.le_refl _)]
  simp

/-- Where a proper prefix of serialized operations ends. -/
theorem cut_flatMap {ops : List BatchOp} {pre : Bytes} (hpre : pre <+: ops.flatMap BatchOp.encode)
    (hne : pre ≠ ops.flatMap BatchOp.encode) :
    ∃ whole op later part, ops = whole ++ op :: later ∧
      pre = whole.flatMap BatchOp.encode ++ part ∧ part <+: op.encode ∧ part ≠ op.encode := by
  induction ops generalizing pre with
  | nil => exact absurd (List.prefix_nil.mp hpre) hne
  | cons op ops ih =>
      obtain ⟨rest, hrest⟩ := hpre
      rw [List.flatMap_cons] at hrest hne
      rcases List.append_eq_append_iff.mp hrest with ⟨cut, hcut, htail⟩ | ⟨pre', hpre', htail⟩
      · rcases eq_or_ne cut [] with rfl | hcut'
        · -- the cut is right behind the first operation
          rw [List.append_nil] at hcut
          have hne' : ([] : Bytes) ≠ ops.flatMap BatchOp.encode := fun h => by
            rw [← h, List.append_nil] at hne
            exact hne hcut.symm
          obtain ⟨whole, op', later, part, rfl, hpart, hprefix, hpart'⟩ :=
            ih (List.nil_prefix) hne'
          refine ⟨op :: whole, op', later, part, rfl, ?_, hprefix, hpart'⟩
          rw [List.flatMap_cons, List.append_assoc, ← hpart, List.append_nil, hcut]
        · refine ⟨[], op, ops, pre, rfl, rfl, ⟨cut, hcut.symm⟩, fun h => hcut' ?_⟩
          rw [h] at hcut
          exact List.self_eq_append_right.mp hcut
      · subst hpre'
        have hne' : pre' ≠ ops.flatMap BatchOp.encode := fun h => hne (by rw [h])
        obtain ⟨whole, op', later, part, rfl, hpart, hprefix, hpart'⟩ := ih ⟨rest, htail.symm⟩ hne'
        refine ⟨op :: whole, op', later, part, rfl, ?_, hprefix, hpart'⟩
        rw [List.flatMap_cons, List.append_assoc, ← hpart]

/-- `Iterate` over the bytes of whole operations and a part of the next one. -/
theorem iterate_cut {H : Type} (handler : Handler H) (h : H) {whole : List BatchOp} {op : BatchOp}
    {part : Bytes} (hwhole : ∀ o ∈ whole, o.Short) (hop : op.Short) (hpart : part <+: op.encode)
    (hne : part ≠ op.encode) (b : WriteBatch) :
    ∃ s, (b.setData (whole.flatMap BatchOp.encode ++ part)).iterate handler h =
        (s, whole.foldl handler.call h) ∧
      (part ≠ [] → s.code = .kCorruption) ∧
      (part = [] → b.count = UInt64.ofNat whole.length → s = .OK) := by
  obtain ⟨fuel, hle, heq⟩ := iterateLoop_encode_append whole hwhole part
    (whole.flatMap BatchOp.encode ++ part).length 0 [] (Nat.le_refl _)
  rw [List.nil_append, UInt64.zero_add] at heq
  have hwalk : ∀ s : Status, iterateLoop recorder fuel part (UInt64.ofNat whole.length) whole =
      (s, UInt64.ofNat whole.length, whole) →
      (b.setData (whole.flatMap BatchOp.encode ++ part)).iterate handler h =
        (if s.ok then if UInt64.ofNat whole.length ≠ b.count then
          .corruption [.lit "WriteBatch count mismatch"] else .OK else s,
          whole.foldl handler.call h) := by
    intro s hs
    rw [hs] at heq
    rw [iterate_eq, decodeOps, iterate]
    simp only [setData, heq]
    split
    · split <;> rfl
    · rfl
  by_cases hpart' : part = []
  · subst hpart'
    refine ⟨_, hwalk .OK (by cases fuel <;> rfl), fun hno => absurd rfl hno, fun _ hcount => ?_⟩
    rw [hcount]
    simp
  · obtain ⟨rest, hrest⟩ := hpart
    have hrest' : rest ≠ [] := fun h => by
      rw [h, List.append_nil] at hrest
      exact hne hrest
    obtain ⟨s, hs, hloop⟩ := iterateLoop_torn hop hrest.symm hpart' hrest' fuel hle
      (UInt64.ofNat whole.length) whole
    have hok : s.ok = false := by rw [Status.ok, hs]; rfl
    refine ⟨_, hwalk s hloop, fun _ => ?_, fun hnil => absurd hnil hpart'⟩
    rw [hok, if_neg (by decide), hs]

/-- A batch is read back as it was built, and from a proper prefix of its bytes
exactly the operations that are whole in it. -/
theorem iterate_truncated {H : Type} (handler : Handler H) (h : H) (ops : List BatchOp)
    (hops : ∀ op ∈ ops, op.Short) :
    (ofOps ops).iterate handler h = (.OK, ops.foldl handler.call h) ∧
      ∀ pre, pre <+: (ofOps ops).rep → pre ≠ (ofOps ops).rep →
        ∃ whole op later part, ops = whole ++ op :: later ∧
          pre = whole.flatMap BatchOp.encode ++ part ∧ part <+: op.encode ∧ part ≠ op.encode ∧
          ∀ b : WriteBatch, ∃ s,
            (b.setData pre).iterate handler h = (s, whole.foldl handler.call h) ∧
            (part ≠ [] → s.code = .kCorruption) ∧
            (part = [] → b.count = UInt64.ofNat whole.length → s = .OK) := by
  refine ⟨iterate_ofOps handler h hops, fun pre hpre hne => ?_⟩
  rw [ofOps_rep] at hpre hne
  obtain ⟨whole, op, later, part, rfl, rfl, hpart, hpart'⟩ := cut_flatMap hpre hne
  refine ⟨whole, op, later, part, rfl, rfl, hpart, hpart', fun b => ?_⟩
  exact iterate_cut handler h (fun o ho => hops o (List.mem_append_left _ ho))
    (hops op (List.mem_append_right _ List.mem_cons_self)) hpart hpart' b

theorem iterate_truncated_putDelete :
    (ofOps [.put [1] [1, 2], .delete [2]]).iterate recorder [] =
        (.OK, [BatchOp.put [1] [1, 2], .delete [2]].foldl recorder.call []) ∧
      ∀ pre, pre <+: (ofOps [.put [1] [1, 2], .delete [2]]).rep →
        pre ≠ (ofOps [.put [1] [1, 2], .delete [2]]).rep →
        ∃ whole op later part, [BatchOp.put [1] [1, 2], .delete [2]] = whole ++ op :: later ∧
          pre = whole.flatMap BatchOp.encode ++ part ∧ part <+: op.encode ∧ part ≠ op.encode ∧
          ∀ b : WriteBatch, ∃ s,
            (b.setData pre).iterate recorder [] = (s, whole.foldl recorder.call []) ∧
            (part ≠ [] → s.code = .kCorruption) ∧
            (part = [] → b.count = UInt64.ofNat whole.length → s = .OK) :=
  iterate_truncated recorder [] [.put [1] [1, 2], .delete [2]] (by simp [BatchOp.Short])

theorem getLengthPrefixedSlice_short {input s rest : Bytes}
    (h : getLengthPrefixedSlice input = some (s, rest)) : s.length < 2 ^ 32 := by
  rw [getLengthPrefixedSlice] at h
  split at h
  next => cases h
  next len p _ =>
    split at h
    next => cases h
    next =>
      obtain ⟨rfl, -⟩ := Prod.mk.inj (Option.some.inj h)
      have := len.toNat_lt
      rw [List.length_take]
      omega

/-- Decoded operations are short, because their lengths were read from 32 bits. -/
theorem iterateLoop_short (fuel : Nat) (input : Bytes) (seen : UInt64) (acc : List BatchOp)
    (hacc : ∀ op ∈ acc, op.Short) :
    ∀ op ∈ (iterateLoop recorder fuel input seen acc).2.2, op.Short := by
  have hsnoc : ∀ (acc : List BatchOp) (op : BatchOp), (∀ o ∈ acc, o.Short) → op.Short →
      ∀ o ∈ acc ++ [op], o.Short := by
    intro acc op hacc hop o ho
    rcases List.mem_append.mp ho with ho | ho
    · exact hacc o ho
    · rwa [List.mem_singleton.mp ho]
  induction fuel generalizing input seen acc with
  | zero => cases input <;> exact hacc
  | succ fuel ih =>
      cases input with
      | nil => exact hacc
      | cons tag input =>
          simp only [iterateLoop]
          by_cases hput : tag = RecordType.kPut
          · simp only [if_pos hput]
            cases hk : getLengthPrefixedSlice input with
            | none => exact hacc
            | some r =>
                simp only
                cases hv : getLengthPrefixedSlice r.2 with
                | none => exact hacc
                | some r' =>
                    exact ih r'.2 (seen + 1) _ (hsnoc acc _ hacc
                      ⟨getLengthPrefixedSlice_short hk, getLengthPrefixedSlice_short hv⟩)
          · simp only [if_neg hput]
            by_cases hdel : tag = RecordType.kDelete
            · simp only [if_pos hdel]
              cases hk : getLengthPrefixedSlice input with
              | none => exact hacc
              | some r =>
                  exact ih r.2 (seen + 1) _ (hsnoc acc (.delete r.1) hacc
                    (getLengthPrefixedSlice_short hk))
            · simp only [if_neg hdel]
              exact hacc

theorem decodeOps_short (rep : Bytes) : ∀ op ∈ decodeOps rep, op.Short :=
  iterateLoop_short _ _ _ [] (by simp)

end WriteBatch

/-- The layer that a list of operations lays over what is there. -/
def opsLayer (ops : List BatchOp) : Layer Bytes Bytes := stack (ops.map BatchOp.layer).reverse

@[simp] theorem opsLayer_nil : opsLayer [] = silent := rfl

theorem opsLayer_append (as bs : List BatchOp) :
    opsLayer (as ++ bs) = overlay (opsLayer bs) (opsLayer as) := by
  simp [opsLayer, stack_append]

theorem opsLayer_cons (op : BatchOp) (ops : List BatchOp) :
    opsLayer (op :: ops) = overlay (opsLayer ops) op.layer := by
  rw [show op :: ops = [op] ++ ops from rfl, opsLayer_append]
  simp [opsLayer, stack]

/-- Seen from above, the operations of a batch are applied in order. -/
theorem view_overlay_opsLayer (ops : List BatchOp) (l : Layer Bytes Bytes) :
    view (overlay (opsLayer ops) l) = ops.foldl BatchOp.apply (view l) := by
  induction ops generalizing l with
  | nil => simp
  | cons op ops ih =>
      rw [opsLayer_cons, overlay_assoc, ih, List.foldl_cons, BatchOp.layer, view_overlay_single]
      rfl

end ClomDB
