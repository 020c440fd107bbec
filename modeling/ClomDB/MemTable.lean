import ClomDB.WriteBatch
import ClomDB.Table
import Std.Data.ExtTreeMap

/-!
# The memtable

`memtable.h`: the sorted map of the newest writes, tombstones included, and
the list of entries a flush makes of it.

## Implementation notes

`std::map` is a tree map ordered by the bytewise order of the keys, so its
entries in key order are the run that a flush writes.
-/

namespace ClomDB

open Std LayeredMap SSTable

structure MemValue where
  deleted : Bool := false
  value : Bytes := []
  deriving DecidableEq, Repr

structure MemTable where
  table : ExtTreeMap Bytes MemValue := ∅
  approxBytes : UInt64 := 0

namespace MemTable

def put (m : MemTable) (key value : Bytes) : MemTable :=
  { table := m.table.insert key ⟨false, value⟩
    approxBytes := m.approxBytes + UInt64.ofNat (key.length + value.length) }

def delete (m : MemTable) (key : Bytes) : MemTable :=
  { table := m.table.insert key ⟨true, []⟩
    approxBytes := m.approxBytes + UInt64.ofNat key.length }

/-- `MemTable::Get`: `none` is the return value `false`. -/
def get (m : MemTable) (key : Bytes) : Option Found :=
  (m.table[key]?).map fun mv => if mv.deleted then none else some mv.value

def approximateBytes (m : MemTable) : UInt64 := m.approxBytes

def entryCount (m : MemTable) : UInt64 := UInt64.ofNat m.table.size

def empty (m : MemTable) : Bool := m.table.isEmpty

def clear (_ : MemTable) : MemTable := {}

/-- `MemTableHandler` of `db.cpp`. -/
def handler : Handler MemTable where
  put := put
  delete := delete

/-- The entry `FlushMemTableLocked` makes of a key and its value. -/
def flushEntry (key : Bytes) (mv : MemValue) : SSTableEntry :=
  if mv.deleted then ⟨key, .kDelete, []⟩ else ⟨key, .kPut, mv.value⟩

def flushEntries (m : MemTable) : List SSTableEntry :=
  m.table.toList.map fun p => flushEntry p.1 p.2

/-- The layer a memtable stands for. -/
def layer (m : MemTable) : Layer Bytes Bytes := m.get

/-- Every length fits the length fields of the file formats. -/
def Short (m : MemTable) : Prop :=
  ∀ (k : Bytes) (mv : MemValue), m.table[k]? = some mv → k.length < 2 ^ 32 ∧ mv.value.length < 2 ^ 32

theorem short_empty : Short {} := by
  intro k mv h
  exact absurd h (by simp)

@[simp] theorem layer_empty : layer {} = silent := by
  funext k
  simp [layer, get, silent]

theorem layer_call (m : MemTable) (op : BatchOp) :
    layer (handler.call m op) = overlay op.layer m.layer := by
  funext k
  have heq : ∀ a b : Bytes, compare a b = .eq ↔ b = a := fun a b =>
    ⟨fun h => (LawfulEqCmp.eq_of_compare h).symm, fun h => h ▸ ReflCmp.compare_self⟩
  cases op with
  | put key value =>
      rw [BatchOp.layer_put, overlay_single]
      simp only [layer, get, Handler.call, handler, put, ExtTreeMap.getElem?_insert, heq]
      split <;> rfl
  | delete key =>
      rw [BatchOp.layer_delete, overlay_single]
      simp only [layer, get, Handler.call, handler, delete, ExtTreeMap.getElem?_insert, heq]
      split <;> rfl

/-- Applying operations lays their layer over the memtable. -/
theorem layer_foldl (ops : List BatchOp) (m : MemTable) :
    layer (ops.foldl handler.call m) = overlay (opsLayer ops) m.layer := by
  induction ops generalizing m with
  | nil => simp
  | cons op ops ih => rw [List.foldl_cons, ih, layer_call, opsLayer_cons, overlay_assoc]

/-- What an operation puts under its key. -/
def written : BatchOp → MemValue
  | .put _ value => ⟨false, value⟩
  | .delete _ => ⟨true, []⟩

theorem table_call (m : MemTable) (op : BatchOp) :
    (handler.call m op).table = m.table.insert op.key (written op) := by
  cases op <;> rfl

/-- What holds of every entry and of every operation holds of every entry after them. -/
theorem all_foldl {P : Bytes → MemValue → Prop} {ops : List BatchOp}
    (hops : ∀ op ∈ ops, P op.key (written op)) {m : MemTable}
    (h : ∀ k mv, m.table[k]? = some mv → P k mv) (k : Bytes) (mv : MemValue)
    (hk : (ops.foldl handler.call m).table[k]? = some mv) : P k mv := by
  induction ops generalizing m with
  | nil => exact h k mv hk
  | cons op ops ih =>
      refine ih (fun o ho => hops o (List.mem_cons_of_mem _ ho)) (fun k mv hk => ?_) hk
      rw [table_call, ExtTreeMap.getElem?_insert] at hk
      split at hk
      next heq =>
        rw [← LawfulEqCmp.eq_of_compare heq, ← Option.some.inj hk]
        exact hops op List.mem_cons_self
      next => exact h k mv hk

theorem short_foldl {ops : List BatchOp} (hops : ∀ op ∈ ops, op.Short) {m : MemTable}
    (h : m.Short) : (ops.foldl handler.call m).Short := by
  refine all_foldl (fun op hop => ?_) h
  have hshort := hops op hop
  cases op with
  | put key value => exact hshort
  | delete key => exact ⟨hshort, by simp [written]⟩

/-- Operations on different new keys bring one entry each. -/
theorem size_foldl {ops : List BatchOp} (hnodup : (ops.map BatchOp.key).Nodup) {m : MemTable}
    (h : ∀ op ∈ ops, op.key ∉ m.table) :
    (ops.foldl handler.call m).table.size = m.table.size + ops.length := by
  induction ops generalizing m with
  | nil => rfl
  | cons op ops ih =>
      obtain ⟨hfresh, hnodup'⟩ := List.nodup_cons.mp hnodup
      rw [List.foldl_cons, ih hnodup' fun o ho => ?_, table_call, ExtTreeMap.size_insert,
        if_neg (by simpa using h op List.mem_cons_self), List.length_cons]
      · omega
      · rw [table_call, ExtTreeMap.mem_insert]
        rintro (heq | hold)
        · exact hfresh (LawfulEqCmp.eq_of_compare heq ▸ List.mem_map_of_mem ho)
        · exact h o (List.mem_cons_of_mem _ ho) hold

theorem empty_call (m : MemTable) (op : BatchOp) : (handler.call m op).empty = false := by
  rw [empty, table_call]
  exact ExtTreeMap.isEmpty_eq_false_iff.mpr ExtTreeMap.insert_ne_empty

/-- Something is in a memtable once an operation is applied. -/
theorem empty_foldl {ops : List BatchOp} (hne : ops ≠ []) (m : MemTable) :
    (ops.foldl handler.call m).empty = false := by
  induction ops generalizing m with
  | nil => exact absurd rfl hne
  | cons op ops ih =>
      rw [List.foldl_cons]
      cases ops with
      | nil => exact empty_call m op
      | cons op' ops => exact ih (List.cons_ne_nil _ _) _

section Flush

variable {m : MemTable}

theorem flushEntry_key (key : Bytes) (mv : MemValue) : (flushEntry key mv).key = key := by
  rw [flushEntry]
  split <;> rfl

theorem flushEntry_said (key : Bytes) (mv : MemValue) :
    (flushEntry key mv).said = if mv.deleted then none else some mv.value := by
  rw [flushEntry]
  split <;> rfl

/-- The flushed entries say what the memtable says. -/
theorem layerOf_flushEntries (m : MemTable) : layerOf m.flushEntries = m.layer := by
  funext k
  rw [layerOf, flushEntries, KeyedRun.find_toList (f := flushEntry) fun _ _ _ => flushEntry_key _ _,
    Option.map_map, layer, get]
  congr 1
  funext mv
  exact flushEntry_said k mv

theorem flushEntries_length : m.flushEntries.length = m.table.size := by
  rw [flushEntries, List.length_map, ExtTreeMap.length_toList]

theorem flushEntries_eq_nil : m.flushEntries = [] ↔ m.empty = true := by
  rw [flushEntries, List.map_eq_nil_iff, empty, ExtTreeMap.isEmpty_iff]
  exact ExtTreeMap.toList_eq_nil_iff

/-- The table a flush writes. -/
def toTable (m : MemTable) (hm : m.Short) (hne : m.empty = false) : Table where
  entries := m.flushEntries
  nonempty := fun h => by rw [flushEntries_eq_nil.mp h] at hne; cases hne
  ascending := KeyedRun.ascending_toList (f := flushEntry) fun _ _ _ => flushEntry_key _ _
  valid := by
    intro e he
    obtain ⟨p, hp, rfl⟩ := List.mem_map.mp he
    obtain ⟨hk, hv⟩ := hm p.1 p.2 (ExtTreeMap.mem_toList_iff_getElem?_eq_some.mp hp)
    simp only [flushEntry]
    split
    · exact ⟨hk, by simp, Or.inr ⟨rfl, rfl⟩⟩
    · exact ⟨hk, hv, Or.inl rfl⟩

theorem layer_of_empty (h : m.empty = true) : m.layer = silent := by
  funext k
  rw [← layerOf_flushEntries, flushEntries_eq_nil.mpr h]
  rfl

end Flush

end MemTable

end ClomDB
