import ClomDB.SSTable
import ClomDB.Library.LayeredMap

/-!
# Tables and their files

A table is the list of entries one SSTable file stands for. The writer turns a
table into a file that stores it, a reader opened on that file belongs to the
table, and the two decoders of the reader give back the table's entries.

## Implementation notes

The filter of a stored table is any filter that lets the table's keys pass, so
that nothing depends on the options a table was once written with. A failing
read never gives a wrong entry: a full decode ends in an error, a point lookup
in the answer that the key is not there.
-/

namespace ClomDB

open FaultProgram FileSystem FileSystem.World Coding SSTable

namespace SSTable

/-- What an entry says of its key. -/
def SSTableEntry.said (e : SSTableEntry) : Option Bytes :=
  if e.type = .kDelete then none else some e.value

/-- Entries as the engine makes them: lengths fit the length fields and a
tombstone carries no value. -/
structure SSTableEntry.Valid (e : SSTableEntry) : Prop where
  key_lt : e.key.length < 2 ^ 32
  value_lt : e.value.length < 2 ^ 32
  type : e.type = .kPut ∨ e.type = .kDelete ∧ e.value = []

/-- A run of entries that may be written to a file. -/
structure Table where
  entries : List SSTableEntry
  nonempty : entries ≠ []
  ascending : KeyedRun.Ascending SSTableEntry.key entries
  valid : ∀ e ∈ entries, e.Valid

/-- The layer a list of entries stands for. -/
def layerOf (entries : List SSTableEntry) : LayeredMap.Layer Bytes Bytes := fun k =>
  (KeyedRun.find SSTableEntry.key k entries).map SSTableEntry.said

namespace Table

def layer (t : Table) : LayeredMap.Layer Bytes Bytes := layerOf t.entries

def minKey (t : Table) : Bytes := (t.entries.head t.nonempty).key

def maxKey (t : Table) : Bytes := (t.entries.getLast t.nonempty).key

end Table

/-- The data section without the offsets. -/
def encodeEntries (entries : List SSTableEntry) : Bytes := entries.flatMap encodeEntry

/-- The index section that goes with the data section. -/
def indexOf (entries : List SSTableEntry) : Bytes := encodeIndex (layout 0 entries).2

/-- The whole file for a given filter. -/
def tableImage (entries : List SSTableEntry) (filter : Bytes) : Bytes :=
  encodeEntries entries ++ (indexOf entries ++ (filter ++
    encodeFooter (UInt64.ofNat (encodeEntries entries).length)
      (UInt64.ofNat (indexOf entries).length)
      (UInt64.ofNat (encodeEntries entries).length + UInt64.ofNat (indexOf entries).length)
      (UInt64.ofNat filter.length)))

/-- The bytes of a file that stores the table. -/
def Table.StoredAs (t : Table) (data : Bytes) : Prop :=
  ∃ filter, (∀ e ∈ t.entries, BloomFilter.mayContain filter e.key = true) ∧
    data = tableImage t.entries filter ∧ data.length ≤ maxFileBytes

/-- The reader that `SSTableReader::Open` makes of such a file. -/
structure Table.ReadBy (t : Table) (path : Path) (r : SSTableReader) : Prop where
  path : r.path = path
  index : r.index = (layout 0 t.entries).2.map fun p => ⟨p.1, p.2⟩
  filter : ∀ e ∈ t.entries, BloomFilter.mayContain r.filter e.key = true
  minKey : r.minKey = t.minKey
  maxKey : r.maxKey = t.maxKey

theorem layout_fst (offset : UInt64) (entries : List SSTableEntry) :
    (layout offset entries).1 = encodeEntries entries := by
  induction entries generalizing offset with
  | nil => rfl
  | cons e es ih => simp only [layout, ih, encodeEntries, List.flatMap_cons]

theorem layout_keys (offset : UInt64) (entries : List SSTableEntry) :
    (layout offset entries).2.map Prod.fst = entries.map SSTableEntry.key := by
  induction entries generalizing offset with
  | nil => rfl
  | cons e es ih => simp only [layout, List.map_cons, ih]

@[simp] theorem layout_length (offset : UInt64) (entries : List SSTableEntry) :
    (layout offset entries).2.length = entries.length := by
  simpa using congrArg List.length (layout_keys offset entries)

@[simp] theorem encodeFooter_length (a b c d : UInt64) :
    (encodeFooter a b c d).length = kSSTableFooterSize := by
  simp [encodeFooter, kSSTableFooterSize]

theorem encodeEntries_append (es fs : List SSTableEntry) :
    encodeEntries (es ++ fs) = encodeEntries es ++ encodeEntries fs :=
  List.flatMap_append

theorem encodeEntries_cons (e : SSTableEntry) (es : List SSTableEntry) :
    encodeEntries (e :: es) = encodeEntry e ++ encodeEntries es := rfl

/-- What the index says of a key: the entry and where the bytes before it end. -/
theorem find_layout {k : Bytes} {offset : UInt64} {entries : List SSTableEntry}
    {p : Bytes × UInt64} (h : KeyedRun.find Prod.fst k (layout offset entries).2 = some p) :
    ∃ pre e post, entries = pre ++ e :: post ∧ e.key = k ∧
      KeyedRun.find SSTableEntry.key k entries = some e ∧
      p.2 = offset + UInt64.ofNat (encodeEntries pre).length := by
  induction entries generalizing offset with
  | nil => simp [layout, KeyedRun.find] at h
  | cons a es ih =>
      simp only [layout] at h
      rw [KeyedRun.find_cons] at h
      by_cases hk : a.key = k
      · rw [if_pos hk] at h
        refine ⟨[], a, es, rfl, hk, ?_, ?_⟩
        · rw [KeyedRun.find_cons, if_pos hk]
        · rw [← Option.some.inj h]
          simp [encodeEntries]
      · rw [if_neg hk] at h
        obtain ⟨pre, e, post, rfl, hek, hfind, hp⟩ := ih h
        refine ⟨a :: pre, e, post, rfl, hek, ?_, ?_⟩
        · rw [KeyedRun.find_cons, if_neg hk, hfind]
        · rw [hp, encodeEntries_cons, List.length_append, UInt64.ofNat_add, UInt64.add_assoc]

theorem find_layout_eq_none {k : Bytes} {offset : UInt64} {entries : List SSTableEntry}
    (h : KeyedRun.find Prod.fst k (layout offset entries).2 = none) :
    KeyedRun.find SSTableEntry.key k entries = none := by
  rw [KeyedRun.find_eq_none_iff] at h ⊢
  intro e he hek
  have hmem : k ∈ (layout offset entries).2.map Prod.fst := by
    rw [layout_keys]
    exact List.mem_map.mpr ⟨e, he, hek⟩
  obtain ⟨p, hp, hpk⟩ := List.mem_map.mp hmem
  exact h p hp hpk

section Decoding

variable {E : Env} {w : World} {content rest : Bytes} {pos : Nat}

/-- The cursor moves over what it has read. -/
theorem drop_of_append {x : Bytes} (h : content.drop pos = x ++ rest) :
    content.drop (pos + x.length) = rest := by
  rw [← List.drop_drop, h, List.drop_left]

theorem reads_readVarintBytes {bs : Bytes} (n : Nat) (tmp : Bytes)
    (h : content.drop pos = bs ++ rest) (hbs : Terminated bs) (hn : bs.length ≤ n) :
    Reads (readVarintBytes content n pos tmp)
      (· = some (tmp ++ bs, pos + bs.length)) (· = none) w := by
  induction bs generalizing n pos tmp with
  | nil => exact absurd hbs (by simp [Terminated])
  | cons b bs ih =>
      obtain ⟨n, rfl⟩ : ∃ m, n = m + 1 := ⟨n - 1, by simp only [List.length_cons] at hn; omega⟩
      rw [readVarintBytes]
      have hsplit : content.drop pos = [b] ++ (bs ++ rest) := by simpa using h
      refine Reads.bind (reads_fread (n := 1) hsplit rfl (by decide)) (fun got hgot => ?_)
        fun got hlen => ?_
      · subst hgot
        simp only
        by_cases hb : b &&& 0x80 = 0
        · rw [if_pos hb]
          rw [Terminated, if_pos hb] at hbs
          exact Reads.ret (by simp [hbs])
        · rw [if_neg hb]
          rw [Terminated, if_neg hb] at hbs
          have hdrop : content.drop (pos + 1) = bs ++ rest :=
            drop_of_append (x := [b]) (by simpa using h)
          refine (ih n (tmp ++ [b]) hdrop hbs (by simpa using hn)).mono (fun r hr => ?_)
            fun _ hr => hr
          rw [hr]
          simp [Nat.add_comm 1, Nat.add_assoc]
      · obtain rfl : got = [] := List.length_eq_zero_iff.mp (by omega)
        exact Reads.ret rfl

theorem reads_readVarint {v : UInt32} (h : content.drop pos = putVarint32 v ++ rest) :
    Reads (readVarint content pos) (· = .value v (pos + (putVarint32 v).length))
      (· = .truncated) w := by
  rw [readVarint]
  refine Reads.bind (reads_readVarintBytes 5 [] h (terminated_putVarint32 v)
    (putVarint32_length_le v)) (fun r hr => ?_) fun r hr => ?_
  · have hget := getVarint32Ptr_putVarint32 v []
    rw [List.append_nil] at hget
    rw [hr]
    simp only [List.nil_append, hget]
    exact Reads.ret rfl
  · rw [hr]
    exact Reads.ret rfl

theorem reads_readString {x : Bytes} {len : Nat} (h : content.drop pos = x ++ rest)
    (hlen : x.length = len) :
    Reads (readString content pos len) (· = some x) (· = none) w := by
  rw [readString]
  by_cases h0 : len = 0
  · rw [if_pos h0]
    exact Reads.ret (by rw [List.length_eq_zero_iff.mp (hlen.trans h0)])
  · rw [if_neg h0]
    refine Reads.bind (reads_fread h hlen (Nat.pos_of_ne_zero h0)) (fun got hgot => ?_)
      fun got hlt => ?_
    · rw [hgot, if_neg (by simp [hlen])]
      exact Reads.ret rfl
    · rw [if_pos (by omega)]
      exact Reads.ret rfl

/-- A failing decode: an error, and a reason for it. -/
def Failed {α : Type} (E : Env) (r : Except Status α) : Prop :=
  E.fails ∧ ∃ s, r = .error s ∧ s.ok = false

theorem toNat_ofNat_length {x : Bytes} (h : x.length < 2 ^ 32) :
    (UInt32.ofNat x.length).toNat = x.length := by
  rw [UInt32.toNat_ofNat', Nat.mod_eq_of_lt h]

theorem reads_readEntry {path : Path} {e : SSTableEntry} (he : e.Valid)
    (h : content.drop pos = encodeEntry e ++ rest) :
    Reads (readEntry path content pos) (· = .ok (e, pos + (encodeEntry e).length))
      (fun r => ∃ s, r = .error s ∧ s.ok = false) w := by
  have hk := toNat_ofNat_length he.key_lt
  have hv := toNat_ofNat_length he.value_lt
  rw [encodeEntry, List.cons_append] at h
  simp only [List.append_assoc] at h
  rw [readEntry]
  refine Reads.bind (reads_fread (x := [e.type.byte]) h rfl (by decide)) (fun got hgot => ?_)
    fun got hlen => ?_
  swap
  · obtain rfl : got = [] := List.length_eq_zero_iff.mp (by omega)
    exact Reads.ret ⟨_, rfl, rfl⟩
  subst hgot
  have h1 := drop_of_append (x := [e.type.byte]) h
  refine Reads.bind (reads_readVarint h1) (fun r hr => ?_) fun r hr => ?_
  swap
  · rw [hr]
    exact Reads.ret ⟨_, rfl, rfl⟩
  subst hr
  have h2 := drop_of_append h1
  refine Reads.bind (reads_readString h2 hk.symm) (fun r hr => ?_) fun r hr => ?_
  swap
  · rw [hr]
    exact Reads.ret ⟨_, rfl, rfl⟩
  subst hr
  have h3 := drop_of_append h2
  by_cases hput : e.type = .kPut
  · rw [if_pos hput, List.append_assoc] at h3
    simp only [if_pos (show (⟨e.type.byte⟩ : EntryType) = .kPut from hput), hk]
    refine Reads.bind (reads_readVarint h3) (fun r hr => ?_) fun r hr => ?_
    swap
    · rw [hr]
      exact Reads.ret ⟨_, rfl, rfl⟩
    subst hr
    have h4 := drop_of_append h3
    refine Reads.bind (reads_readString h4 hv.symm) (fun r hr => ?_) fun r hr => ?_
    · rw [hr]
      have hlen : pos + [e.type.byte].length + (putVarint32 (UInt32.ofNat e.key.length)).length +
          e.key.length + (putVarint32 (UInt32.ofNat e.value.length)).length + e.value.length =
          pos + (encodeEntry e).length := by
        simp [encodeEntry, hput]
        omega
      refine Reads.ret ?_
      rw [hv, ← hlen]
      rfl
    · rw [hr]
      exact Reads.ret ⟨_, rfl, rfl⟩
  · have hdel : e.type = .kDelete ∧ e.value = [] := he.type.resolve_left hput
    simp only [if_neg (show ¬(⟨e.type.byte⟩ : EntryType) = .kPut from hput), hk]
    refine Reads.ret ?_
    have hlen : pos + [e.type.byte].length + (putVarint32 (UInt32.ofNat e.key.length)).length +
        e.key.length = pos + (encodeEntry e).length := by
      simp [encodeEntry, hput]
      omega
    obtain ⟨key, type, value⟩ := e
    obtain ⟨-, rfl : value = []⟩ := hdel
    rw [← hlen]
    rfl

theorem reads_readEntries {path : Path} {es : List SSTableEntry}
    (hes : ∀ e ∈ es, e.Valid) (h : content.drop pos = encodeEntries es ++ rest) :
    Reads (readEntries path content es.length pos) (· = .ok es)
      (fun r => ∃ s, r = .error s ∧ s.ok = false) w := by
  induction es generalizing pos with
  | nil => exact Reads.ret rfl
  | cons e es ih =>
      rw [encodeEntries_cons, List.append_assoc] at h
      rw [List.length_cons, readEntries]
      refine Reads.bind (reads_readEntry (hes e List.mem_cons_self) h) (fun r hr => ?_)
        fun r hr => ?_
      · subst hr
        refine Reads.bind (ih (fun e' he' => hes e' (List.mem_cons_of_mem _ he'))
          (drop_of_append h)) (fun r hr => ?_) fun r hr => ?_
        · rw [hr]
          exact Reads.ret rfl
        · obtain ⟨s, rfl, hs⟩ := hr
          exact Reads.ret ⟨s, rfl, hs⟩
      · obtain ⟨s, rfl, hs⟩ := hr
        exact Reads.ret ⟨s, rfl, hs⟩

end Decoding

/-- The sections of a stored table, as a reader meets them. -/
theorem Table.StoredAs.sections {t : Table} {data : Bytes} (h : t.StoredAs data) :
    ∃ rest, data = encodeEntries t.entries ++ rest := by
  obtain ⟨filter, -, rfl, -⟩ := h
  exact ⟨_, rfl⟩

theorem Table.StoredAs.length_le {t : Table} {data : Bytes} (h : t.StoredAs data) :
    data.length ≤ maxFileBytes := by
  obtain ⟨-, -, -, h⟩ := h
  exact h

section Reading

variable {E : Env} {w : World} {path : Path} {t : Table} {r : SSTableReader} {data : Bytes}

/-- A full decode gives the entries, or an error if a call fails. -/
theorem reads_readAll (hr : t.ReadBy path r) (hw : w.bytes path = some data)
    (hd : t.StoredAs data) :
    Reads r.readAll (· = .ok t.entries) (fun x => ∃ s, x = .error s ∧ s.ok = false) w := by
  obtain ⟨rest, hrest⟩ := hd.sections
  rw [SSTableReader.readAll]
  refine Reads.state ?_
  simp only [hr.path, hw, Option.getD_some]
  refine Reads.bind (reads_fseek (Int.le_refl 0)) (fun sought hs => ?_) fun sought hs => ?_
  · subst hs
    simp only [hr.index, List.length_map, layout_length]
    exact reads_readEntries t.valid (by rw [List.drop_zero, hrest])
  · subst hs
    exact Reads.ret ⟨_, rfl, rfl⟩

theorem observes_readAll (hr : t.ReadBy path r) (hw : w.bytes path = some data)
    (hd : t.StoredAs data) :
    Observes E r.readAll (fun x => x = .ok t.entries ∨ Failed E x) w :=
  (reads_readAll hr hw hd).observes

theorem toLong_nonneg {v : UInt64} (h : v.toNat < 2 ^ 63) : 0 ≤ toLong v := by
  rw [toLong, if_pos h]
  omega

/-- The index of a reader is a run, because the table is one. -/
theorem Table.ReadBy.ascending (hr : t.ReadBy path r) :
    KeyedRun.Ascending IndexEntry.key r.index := by
  have hkeys : r.index.map IndexEntry.key = t.entries.map SSTableEntry.key := by
    rw [hr.index, List.map_map]
    exact layout_keys 0 t.entries
  have h := t.ascending
  rw [KeyedRun.Ascending, ← List.pairwise_map (f := SSTableEntry.key)
    (R := fun a b => compare a b = .lt), ← hkeys, List.pairwise_map] at h
  exact h

theorem Table.ReadBy.find_index (hr : t.ReadBy path r) (k : Bytes) :
    KeyedRun.find IndexEntry.key k r.index =
      (KeyedRun.find Prod.fst k (layout 0 t.entries).2).map fun p => ⟨p.1, p.2⟩ := by
  rw [hr.index, KeyedRun.find, KeyedRun.find, List.find?_map]
  rfl

/-- A point lookup answers what the table says of the key, or that it is not
there when a read failed. -/
theorem reads_get (hr : t.ReadBy path r) (hw : w.bytes path = some data)
    (hd : t.StoredAs data) (k : Bytes) :
    Reads (r.get k) (· = t.layer k) (· = none) w := by
  rw [SSTableReader.get]
  by_cases hfilter : r.filter ≠ [] ∧ BloomFilter.mayContain r.filter k = false
  · rw [if_pos hfilter]
    refine Reads.ret ?_
    have hnone : KeyedRun.find SSTableEntry.key k t.entries = none := by
      rw [KeyedRun.find_eq_none_iff]
      rintro e he rfl
      rw [hr.filter e he] at hfilter
      exact absurd hfilter.2 (by simp)
    rw [Table.layer, layerOf, hnone]
    rfl
  rw [if_neg hfilter]
  have hlb := KeyedRun.getElem?_lowerBound hr.ascending k
  rw [hr.find_index] at hlb
  change (r.index[KeyedRun.lowerBound (fun e => Slice.less e.key k) r.index]?).filter _ = _ at hlb
  cases hfind : KeyedRun.find Prod.fst k (layout 0 t.entries).2 with
  | none =>
      -- the key has no index entry, whatever the lower bound points at
      have hnone : t.layer k = none := by
        rw [Table.layer, layerOf, find_layout_eq_none hfind]
        rfl
      rw [hfind, Option.map_none] at hlb
      cases hit : r.index[KeyedRun.lowerBound (fun e => Slice.less e.key k) r.index]? with
      | none => exact Reads.ret hnone.symm
      | some it =>
          rw [hit] at hlb
          have hne : it.key ≠ k := by
            rintro rfl
            simp at hlb
          simp only [if_pos hne]
          exact Reads.ret hnone.symm
  | some p =>
      rw [hfind, Option.map_some] at hlb
      obtain ⟨hit, hkey⟩ := Option.filter_eq_some_iff.mp hlb
      have hkey' : p.1 = k := by simpa using hkey
      rw [hit]
      simp only [hkey', ne_eq, not_true_eq_false, if_false]
      obtain ⟨pre, e, post, hsplit, hek, hfe, hoff⟩ := find_layout hfind
      have hlayer : t.layer k = some e.said := by
        rw [Table.layer, layerOf, hfe]
        rfl
      have he : e.Valid := t.valid e (by rw [hsplit]; simp)
      have hk := toNat_ofNat_length he.key_lt
      have hv := toNat_ofNat_length he.value_lt
      obtain ⟨rest, hrest⟩ := hd.sections
      have hmax := hd.length_le
      -- the offset is where the entries before this one end
      have hpos : p.2.toNat = (encodeEntries pre).length := by
        have hle : (encodeEntries pre).length ≤ data.length := by
          rw [hrest, hsplit, encodeEntries_append]
          simp only [List.length_append]
          omega
        rw [hoff, UInt64.zero_add, UInt64.toNat_ofNat', Nat.mod_eq_of_lt]
        rw [maxFileBytes] at hmax
        omega
      have hdrop : data.drop p.2.toNat = encodeEntry e ++ (encodeEntries post ++ rest) := by
        rw [hrest, hsplit, encodeEntries_append, encodeEntries_cons, hpos]
        simp only [List.append_assoc, List.drop_left]
      rw [encodeEntry, List.cons_append] at hdrop
      simp only [List.append_assoc] at hdrop
      refine Reads.state ?_
      simp only [hr.path, hw, Option.getD_some]
      have hsmall : p.2.toNat < 2 ^ 63 := by
        rw [hpos]
        have hle : (encodeEntries pre).length ≤ data.length := by
          rw [hrest, hsplit, encodeEntries_append]
          simp only [List.length_append]
          omega
        rw [maxFileBytes] at hmax
        omega
      refine Reads.bind (reads_fseek (toLong_nonneg hsmall)) (fun sought hs => ?_)
        fun sought hs => ?_
      swap
      · subst hs
        exact Reads.ret rfl
      subst hs
      refine Reads.bind (reads_fread (x := [e.type.byte]) hdrop rfl (by decide))
        (fun got hgot => ?_) fun got hlen => ?_
      swap
      · obtain rfl : got = [] := List.length_eq_zero_iff.mp (by omega)
        exact Reads.ret rfl
      subst hgot
      have h1 := drop_of_append (x := [e.type.byte]) hdrop
      refine Reads.bind (reads_readVarint h1) (fun x hx => ?_) fun x hx => ?_
      swap
      · rw [hx]
        exact Reads.ret rfl
      subst hx
      have h2 := drop_of_append h1
      refine Reads.bind (reads_readString h2 hk.symm) (fun x hx => ?_) fun x hx => ?_
      swap
      · rw [hx]
        exact Reads.ret rfl
      subst hx
      have h3 := drop_of_append h2
      by_cases hdel : e.type = .kDelete
      · simp only [if_pos (show (⟨e.type.byte⟩ : EntryType) = .kDelete from hdel)]
        exact Reads.ret (by rw [hlayer, SSTableEntry.said, if_pos hdel])
      · have hput : e.type = .kPut := he.type.resolve_right fun h => hdel h.1
        rw [if_pos hput, List.append_assoc] at h3
        simp only [if_neg (show ¬(⟨e.type.byte⟩ : EntryType) = .kDelete from hdel), hk]
        refine Reads.bind (reads_readVarint h3) (fun x hx => ?_) fun x hx => ?_
        swap
        · rw [hx]
          exact Reads.ret rfl
        subst hx
        refine Reads.bind (reads_readString (drop_of_append h3) hv.symm) (fun x hx => ?_)
          fun x hx => ?_
        · rw [hx]
          exact Reads.ret (by rw [hlayer, SSTableEntry.said, if_neg hdel])
        · rw [hx]
          exact Reads.ret rfl

theorem observes_get (hr : t.ReadBy path r) (hw : w.bytes path = some data)
    (hd : t.StoredAs data) (k : Bytes) :
    Observes E (r.get k) (fun x => x = t.layer k ∨ E.fails ∧ x = none) w :=
  (reads_get hr hw hd k).observes

end Reading

section Opening

variable {E : Env} {w : World} {path : Path} {t : Table} {data : Bytes}

theorem observes_readBlock {content x rest : Bytes} {offset size : UInt64}
    (h : content.drop offset.toNat = x ++ rest) (hx : x.length = size.toNat)
    (hmax : content.length ≤ maxFileBytes) :
    Observes E (readBlock content offset size) (fun r => r = some x ∨ E.fails ∧ r = none) w := by
  have hle : offset.toNat + size.toNat ≤ content.length ∨ size.toNat = 0 := by
    have hlen := congrArg List.length h
    simp only [List.length_drop, List.length_append] at hlen
    omega
  rw [maxFileBytes] at hmax
  rw [readBlock, if_neg (by rw [maxStringBytes]; omega)]
  by_cases h0 : size = 0
  · rw [if_pos h0]
    refine Observes.ret (Or.inl ?_)
    rw [List.length_eq_zero_iff.mp (hx.trans (by rw [h0]; rfl))]
  · rw [if_neg h0]
    have hsize : size.toNat ≠ 0 := fun h => h0 (UInt64.toNat_inj.mp (by simpa using h))
    refine Observes.bind (observes_fseek (toLong_nonneg (by omega))) fun sought hs => ?_
    rcases hs with rfl | ⟨hf, rfl⟩
    · refine Observes.bind (observes_fread h hx) fun got hgot => ?_
      rcases hgot with rfl | ⟨hf, hlt⟩
      · rw [if_neg (by simp [hx])]
        exact Observes.ret (Or.inl rfl)
      · rw [if_pos (by omega)]
        exact Observes.ret (Or.inr ⟨hf, rfl⟩)
    · exact Observes.ret (Or.inr ⟨hf, rfl⟩)

/-- The index section parses to the index. -/
theorem parseIndex_encodeIndex (offsets : List (Bytes × UInt64)) (fuel : Nat)
    (hlen : ∀ p ∈ offsets, p.1.length < 2 ^ 32) (hfuel : (encodeIndex offsets).length ≤ fuel) :
    parseIndex fuel (encodeIndex offsets) = some (offsets.map fun p => ⟨p.1, p.2⟩) := by
  induction offsets generalizing fuel with
  | nil => cases fuel <;> rfl
  | cons p offsets ih =>
      have hk := toNat_ofNat_length (hlen p List.mem_cons_self)
      have happ : encodeIndex (p :: offsets) =
          putVarint32 (UInt32.ofNat p.1.length) ++ (p.1 ++ (putFixed64 p.2 ++
            encodeIndex offsets)) := by
        simp [encodeIndex, encodeIndexEntry]
      rw [happ] at hfuel ⊢
      cases hin : putVarint32 (UInt32.ofNat p.1.length) ++ (p.1 ++ (putFixed64 p.2 ++
          encodeIndex offsets)) with
      | nil =>
          have := congrArg List.length hin
          simp at this
      | cons b bs =>
          have hinlen := congrArg List.length hin
          simp only [List.length_append, putFixed64_length, List.length_cons] at hinlen hfuel
          obtain ⟨fuel, rfl⟩ : ∃ m, fuel = m + 1 := ⟨fuel - 1, by omega⟩
          rw [parseIndex]
          simp only [← hin, getVarint32Ptr_putVarint32, hk]
          rw [if_neg (by simp only [List.length_append, putFixed64_length]; omega)]
          have hdrop : (p.1 ++ (putFixed64 p.2 ++ encodeIndex offsets)).drop (p.1.length + 8) =
              encodeIndex offsets := by
            rw [← List.append_assoc]
            exact List.drop_left' (by simp)
          rw [hdrop, ih fuel (fun q hq => hlen q (List.mem_cons_of_mem _ hq)) (by omega),
            List.take_left, List.drop_left, decodeFixed64_putFixed64]
          rfl

theorem decodeFooter (a b c d : UInt64) :
    decodeFixed64 (encodeFooter a b c d) = a ∧
      decodeFixed64 ((encodeFooter a b c d).drop 8) = b ∧
      decodeFixed64 ((encodeFooter a b c d).drop 16) = c ∧
      decodeFixed64 ((encodeFooter a b c d).drop 24) = d ∧
      decodeFixed64 ((encodeFooter a b c d).drop 32) = kSSTableMagic := by
  have hdrop : ∀ (v : UInt64) (s : Bytes) (n : Nat),
      (putFixed64 v ++ s).drop (8 + n) = s.drop n := fun v s n => by
    rw [← List.drop_drop, List.drop_left' (putFixed64_length v)]
  have happ : encodeFooter a b c d = putFixed64 a ++ (putFixed64 b ++ (putFixed64 c ++
      (putFixed64 d ++ (putFixed64 kSSTableMagic ++ [])))) := by
    simp [encodeFooter]
  rw [happ, show (8 : Nat) = 8 + 0 from rfl, show (16 : Nat) = 8 + (8 + 0) from rfl,
    show (24 : Nat) = 8 + (8 + (8 + 0)) from rfl,
    show (32 : Nat) = 8 + (8 + (8 + (8 + 0))) from rfl]
  simp only [hdrop, List.drop_zero, decodeFixed64_putFixed64, and_self]

theorem Table.minKey_eq (t : Table) :
    t.minKey = ((t.entries.map SSTableEntry.key).head?).getD [] := by
  rw [minKey, List.head?_map, List.head?_eq_some_head t.nonempty]
  rfl

theorem Table.maxKey_eq (t : Table) :
    t.maxKey = ((t.entries.map SSTableEntry.key).getLast?).getD [] := by
  rw [maxKey, List.getLast?_map, List.getLast?_eq_some_getLast t.nonempty]
  rfl

/-- Opening a stored table gives its reader. -/
theorem observes_open {held : Nat} (hw : w.bytes path = some data) (hd : t.StoredAs data)
    (hheld : E.excludes ∨ held < maxOpenFiles) :
    Observes E (SSTableReader.open held path)
      (fun x => (held < maxOpenFiles ∧ ∃ r, x = .ok r ∧ t.ReadBy path r ∧
        r.fileSize = data.length) ∨ Failed E x) w := by
  obtain ⟨filter, hfilter, himage, hmax⟩ := hd
  rw [SSTableReader.open]
  refine Observes.bind (observes_fopenHeld hw hheld) fun x hx => ?_
  rcases hx with ⟨hheld, rfl⟩ | ⟨hf, n, -, rfl⟩
  swap
  · exact Observes.ret (Or.inr ⟨hf, _, rfl, rfl⟩)
  refine Observes.bind (observes_fseek (Int.le_refl 0)) fun sought hs => ?_
  rcases hs with rfl | ⟨hf, rfl⟩
  swap
  · exact Observes.ret (Or.inr ⟨hf, _, rfl, rfl⟩)
  rw [tableImage] at himage
  generalize hE : encodeEntries t.entries = es at himage
  generalize hI : indexOf t.entries = index at himage
  generalize hF : encodeFooter (UInt64.ofNat es.length) (UInt64.ofNat index.length)
    (UInt64.ofNat es.length + UInt64.ofNat index.length) (UInt64.ofNat filter.length) =
      footer at himage
  have hfooter : footer.length = kSSTableFooterSize := hF ▸ encodeFooter_length _ _ _ _
  have hlen : data.length = es.length + (index.length + (filter.length + footer.length)) := by
    rw [himage]
    simp only [List.length_append]
  have hmax' := hmax
  rw [maxFileBytes] at hmax'
  rw [kSSTableFooterSize] at hfooter
  have hindex : (UInt64.ofNat index.length).toNat = index.length := by
    rw [UInt64.toNat_ofNat', Nat.mod_eq_of_lt (by omega)]
  have hdata : (UInt64.ofNat es.length).toNat = es.length := by
    rw [UInt64.toNat_ofNat', Nat.mod_eq_of_lt (by omega)]
  have hfil : (UInt64.ofNat filter.length).toNat = filter.length := by
    rw [UInt64.toNat_ofNat', Nat.mod_eq_of_lt (by omega)]
  have hsum : (UInt64.ofNat es.length + UInt64.ofNat index.length).toNat =
      es.length + index.length := by
    rw [UInt64.toNat_add, hdata, hindex, Nat.mod_eq_of_lt (by omega)]
  have hdropF : data.drop (data.length - kSSTableFooterSize) = footer ++ [] := by
    rw [himage, ← List.append_assoc, ← List.append_assoc, List.append_nil]
    refine List.drop_left' ?_
    rw [kSSTableFooterSize]
    simp only [List.length_append]
    omega
  have hdropI : data.drop (UInt64.ofNat es.length).toNat = index ++ (filter ++ footer) := by
    rw [hdata, himage, List.drop_left]
  have hdropB : data.drop (UInt64.ofNat es.length + UInt64.ofNat index.length).toNat =
      filter ++ footer := by
    rw [hsum, himage, ← List.append_assoc]
    exact List.drop_left' (by simp)
  have hge : ¬data.length < kSSTableFooterSize := by rw [kSSTableFooterSize]; omega
  simp only [Bool.not_true, Bool.false_eq_true, if_false, if_neg hge]
  refine Observes.bind (observes_fseek (by omega)) fun sought hs => ?_
  rcases hs with rfl | ⟨hf, rfl⟩
  swap
  · exact Observes.ret (Or.inr ⟨hf, _, rfl, rfl⟩)
  refine Observes.bind (observes_fread hdropF (by rw [kSSTableFooterSize]; omega)) fun got hg => ?_
  rcases hg with rfl | ⟨hf, hlt⟩
  swap
  · rw [if_pos (by omega)]
    exact Observes.ret (Or.inr ⟨hf, _, rfl, rfl⟩)
  obtain ⟨h1, h2, h3, h4, h5⟩ := decodeFooter (UInt64.ofNat es.length)
    (UInt64.ofNat index.length) (UInt64.ofNat es.length + UInt64.ofNat index.length)
    (UInt64.ofNat filter.length)
  rw [hF] at h1 h2 h3 h4 h5
  simp only [if_false, h1, h2, h3, h4, h5, ne_eq, not_true_eq_false, hfooter,
    kSSTableFooterSize]
  refine Observes.bind (observes_readBlock hdropI hindex.symm hmax) fun x hx => ?_
  rcases hx with rfl | ⟨hf, rfl⟩
  swap
  · exact Observes.ret (Or.inr ⟨hf, _, rfl, rfl⟩)
  have hparse : parseIndex index.length index =
      some ((layout 0 t.entries).2.map fun p => ⟨p.1, p.2⟩) := by
    rw [← hI, indexOf]
    refine parseIndex_encodeIndex _ _ (fun p hp => ?_) (Nat.le_refl _)
    have hmem : p.1 ∈ t.entries.map SSTableEntry.key := by
      rw [← layout_keys 0]
      exact List.mem_map_of_mem hp
    obtain ⟨e, he, hep⟩ := List.mem_map.mp hmem
    exact hep ▸ (t.valid e he).key_lt
  simp only [hparse]
  refine Observes.bind (observes_readBlock hdropB hfil.symm hmax) fun x hx => ?_
  rcases hx with rfl | ⟨hf, rfl⟩
  swap
  · exact Observes.ret (Or.inr ⟨hf, _, rfl, rfl⟩)
  refine Observes.ret (Or.inl ⟨hheld, _, rfl, ⟨rfl, rfl, hfilter, ?_, ?_⟩, rfl⟩)
  · rw [Table.minKey_eq, ← layout_keys 0, List.head?_map, List.head?_map, Option.map_map]
    rfl
  · rw [Table.maxKey_eq, ← layout_keys 0, List.getLast?_map, List.getLast?_map, Option.map_map]
    rfl

end Opening

section Writing

variable {E : Env} {C : World → Nat → Prop} {w w' : World} {b : Nat} {path : Path}

/-- One chunk goes into the buffer of a stream on a file that is still empty, or
the write fails and touches that file only. -/
theorem wp_chunk {Q : Bool × Stream → World → Nat → Prop} {pending data : Bytes}
    (hw : OnlyAt path w w') (hempty : w'.bytes path = some [])
    (hfit : E.excludes ∨ pending.length + data.length ≤ maxFileBytes)
    (hC : E.crashes → ∀ w'', OnlyAt path w w'' → C w'' b)
    (hfail : E.fails → ∀ f w'', OnlyAt path w w'' → Q (false, f) w'' b)
    (hok : pending.length + data.length ≤ maxFileBytes →
      Q (true, ⟨path, pending ++ data⟩) w' b) :
    wp E (fwrite ⟨path, pending⟩ data) Q C w' b := by
  refine wp_fwrite rfl (hfit.imp_right fun hsize => by simpa [hempty] using hsize)
    (fun hsize => hok ?_)
    (fun hf n => hfail hf _ _ (hw.trans (append_onlyAt _ _ _)))
    (fun hc n => hC hc _ (hw.trans (append_onlyAt _ _ _)))
  simpa [hempty] using hsize

/-- Writing a table stores it, or fails and touches its file only. -/
theorem wp_write {Q : Status → World → Nat → Prop} (t : Table) (bloomBitsPerKey : Int)
    (hfit : E.excludes ∨ ∃ filter,
      BloomFilter.build (t.entries.map SSTableEntry.key) bloomBitsPerKey = some filter ∧
        (tableImage t.entries filter).length ≤ maxFileBytes)
    (hC : E.crashes ∨ BloomFilter.build (t.entries.map SSTableEntry.key) bloomBitsPerKey = none →
      ∀ w', OnlyAt path w w' → C w' b)
    (hfail : E.fails → ∀ s w', s.ok = false → OnlyAt path w w' → Q s w' b)
    (hok : ∀ data w', OnlyAt path w w' → w'.bytes path = some data → t.StoredAs data →
      Q .OK w' b) :
    wp E (SSTableWriter.write path t.entries bloomBitsPerKey) Q C w b := by
  rw [SSTableWriter.write, if_neg t.nonempty]
  have hparts : E.excludes ∨ ∃ filter,
      BloomFilter.build (t.entries.map SSTableEntry.key) bloomBitsPerKey = some filter ∧
        (encodeEntries t.entries).length + ((indexOf t.entries).length +
          (filter.length + kSSTableFooterSize)) ≤ maxFileBytes := by
    refine hfit.imp_right fun ⟨filter, hb, hle⟩ => ⟨filter, hb, ?_⟩
    simpa only [tableImage, List.length_append, encodeFooter_length] using hle
  have hnew := put_onlyAt w path .empty
  have hempty : (w.put path .empty).bytes path = some [] := by simp
  refine wp_bind (wp_fopenWrite ?_
    (fun hf n _ => wp_pure (hfail hf _ _ rfl (OnlyAt.refl path w)))
    fun hc => ⟨hC (Or.inl hc) _ (OnlyAt.refl path w), hC (Or.inl hc) _ hnew⟩)
  simp only [layout_fst]
  refine wp_bind (wp_chunk hnew hempty (hparts.imp_right fun ⟨_, _, hle⟩ => by
    rw [List.length_nil]
    omega) (hC ∘ Or.inl)
    (fun hf f w' hw' => wp_pure (hfail hf _ _ rfl hw')) fun _ => ?_)
  refine wp_bind (wp_chunk hnew hempty (hparts.imp_right fun ⟨_, _, hle⟩ => by
    rw [List.nil_append, ← indexOf]
    omega) (hC ∘ Or.inl)
    (fun hf f w' hw' => wp_pure (hfail hf _ _ rfl hw')) fun _ => ?_)
  cases hfilter : BloomFilter.build (t.entries.map (·.key)) bloomBitsPerKey with
  | none =>
      exact wp_abort (hC (Or.inr hfilter) _ hnew)
  | some filter =>
      have hfit' : E.excludes ∨ (encodeEntries t.entries).length + ((indexOf t.entries).length +
          (filter.length + kSSTableFooterSize)) ≤ maxFileBytes := by
        refine hparts.imp_right fun ⟨filter', hb, hle⟩ => ?_
        rw [hfilter] at hb
        rwa [Option.some.inj hb]
      refine wp_bind (wp_chunk hnew hempty (hfit'.imp_right fun hle => by
        rw [List.nil_append, List.length_append, ← indexOf]
        omega) (hC ∘ Or.inl)
    (fun hf f w' hw' => wp_pure (hfail hf _ _ rfl hw')) fun _ => ?_)
      refine wp_bind (wp_chunk hnew hempty (hfit'.imp_right fun hle => by
        rw [List.nil_append, List.length_append, List.length_append, ← indexOf,
          encodeFooter_length]
        omega) (hC ∘ Or.inl)
    (fun hf f w' hw' => wp_pure (hfail hf _ _ rfl hw')) fun hsize => ?_)
      refine wp_bind (wp_fflush ?_
        (fun hf n => wp_pure (hfail hf _ _ rfl (hnew.trans (append_onlyAt _ _ _))))
        fun hc n => hC (Or.inl hc) _ (hnew.trans (append_onlyAt _ _ _)))
      refine wp_pure (hok _ _ (hnew.trans (append_onlyAt _ _ _)) ?_ ⟨filter, ?_, rfl, ?_⟩)
      · rw [bytes_append_same, hempty, Option.map_some, List.nil_append]
        simp only [List.nil_append, List.append_assoc]
        rfl
      · intro e he
        exact BloomFilter.mayContain_of_build hfilter (List.mem_map_of_mem he)
      · rw [tableImage, indexOf]
        simpa only [List.nil_append, List.length_append, List.append_assoc, Nat.add_assoc]
          using hsize

end Writing

section RoundTrip

/-- Write a table, open it again, decode it and look a key up. -/
def writeAndRead (held : Nat) (path : Path) (entries : List SSTableEntry) (bloomBitsPerKey : Int)
    (key : Bytes) : Prog World (Status × Except Status
      (SSTableReader × Except Status (List SSTableEntry) × Option Found)) := do
  let s ← SSTableWriter.write path entries bloomBitsPerKey
  match ← SSTableReader.open held path with
  | .error e => return (s, .error e)
  | .ok r =>
    let all ← r.readAll
    let found ← r.get key
    return (s, .ok (r, all, found))

/-- What a table says of a key, entry by entry. -/
theorem Table.layer_cases (t : Table) (key : Bytes) :
    (∀ e ∈ t.entries, e.key = key → t.layer key = some e.said) ∧
      ((∀ e ∈ t.entries, e.key ≠ key) → t.layer key = none) := by
  constructor
  · rintro e he rfl
    rw [layer, layerOf, KeyedRun.find_of_mem t.ascending he]
    rfl
  · intro hnone
    rw [layer, layerOf, KeyedRun.find_eq_none_iff.mpr hnone]
    rfl

end RoundTrip

end SSTable

end ClomDB
