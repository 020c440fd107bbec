import ClomDB.Flush

/-!
# Merging and splitting

What `CompactLocked` reads, how it merges and where it cuts, for any lists of
tables that the version, the readers and the files agree on. Nothing is asked
of the numbers below L0 or of the tombstones here.

## Implementation notes

The size of a batch is kept in a `size_t`. A batch that made it overflow would
not fit into a file, so the sizes of the tables that were written are exact.
-/

namespace ClomDB

open Std FaultProgram FileSystem FileSystem.World LayeredMap SSTable DB

/-- The reader is open on the table's file. -/
def TableFile.ReadIn (f : TableFile) (d : Path) (r : SSTableReader) : Prop :=
  f.table.ReadBy (sstablePath d f.number) r

/-- The table is stored under its number. -/
def TableFile.StoredIn (f : TableFile) (d : Path) (w : World) : Prop :=
  ∃ data, w.bytes (sstablePath d f.number) = some data ∧ f.table.StoredAs data

theorem Built.readIn {t : Table} {d : Path} {n : UInt64} {w : World} {fm : FileMetaData}
    {r : SSTableReader} (h : Built t d n w fm r) : h.file.ReadIn d r := by
  have hnum : h.file.number = n := h.number
  rw [TableFile.ReadIn, hnum]
  exact h.reader

theorem Built.storedIn {t : Table} {d : Path} {n : UInt64} {w : World} {fm : FileMetaData}
    {r : SSTableReader} (h : Built t d n w fm r) : h.file.StoredIn d w := by
  have hnum : h.file.number = n := h.number
  rw [TableFile.StoredIn, hnum]
  exact h.stored

/-- The version, the readers and the files show the same tables. -/
structure Aligned (files : Levels TableFile) (w : World) (db : DB) : Prop where
  version : ∀ l, db.version.levels l = (files l).map TableFile.info
  readers : ∀ l, List.Forall₂ (TableFile.ReadIn · db.dbPath ·) (files l) (db.openReaders l)
  stored : ∀ l, ∀ f ∈ files l, f.StoredIn db.dbPath w

/-- The tables of the source level in the order of the merge: L0 is sorted, the
newest first, and every level is walked backwards. -/
def mergeOrder (l : Fin kMaxLevels) (files : List TableFile) : List TableFile :=
  (if l = 0 then files.mergeSort fun f g => decide (g.number ≤ f.number) else files).reverse

/-- The runs a compaction of `l` into `l'` merges. -/
def mergeInputs (files : Levels TableFile) (l l' : Fin kMaxLevels) : List (List SSTableEntry) :=
  (files l' ++ mergeOrder l (files l)).map fun f => f.table.entries

/-- The entries that stay when tombstones are dropped. -/
def kept (dropTombstones : Bool) (entries : List SSTableEntry) : List SSTableEntry :=
  if dropTombstones then entries.filter fun e => e.type ≠ .kDelete else entries

/-- Key and value bytes of some entries. -/
def dataBytes (entries : List SSTableEntry) : Nat :=
  (entries.map fun e => e.key.length + e.value.length).sum

/-- A batch that reached the target size with its last entry. -/
def Cut (target : UInt64) (entries : List SSTableEntry) : Prop :=
  target.toNat ≤ dataBytes entries ∧ dataBytes entries.dropLast < target.toNat

theorem forall₂_fst_snd {α β : Type} {R : α → β → Prop} {ps : List (α × β)}
    (h : ∀ p ∈ ps, R p.1 p.2) : List.Forall₂ R (ps.map Prod.fst) (ps.map Prod.snd) := by
  rw [List.forall₂_map_left_iff, List.forall₂_map_right_iff, List.forall₂_same]
  exact h

theorem mem_mergeOrder {l : Fin kMaxLevels} {files : List TableFile} {f : TableFile} :
    f ∈ mergeOrder l files ↔ f ∈ files := by
  rw [mergeOrder, List.mem_reverse]
  split
  · exact List.mem_mergeSort
  · rfl

/-- L0 is sorted with the highest number first. -/
theorem pairwise_sorted (files : List TableFile) :
    (files.mergeSort fun f g => decide (g.number ≤ f.number)).Pairwise
      fun f g => decide (g.number ≤ f.number) = true := by
  refine List.pairwise_mergeSort (fun f g h hfg hgh => ?_) (fun f g => ?_) files
  · exact decide_eq_true (UInt64.le_trans (of_decide_eq_true hgh) (of_decide_eq_true hfg))
  · rw [Bool.or_eq_true, decide_eq_true_iff, decide_eq_true_iff]
    exact UInt64.le_total _ _

section Merge

variable {E : Env} {C : World → Nat → Prop} {w : World} {b : Nat} {db : DB}
  {files : Levels TableFile}

/-- The tables of a level with their readers. -/
def DB.tablesOf (db : DB) (files : Levels TableFile) (l : Fin kMaxLevels) :
    List (TableFile × SSTableReader) :=
  (files l).zip (db.openReaders l)

theorem Aligned.tablesOf_fst (h : Aligned files w db) (l : Fin kMaxLevels) :
    (db.tablesOf files l).map Prod.fst = files l :=
  List.map_fst_zip (Nat.le_of_eq (h.readers l).length_eq)

theorem Aligned.readIn (h : Aligned files w db) {l : Fin kMaxLevels}
    {p : TableFile × SSTableReader} (hp : p ∈ db.tablesOf files l) : p.1.ReadIn db.dbPath p.2 :=
  (List.forall₂_iff_zip.mp (h.readers l)).2 hp

/-- The version and the readers are walked in step. -/
theorem Aligned.zip (h : Aligned files w db) (l : Fin kMaxLevels) :
    (db.version.levels l).zip (db.openReaders l) =
      (db.tablesOf files l).map fun p => (p.1.info, p.2) := by
  rw [h.version, List.zip_map_left]
  rfl

/-- Sorting the records of the tables sorts the tables. -/
theorem Aligned.zip_mergeSort (h : Aligned files w db) (l : Fin kMaxLevels)
    (le : UInt64 → UInt64 → Bool) :
    (((db.version.levels l).zip (db.openReaders l)).mergeSort fun a b =>
      le a.1.number b.1.number).map Prod.snd =
      ((db.tablesOf files l).mergeSort fun p q => le p.1.number q.1.number).map Prod.snd := by
  have hsort : ((db.tablesOf files l).mergeSort fun p q => le p.1.number q.1.number).map
        (fun p => (p.1.info, p.2)) =
      ((db.tablesOf files l).map fun p => (p.1.info, p.2)).mergeSort fun a b =>
        le a.1.number b.1.number :=
    List.map_mergeSort fun _ _ _ _ => rfl
  rw [h.zip, ← hsort, List.map_map]
  rfl

/-- The readers come in the order of the merge. -/
theorem Aligned.levelReaders (h : Aligned files w db) (l : Fin kMaxLevels) :
    List.Forall₂ (TableFile.ReadIn · db.dbPath ·) (mergeOrder l (files l)) (db.levelReaders l) := by
  let sorted := if l = 0 then
    (db.tablesOf files l).mergeSort fun p q => decide (q.1.number ≤ p.1.number)
    else db.tablesOf files l
  have hread : ∀ p ∈ sorted.reverse, p.1.ReadIn db.dbPath p.2 := by
    intro p hp
    have hp' := List.mem_reverse.mp hp
    simp only [sorted] at hp'
    split at hp'
    · exact h.readIn (List.mem_mergeSort.mp hp')
    · exact h.readIn hp'
  have hfiles : sorted.reverse.map Prod.fst = mergeOrder l (files l) := by
    have hsort : ((db.tablesOf files l).mergeSort fun p q =>
          decide (q.1.number ≤ p.1.number)).map Prod.fst =
        ((db.tablesOf files l).map Prod.fst).mergeSort fun f g => decide (g.number ≤ f.number) :=
      List.map_mergeSort fun _ _ _ _ => rfl
    rw [List.map_reverse, mergeOrder]
    simp only [sorted]
    split
    · rw [hsort, h.tablesOf_fst]
    · rw [h.tablesOf_fst]
  have hreaders : sorted.reverse.map Prod.snd = db.levelReaders l := by
    rw [List.map_reverse, DB.levelReaders]
    simp only [sorted]
    split
    · rw [h.zip_mergeSort l fun a b => decide (b ≤ a)]
    · rw [h.zip, List.map_map]
      rfl
  rw [← hfiles, ← hreaders]
  exact forall₂_fst_snd hread

theorem observes_mergeReaders {d : Path} {tables : List TableFile} {readers : List SSTableReader}
    (hr : List.Forall₂ (TableFile.ReadIn · d ·) tables readers)
    (hs : ∀ f ∈ tables, f.StoredIn d w) (merged : Std.ExtTreeMap Bytes SSTableEntry) :
    Observes E (mergeReaders merged readers) (fun x =>
      x = .ok ((tables.map fun f => f.table.entries).foldl
        (KeyedRun.insertAll SSTableEntry.key) merged) ∨ Failed E x) w := by
  induction hr generalizing merged with
  | nil => exact Observes.ret (Or.inl rfl)
  | @cons f r tables readers hread _ ih =>
      obtain ⟨hf, htables⟩ := List.forall_mem_cons.mp hs
      obtain ⟨data, hw, hstored⟩ := hf
      rw [mergeReaders]
      refine Observes.bind (observes_readAll hread hw hstored) fun x hx => ?_
      rcases hx with rfl | ⟨hfail, s, rfl, hs'⟩
      · exact ih htables _
      · exact Observes.ret (Or.inr ⟨hfail, s, rfl, hs'⟩)

/-- What a compaction merges when no read fails. -/
theorem Aligned.observes_merge (h : Aligned files w db) (l l' : Fin kMaxLevels) :
    Observes E (mergeReaders ∅ (db.openReaders l' ++ db.levelReaders l)) (fun x =>
      x = .ok (mergeRuns (mergeInputs files l l')) ∨ Failed E x) w := by
  refine observes_mergeReaders (List.rel_append (h.readers l') (h.levelReaders l)) ?_ ∅
  intro f hf
  rcases List.mem_append.mp hf with hf | hf
  · exact h.stored l' f hf
  · exact h.stored l f (mem_mergeOrder.mp hf)

end Merge

/-- A table file holds the key and value bytes of its entries. -/
theorem SSTable.Table.StoredAs.dataBytes_le {t : Table} {data : Bytes} (h : t.StoredAs data) :
    dataBytes t.entries ≤ maxFileBytes := by
  have hentry : ∀ e ∈ t.entries, e.key.length + e.value.length ≤ (encodeEntry e).length := by
    intro e he
    have htype := (t.valid e he).type
    rw [encodeEntry, List.length_cons, List.length_append, List.length_append]
    rcases htype with hput | ⟨-, hvalue⟩
    · rw [if_pos hput, List.length_append]
      omega
    · rw [hvalue, List.length_nil]
      omega
  have hsum : ∀ es : List SSTableEntry,
      (∀ e ∈ es, e.key.length + e.value.length ≤ (encodeEntry e).length) →
        dataBytes es ≤ (encodeEntries es).length := by
    intro es
    induction es with
    | nil => exact fun _ => Nat.le_refl 0
    | cons e es ih =>
        intro hes
        obtain ⟨he, hes⟩ := List.forall_mem_cons.mp hes
        have htail := ih hes
        rw [encodeEntries_cons, List.length_append]
        simp only [dataBytes, List.map_cons, List.sum_cons] at htail ⊢
        omega
  obtain ⟨filter, -, rfl, hle⟩ := h
  have hdata := hsum t.entries hentry
  rw [tableImage, List.length_append] at hle
  omega

/-- The tables written so far and their readers. -/
structure Outputs (d : Path) (first next : UInt64) (w : World) (out : Output)
    (built : List TableFile) : Prop where
  files : out.newFiles = built.map TableFile.info
  readers : List.Forall₂ (TableFile.ReadIn · d ·) built out.newReaders
  stored : ∀ f ∈ built, f.StoredIn d w
  numbers : ∀ f ∈ built, first ≤ f.number ∧ f.number < next
  increasing : built.Pairwise fun f g => f.number < g.number
  sized : built.length ≤ maxOpenFiles

namespace Outputs

variable {d : Path} {first next next' : UInt64} {w w' : World} {out : Output}
  {built : List TableFile}

theorem nil (d : Path) (first next : UInt64) (w : World) : Outputs d first next w {} [] :=
  ⟨rfl, List.Forall₂.nil, by simp, by simp, List.Pairwise.nil, Nat.zero_le _⟩

/-- Writing tables with later numbers keeps those that are there. -/
theorem fresh (h : Outputs d first next w out built) (hle : next ≤ next')
    (hw : Fresh d next w w') : Outputs d first next' w' out built where
  files := h.files
  readers := h.readers
  stored := fun f hf => by
    obtain ⟨data, hd, hs⟩ := h.stored f hf
    exact ⟨data, (hw.bytes_table (h.numbers f hf).2).trans hd, hs⟩
  numbers := fun f hf => ⟨(h.numbers f hf).1, UInt64.lt_of_lt_of_le (h.numbers f hf).2 hle⟩
  increasing := h.increasing
  sized := h.sized

/-- One more table. -/
theorem append {t : Table} {fm : FileMetaData} {r : SSTableReader}
    (h : Outputs d first next w out built) (hb : Built t d next w fm r) (hfirst : first ≤ next)
    (hnext : next < next') (hsize : built.length < maxOpenFiles) :
    Outputs d first next' w ⟨out.newFiles ++ [fm], out.newReaders ++ [r]⟩ (built ++ [hb.file]) where
  files := by rw [h.files, List.map_append]; rfl
  readers := List.rel_append h.readers (List.Forall₂.cons hb.readIn List.Forall₂.nil)
  stored := by
    intro f hf
    rcases List.mem_append.mp hf with hf | hf
    · exact h.stored f hf
    · rw [List.mem_singleton.mp hf]
      exact hb.storedIn
  numbers := by
    intro f hf
    rcases List.mem_append.mp hf with hf | hf
    · exact ⟨(h.numbers f hf).1, UInt64.lt_trans (h.numbers f hf).2 hnext⟩
    · have hnum : hb.file.number = next := hb.number
      rw [List.mem_singleton.mp hf, hnum]
      exact ⟨hfirst, hnext⟩
  increasing := by
    refine List.pairwise_append.mpr ⟨h.increasing, List.pairwise_singleton _ _, ?_⟩
    intro f hf g hg
    have hnum : hb.file.number = next := hb.number
    rw [List.mem_singleton.mp hg, hnum]
    exact (h.numbers f hf).2
  sized := by
    rw [List.length_append]
    exact hsize

theorem length_eq (h : Outputs d first next w out built) :
    built.length = out.newReaders.length := h.readers.length_eq

end Outputs

theorem kept_nil (dropTombstones : Bool) : kept dropTombstones [] = [] := by
  rw [kept]
  split <;> rfl

theorem kept_cons_drop {dropTombstones : Bool} {e : SSTableEntry} {es : List SSTableEntry}
    (h : dropTombstones = true ∧ e.type = .kDelete) :
    kept dropTombstones (e :: es) = kept dropTombstones es := by
  simp [kept, h]

theorem kept_cons_keep {dropTombstones : Bool} {e : SSTableEntry} {es : List SSTableEntry}
    (h : ¬(dropTombstones = true ∧ e.type = .kDelete)) :
    kept dropTombstones (e :: es) = e :: kept dropTombstones es := by
  cases dropTombstones with
  | false => rfl
  | true =>
      have htype : e.type ≠ .kDelete := fun ht => h ⟨rfl, ht⟩
      simp [kept, htype]

section Split

variable {E : Env} {C : World → Nat → Prop} {w : World} {b : Nat} {db : DB}
  {first : UInt64} {out : Output} {built : List TableFile}

/-- The options ask for a filter that cannot be built. -/
def DB.FilterFails (db : DB) : Prop :=
  ∃ keys, BloomFilter.build keys db.options.bloomBitsPerKey = none

theorem DB.FilterFailsWithin.filterFails {n : Nat} (h : db.FilterFailsWithin n) :
    db.FilterFails := by
  obtain ⟨keys, -, hnone⟩ := h
  exact ⟨keys, hnone⟩

/-- Writing a batch that is not empty adds one table. -/
theorem wp_flushBatch {t : Table} {Q : Status × DB × Output → World → Nat → Prop}
    (hx : E.excludes) (hout : Outputs db.dbPath first db.version.nextFileNumber w out built)
    (hfirst : first ≤ db.version.nextFileNumber)
    (hbudget : db.version.nextFileNumber.toNat + b < 2 ^ 64)
    (hC : E.crashes ∨ db.FilterFailsWithin t.entries.length → ∀ w' b', b' ≤ b →
      Fresh db.dbPath db.version.nextFileNumber w w' → C w' b')
    (hfail : E.fails → ∀ s w' b', b = b' + 1 → s.ok = false →
      Fresh db.dbPath db.version.nextFileNumber w w' →
      Q (s, db.withNext (db.version.nextFileNumber + 1), out) w' b')
    (hok : ∀ f out' w' b', b = b' + 1 → Fresh db.dbPath db.version.nextFileNumber w w' →
      Outputs db.dbPath first (db.version.nextFileNumber + 1) w' out' (built ++ [f]) →
      f.table = t → dataBytes t.entries ≤ maxFileBytes →
      Q (.OK, db.withNext (db.version.nextFileNumber + 1), out') w' b') :
    wp E (db.flushBatch out t.entries) Q C w b := by
  rw [flushBatch, if_neg t.nonempty]
  refine wp_bind (wp_buildTable (Or.inl hx)
    (fun hc w' b' hle hw' => hC (hc.imp_right fun hn => ⟨_, ?_, hn⟩) w' b' hle hw') ?_ ?_)
  · rw [List.length_map]
  · intro hf s w' b' hb hs hw'
    exact wp_pure (hfail hf s w' b' hb hs hw')
  · intro fm r w' b' hb hw' hbuilt hheld
    subst hb
    have hlt := (next_lt_succ hbudget).1
    have hsize : built.length < maxOpenFiles := by
      rw [hout.length_eq]
      omega
    obtain ⟨data, -, hstored⟩ := hbuilt.stored
    exact wp_pure (hok _ _ w' b' rfl hw'
      ((hout.fresh (UInt64.le_refl _) hw').append hbuilt hfirst hlt hsize) rfl
      hstored.dataBytes_le)

theorem dataBytes_append (es fs : List SSTableEntry) :
    dataBytes (es ++ fs) = dataBytes es + dataBytes fs := by
  rw [dataBytes, List.map_append, List.sum_append]
  rfl

/-- A size that a `size_t` holds. -/
theorem toNat_ofNat_dataBytes {es : List SSTableEntry} (h : dataBytes es ≤ maxFileBytes) :
    (UInt64.ofNat (dataBytes es)).toNat = dataBytes es := by
  have hmax : maxFileBytes < 2 ^ 64 := by decide
  rw [UInt64.toNat_ofNat', Nat.mod_eq_of_lt (by omega)]

/-- A batch is cut where its size reaches the target. -/
theorem cut_of_reached {target : UInt64} {batch : List SSTableEntry} {e : SSTableEntry}
    (hpos : 0 < target.toNat)
    (hbelow : batch ≠ [] → UInt64.ofNat (dataBytes batch) < target)
    (hreached : UInt64.ofNat (dataBytes (batch ++ [e])) ≥ target)
    (hle : dataBytes (batch ++ [e]) ≤ maxFileBytes) : Cut target (batch ++ [e]) := by
  have hbatch : dataBytes batch ≤ maxFileBytes := by
    rw [dataBytes_append] at hle
    omega
  constructor
  · have hnat := UInt64.le_iff_toNat_le.mp hreached
    rwa [toNat_ofNat_dataBytes hle] at hnat
  · rw [List.dropLast_concat]
    by_cases hnil : batch = []
    · rw [hnil]
      exact hpos
    · have hnat := UInt64.lt_iff_toNat_lt.mp (hbelow hnil)
      rwa [toNat_ofNat_dataBytes hbatch] at hnat

/-- The loop over the merged entries writes them all, in order, and cuts where
the target size is reached. -/
theorem wp_writeMerged {dropTombstones : Bool} {target : UInt64} {rest : List SSTableEntry}
    {batch : List SSTableEntry} {batchBytes : UInt64}
    {Q : Status × DB × Output → World → Nat → Prop} (hx : E.excludes)
    (hpos : 0 < target.toNat)
    (hasc : KeyedRun.Ascending SSTableEntry.key (batch ++ rest))
    (hvalid : ∀ e ∈ batch ++ rest, e.Valid)
    (hbytes : batchBytes = UInt64.ofNat (dataBytes batch))
    (hbelow : batch ≠ [] → batchBytes < target)
    (hout : Outputs db.dbPath first db.version.nextFileNumber w out built)
    (hcut : ∀ f ∈ built, Cut target f.table.entries)
    (hfirst : first ≤ db.version.nextFileNumber)
    (hbudget : db.version.nextFileNumber.toNat + b < 2 ^ 64)
    (hC : E.crashes ∨ db.FilterFailsWithin (batch ++ rest).length → ∀ w' b', b' ≤ b →
      Fresh db.dbPath db.version.nextFileNumber w w' → C w' b')
    (hfail : E.fails → ∀ s next out' w' b', s.ok = false → db.version.nextFileNumber ≤ next →
      next.toNat + b' = db.version.nextFileNumber.toNat + b →
      Fresh db.dbPath db.version.nextFileNumber w w' → Q (s, db.withNext next, out') w' b')
    (hok : ∀ next out' built' w' b', db.version.nextFileNumber ≤ next →
      next.toNat + b' = db.version.nextFileNumber.toNat + b →
      Fresh db.dbPath db.version.nextFileNumber w w' →
      Outputs db.dbPath first next w' out' built' →
      entriesOf built' = entriesOf built ++ (batch ++ kept dropTombstones rest) →
      (∀ f ∈ built'.dropLast, Cut target f.table.entries) →
      Q (.OK, db.withNext next, out') w' b') :
    wp E (writeMerged dropTombstones target rest db out batch batchBytes) Q C w b := by
  induction rest generalizing batch batchBytes out built db w b with
  | nil =>
      rw [List.append_nil] at hasc hvalid hC
      rw [kept_nil, List.append_nil] at hok
      rw [writeMerged]
      by_cases hnil : batch = []
      · subst hnil
        rw [flushBatch, if_pos rfl]
        refine wp_pure (hok _ _ built w b (UInt64.le_refl _) rfl (Fresh.refl _ _ _) hout
          (List.append_nil _).symm fun f hf => hcut f ((List.dropLast_sublist _).subset hf))
      · refine wp_flushBatch (t := ⟨batch, hnil, hasc, hvalid⟩) hx hout hfirst hbudget hC
          (fun hf s w' b' hb hs hw' => ?_) fun f out' w' b' hb hw' hout' ht _ => ?_
        · obtain ⟨hlt, hspent⟩ := next_spent (hb ▸ hbudget)
          exact hfail hf s _ _ w' b' hs (UInt64.le_of_lt hlt) (hb ▸ hspent) hw'
        · obtain ⟨hlt, hspent⟩ := next_spent (hb ▸ hbudget)
          refine hok _ out' (built ++ [f]) w' b' (UInt64.le_of_lt hlt) (hb ▸ hspent) hw' hout' ?_ ?_
          · rw [entriesOf_append_singleton, ht]
          · rwa [List.dropLast_concat]
  | cons e rest ih =>
      rw [writeMerged]
      by_cases hdrop : dropTombstones = true ∧ e.type = .kDelete
      · -- the tombstone is left out
        rw [if_pos hdrop]
        rw [kept_cons_drop hdrop] at hok
        have hlen : (batch ++ rest).length ≤ (batch ++ e :: rest).length := by
          simp only [List.length_append, List.length_cons]
          omega
        refine ih (hasc.sublist ?_) (fun e' he' => hvalid e' ?_) hbytes hbelow hout hcut hfirst
          hbudget (fun hc => hC (hc.imp_right fun hn => hn.mono hlen rfl)) hfail hok
        · exact (List.sublist_cons_self e rest).append_left batch
        · exact ((List.sublist_cons_self e rest).append_left batch).subset he'
      · rw [if_neg hdrop]
        rw [kept_cons_keep hdrop] at hok
        have hsplit : batch ++ e :: rest = (batch ++ [e]) ++ rest := by
          rw [List.append_assoc]
          rfl
        have hnew : batchBytes + UInt64.ofNat (e.key.length + e.value.length) =
            UInt64.ofNat (dataBytes (batch ++ [e])) := by
          rw [hbytes, dataBytes_append, ← UInt64.ofNat_add]
          rfl
        rw [hsplit] at hasc hvalid hC
        simp only [hnew]
        by_cases hreached : UInt64.ofNat (dataBytes (batch ++ [e])) ≥ target
        · rw [if_pos hreached]
          have hne : batch ++ [e] ≠ [] := by simp
          have hhead : KeyedRun.Ascending SSTableEntry.key (batch ++ [e]) :=
            hasc.sublist (List.sublist_append_left _ _)
          have htail : KeyedRun.Ascending SSTableEntry.key ([] ++ rest) :=
            hasc.sublist (List.sublist_append_right _ _)
          refine wp_bind (wp_flushBatch (t := ⟨batch ++ [e], hne, hhead, fun e' he' =>
            hvalid e' (List.mem_append_left _ he')⟩) hx hout hfirst hbudget
            (fun hc => hC (hc.imp_right fun hn => hn.mono
              (List.sublist_append_left _ _).length_le rfl))
            (fun hf s w' b' hb hs hw' => ?_) fun f out' w' b' hb hw' hout' ht hle => ?_)
          · obtain ⟨hlt, hspent⟩ := next_spent (hb ▸ hbudget)
            simp only [hs, Bool.not_false, if_true]
            exact wp_pure (hfail hf s _ _ w' b' hs (UInt64.le_of_lt hlt) (hb ▸ hspent) hw')
          · subst hb
            obtain ⟨hlt, hspent⟩ := next_spent hbudget
            have hle' := UInt64.le_of_lt hlt
            simp only [Status.ok_OK, Bool.not_true, Bool.false_eq_true, if_false]
            refine ih htail (fun e' he' => hvalid e' (List.mem_append_right _ he')) rfl
              (fun h => absurd rfl h) hout' ?_ (UInt64.le_trans hfirst hle')
              (hspent.trans_lt hbudget) ?_ ?_ ?_
            · intro g hg
              rcases List.mem_append.mp hg with hg | hg
              · exact hcut g hg
              · rw [List.mem_singleton.mp hg, ht]
                exact cut_of_reached hpos (hbytes ▸ hbelow) hreached hle
            · intro hc w'' b'' hb'' hw''
              refine hC (hc.imp_right fun hn => hn.mono ?_ rfl) w'' b'' (by omega)
                (hw'.trans (hw''.mono hle'))
              exact (List.sublist_append_right _ _).length_le
            · intro hf s next out'' w'' b'' hs hnext hsum hw''
              exact hfail hf s next out'' w'' b'' hs (UInt64.le_trans hle' hnext)
                (hsum.trans hspent) (hw'.trans (hw''.mono hle'))
            · intro next out'' built' w'' b'' hnext hsum hw'' hout'' hentries hcut'
              refine hok next out'' built' w'' b'' (UInt64.le_trans hle' hnext)
                (hsum.trans hspent) (hw'.trans (hw''.mono hle')) hout'' ?_ hcut'
              rw [hentries, entriesOf_append_singleton, ht, List.nil_append, List.append_assoc,
                List.append_assoc]
              rfl
        · rw [if_neg hreached]
          refine ih hasc hvalid rfl (fun _ => UInt64.not_le.mp hreached) hout hcut hfirst hbudget
            hC hfail fun next out' built' w' b' hle hspent hw' hout' hentries hcut' => ?_
          refine hok next out' built' w' b' hle hspent hw' hout' ?_ hcut'
          rw [hentries, List.append_assoc]
          rfl

end Split

/-- The entries a compaction writes. -/
def outputEntries (files : Levels TableFile) (l l' : Fin kMaxLevels) : List SSTableEntry :=
  kept (l'.val == kMaxLevels - 1) (mergedEntries (mergeInputs files l l'))

/-- The size at which `CompactLocked` cuts. -/
def DB.targetFileBytes (db : DB) : UInt64 :=
  max db.options.memtableFlushBytes kMinCompactionOutputFileBytes

theorem DB.targetFileBytes_ge (db : DB) :
    kMinCompactionOutputFileBytes.toNat ≤ db.targetFileBytes.toNat := by
  have hmax : db.targetFileBytes =
      if db.options.memtableFlushBytes ≤ kMinCompactionOutputFileBytes then
        kMinCompactionOutputFileBytes else db.options.memtableFlushBytes := rfl
  rw [hmax]
  split
  next => exact Nat.le_refl _
  next h => exact Nat.le_of_lt (UInt64.lt_iff_toNat_lt.mp (UInt64.not_le.mp h))

theorem DB.targetFileBytes_pos (db : DB) : 0 < db.targetFileBytes.toNat :=
  Nat.lt_of_lt_of_le (by decide) db.targetFileBytes_ge

theorem mergeInputs_run {files : Levels TableFile} {l l' : Fin kMaxLevels}
    {run : List SSTableEntry} (h : run ∈ mergeInputs files l l') :
    ∃ f : TableFile, (f ∈ files l' ∨ f ∈ files l) ∧ run = f.table.entries := by
  obtain ⟨f, hf, rfl⟩ := List.mem_map.mp h
  exact ⟨f, (List.mem_append.mp hf).imp_right mem_mergeOrder.mp, rfl⟩

theorem mergeInputs_ascending (files : Levels TableFile) (l l' : Fin kMaxLevels) :
    ∀ run ∈ mergeInputs files l l', KeyedRun.Ascending SSTableEntry.key run := by
  intro run hrun
  obtain ⟨f, -, rfl⟩ := mergeInputs_run hrun
  exact f.table.ascending

theorem mergedEntries_valid {files : Levels TableFile} {l l' : Fin kMaxLevels} {e : SSTableEntry}
    (he : e ∈ mergedEntries (mergeInputs files l l')) : e.Valid := by
  obtain ⟨run, hrun, her⟩ := mem_of_mem_mergedEntries (mergeInputs_ascending files l l') he
  obtain ⟨f, -, rfl⟩ := mergeInputs_run hrun
  exact f.table.valid e her

/-- A merge makes no entry. -/
theorem length_mergedEntries_le (runs : List (List SSTableEntry)) :
    (mergedEntries runs).length ≤ runs.flatten.length := by
  have hinsert : ∀ (es : List SSTableEntry) (m : ExtTreeMap Bytes SSTableEntry),
      (KeyedRun.insertAll SSTableEntry.key m es).size ≤ m.size + es.length := by
    intro es
    induction es with
    | nil => exact fun m => Nat.le_refl _
    | cons e es ih =>
        intro m
        have hsize := ExtTreeMap.size_insert_le (t := m) (k := e.key) (v := e)
        rw [List.length_cons]
        exact (ih (m.insert e.key e)).trans (by omega)
  have hruns : ∀ (runs : List (List SSTableEntry)) (m : ExtTreeMap Bytes SSTableEntry),
      (runs.foldl (KeyedRun.insertAll SSTableEntry.key) m).size ≤ m.size + runs.flatten.length := by
    intro runs
    induction runs with
    | nil => exact fun m => Nat.le_refl _
    | cons run runs ih =>
        intro m
        have hrun := hinsert run m
        rw [List.foldl_cons, List.flatten_cons, List.length_append]
        exact (ih _).trans (by omega)
  have hall := hruns runs ∅
  rw [mergedEntries, List.length_map, ExtTreeMap.length_toList]
  rwa [ExtTreeMap.size_empty, Nat.zero_add] at hall

theorem length_mergeInputs (files : Levels TableFile) (l l' : Fin kMaxLevels) :
    (mergeInputs files l l').flatten.length =
      (entriesOf (files l')).length + (entriesOf (files l)).length := by
  have hperm : (mergeOrder l (files l)).Perm (files l) := by
    rw [mergeOrder]
    refine (List.reverse_perm _).trans ?_
    split
    · exact List.mergeSort_perm _ _
    · exact List.Perm.refl _
  rw [mergeInputs, List.map_append, List.flatten_append, List.length_append,
    (hperm.map fun f => f.table.entries).flatten.length_eq]
  rfl

/-- A compaction writes no more entries than it reads. -/
theorem length_outputEntries_le (files : Levels TableFile) (l l' : Fin kMaxLevels) :
    (outputEntries files l l').length ≤
      (entriesOf (files l')).length + (entriesOf (files l)).length := by
  have hmerged := length_mergedEntries_le (mergeInputs files l l')
  rw [length_mergeInputs] at hmerged
  refine Nat.le_trans ?_ hmerged
  rw [outputEntries, kept]
  split
  · exact List.length_filter_le _ _
  · exact Nat.le_refl _

/-- A compaction reads its tables before it writes. -/
theorem wp_compactLocked_merged {E : Env} {C : World → Nat → Prop} {w : World} {b : Nat} {db : DB}
    {files : Levels TableFile} {l l' : Fin kMaxLevels} {Q : Status × DB → World → Nat → Prop}
    (ha : Aligned files w db) (hl : l'.val = l.val + 1) (hC : E.crashes → C w b)
    (hfail : E.fails → ∀ s, s.ok = false → Q (s, db) w b)
    (hwrite : wp E (writeMerged (l.val + 1 == kMaxLevels - 1) db.targetFileBytes
      (mergedEntries (mergeInputs files l l')) db {} [] 0 >>= fun r =>
        if !r.1.ok then pure (r.1, r.2.1) else r.2.1.installOutput l l' r.2.2) Q C w b) :
    wp E (db.compactLocked l) Q C w b := by
  have hlt : ¬l.val + 1 ≥ kMaxLevels := by
    rw [← hl]
    exact Nat.not_le.mpr l'.isLt
  have htarget : (⟨l.val + 1, Nat.lt_of_not_le hlt⟩ : Fin kMaxLevels) = l' := Fin.ext hl.symm
  rw [compactLocked, dif_neg hlt]
  simp only [htarget]
  refine wp_observes (ha.observes_merge l l') hC fun x hx => ?_
  rcases hx with rfl | ⟨hf, s, rfl, hs⟩
  · exact hwrite
  · exact wp_pure (hfail hf s hs)

/-- A compaction reads, merges and writes before it installs anything. -/
theorem wp_compactLocked {E : Env} {C : World → Nat → Prop} {w : World} {b : Nat} {db : DB}
    {files : Levels TableFile} {l l' : Fin kMaxLevels} {Q : Status × DB → World → Nat → Prop}
    (hx : E.excludes) (ha : Aligned files w db) (hl : l'.val = l.val + 1)
    (hbudget : db.version.nextFileNumber.toNat + b < 2 ^ 64)
    (hC : E.crashes ∨ db.FilterFailsWithin (mergedEntries (mergeInputs files l l')).length →
      ∀ w' b', b' ≤ b → Fresh db.dbPath db.version.nextFileNumber w w' → C w' b')
    (hfail : E.fails → ∀ s next w' b', s.ok = false → db.version.nextFileNumber ≤ next →
      next.toNat + b' = db.version.nextFileNumber.toNat + b →
      Fresh db.dbPath db.version.nextFileNumber w w' → Q (s, db.withNext next) w' b')
    (hinstall : ∀ next out built w' b', db.version.nextFileNumber ≤ next →
      next.toNat + b' = db.version.nextFileNumber.toNat + b →
      Fresh db.dbPath db.version.nextFileNumber w w' →
      Outputs db.dbPath db.version.nextFileNumber next w' out built →
      entriesOf built = outputEntries files l l' →
      (∀ f ∈ built.dropLast, Cut db.targetFileBytes f.table.entries) →
      wp E ((db.withNext next).installOutput l l' out) Q C w' b') :
    wp E (db.compactLocked l) Q C w b := by
  have hall : entriesOf [] ++ ([] ++ kept (l.val + 1 == kMaxLevels - 1)
      (mergedEntries (mergeInputs files l l'))) = outputEntries files l l' := by
    rw [outputEntries, hl]
    rfl
  refine wp_compactLocked_merged ha hl
    (fun hc => hC (Or.inl hc) w b (Nat.le_refl b) (Fresh.refl _ _ _))
    (fun hf s hs => hfail hf s db.version.nextFileNumber w b hs (UInt64.le_refl _) rfl
      (Fresh.refl _ _ _)) ?_
  refine wp_bind (wp_writeMerged hx db.targetFileBytes_pos
    (mergedEntries_ascending (mergeInputs files l l')) (fun e he => mergedEntries_valid he)
    rfl (fun h => absurd rfl h) (Outputs.nil _ _ _ _) (by simp) (UInt64.le_refl _) hbudget hC
    ?_ ?_)
  · intro hf s next out w' b' hs hle hspent hw'
    simp only [hs, Bool.not_false, if_true]
    exact wp_pure (hfail hf s next w' b' hs hle hspent hw')
  · intro next out built w' b' hle hspent hw' hout hentries hcut
    simp only [Status.ok_OK, Bool.not_true, Bool.false_eq_true, if_false]
    exact hinstall next out built w' b' hle hspent hw' hout (hentries.trans hall) hcut

/-- The files of some tables may be gone, and nothing else has changed. -/
structure Removed (d : Path) (numbers : List UInt64) (w w' : World) : Prop where
  directory : w'.directory = w.directory
  file : ∀ q, w'.file q = w.file q ∨ w'.file q = none ∧ ∃ n ∈ numbers,
    canonical q = canonical (sstablePath d n)

namespace Removed

variable {d : Path} {numbers : List UInt64} {w w' : World}

theorem refl (d : Path) (numbers : List UInt64) (w : World) : Removed d numbers w w :=
  ⟨rfl, fun _ => Or.inl rfl⟩

theorem cons (h : Removed d numbers w w') (n : UInt64) : Removed d (n :: numbers) w w' :=
  ⟨h.directory, fun q => (h.file q).imp_right fun ⟨hq, m, hm, heq⟩ =>
    ⟨hq, m, List.mem_cons_of_mem _ hm, heq⟩⟩

theorem delete {n : UInt64} (h : Removed d numbers (w.delete (sstablePath d n)) w') :
    Removed d (n :: numbers) w w' := by
  refine ⟨h.directory, fun q => ?_⟩
  by_cases hq : canonical q = canonical (sstablePath d n)
  · refine Or.inr ⟨?_, n, List.mem_cons_self, hq⟩
    rcases h.file q with hw | ⟨hw, -⟩
    · rw [hw, file_delete, if_pos hq]
    · exact hw
  · rcases h.file q with hw | ⟨hw, m, hm, heq⟩
    · exact Or.inl (hw.trans (file_delete_of_ne hq))
    · exact Or.inr ⟨hw, m, List.mem_cons_of_mem _ hm, heq⟩

theorem bytes (h : Removed d numbers w w') {q : Path}
    (hq : ∀ n ∈ numbers, canonical q ≠ canonical (sstablePath d n)) :
    w'.bytes q = w.bytes q := by
  rcases h.file q with hw | ⟨-, n, hn, heq⟩
  · rw [World.bytes, World.bytes, hw]
  · exact absurd heq (hq n hn)

theorem bytes_table (h : Removed d numbers w w') {n : UInt64} (hn : n ∉ numbers) :
    w'.bytes (sstablePath d n) = w.bytes (sstablePath d n) :=
  h.bytes fun m hm heq => hn (by rwa [sstablePath_inj d heq])

theorem bytes_manifest (h : Removed d numbers w w') :
    w'.bytes (manifestPath d) = w.bytes (manifestPath d) :=
  h.bytes fun n _ heq => sstablePath_ne_manifest d n heq.symm

theorem bytes_wal (h : Removed d numbers w w') : w'.bytes (walPath d) = w.bytes (walPath d) :=
  h.bytes fun n _ heq => sstablePath_ne_wal d n heq.symm

end Removed

section Install

variable {E : Env} {C : World → Nat → Prop} {w : World} {b : Nat} {db : DB}

theorem wp_removeTables {d : Path} {numbers : List UInt64} {Q : Unit → World → Nat → Prop}
    (hQ : ∀ w', Removed d numbers w w' →
      (E.fails ∨ ∀ n ∈ numbers, w'.file (sstablePath d n) = none) → Q () w' b)
    (hC : E.crashes → ∀ w', Removed d numbers w w' → C w' b) :
    wp E (removeTables d numbers) Q C w b := by
  induction numbers generalizing w Q with
  | nil => exact wp_pure (hQ w (Removed.refl _ _ _) (Or.inr (by simp)))
  | cons n numbers ih =>
      rw [removeTables]
      refine wp_bind (wp_remove (ih (fun w' hw' hgone => hQ w' hw'.delete ?_)
        fun hc w' hw' => hC hc w' hw'.delete) (fun hf => ?_) fun hc => ?_)
      · refine hgone.imp_right fun h => List.forall_mem_cons.mpr ⟨?_, h⟩
        rcases hw'.file (sstablePath d n) with hw | ⟨hw, -⟩
        · exact hw.trans (file_delete_same _ _)
        · exact hw
      · exact ih (fun w' hw' _ => hQ w' (hw'.cons n) (Or.inl hf))
          fun hc w' hw' => hC hc w' (hw'.cons n)
      · exact ⟨hC hc w (Removed.refl _ _ _), hC hc _ (Removed.delete (Removed.refl _ _ _))⟩

/-- `CompactLocked` switches to the new tables. -/
def DB.switch (db : DB) (l l' : Fin kMaxLevels) (out : Output) : DB :=
  { db with
    version := (db.version.setLevel l []).setLevel l' out.newFiles
    openReaders := Function.update (Function.update db.openReaders l []) l' out.newReaders }

/-- The numbers whose files `CompactLocked` unlinks. -/
def DB.oldNumbers (db : DB) (l l' : Fin kMaxLevels) : List UInt64 :=
  (db.version.levels l ++ db.version.levels l').map FileMetaData.number

/-- The new version is saved, and then the old files go. -/
theorem wp_installOutput {l l' : Fin kMaxLevels} {out : Output}
    {Q : Status × DB → World → Nat → Prop}
    (hfit : E.excludes ∨ (db.switch l l' out).version.encode.length ≤ maxFileBytes)
    (hfail : E.fails → ∀ s w', s.ok = false →
      OnlyAt (Version.tmpPath (manifestPath db.dbPath)) w w' → Q (s, db.switch l l' out) w' b)
    (hok : ∀ w₁ w', Version.Saved (db.switch l l' out).version (manifestPath db.dbPath) w w₁ →
      Removed db.dbPath (db.oldNumbers l l') w₁ w' →
      (E.fails ∨ ∀ n ∈ db.oldNumbers l l', w'.file (sstablePath db.dbPath n) = none) →
      Q (.OK, db.switch l l' out) w' b)
    (htmp : E.crashes → ∀ w', OnlyAt (Version.tmpPath (manifestPath db.dbPath)) w w' → C w' b)
    (hold : E.crashes → ∀ w₁ w',
      Version.Saved (db.switch l l' out).version (manifestPath db.dbPath) w w₁ →
      Removed db.dbPath (db.oldNumbers l l') w₁ w' → C w' b) :
    wp E (db.installOutput l l' out) Q C w b := by
  rw [installOutput]
  refine wp_bind (Version.wp_save hfit (fun w₁ hw₁ => ?_) (fun hf s w' hs hw' => ?_)
    fun hc w' hw' => ?_)
  · simp only [Status.ok_OK, Bool.not_true, Bool.false_eq_true, if_false]
    exact wp_bind (wp_removeTables (fun w' hw' hgone => wp_pure (hok w₁ w' hw₁ hw' hgone))
      fun hc w' hw' => hold hc w₁ w' hw₁ hw')
  · simp only [hs, Bool.not_false, if_true]
    exact wp_pure (hfail hf s w' hs hw')
  · rcases hw' with hw' | hw'
    · exact htmp hc w' hw'
    · exact hold hc w' w' hw' (Removed.refl _ _ _)

end Install

end ClomDB
