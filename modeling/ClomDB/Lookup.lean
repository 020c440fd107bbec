import ClomDB.CompactLocked

/-!
# Lookups and scans

`Get` asks the tables from the newest to the oldest and stops at the first
that speaks of the key. `NewIterator` lays the tables over each other from the
oldest to the newest. Both are followed for every pattern of failing reads:
they see the tables that could be read, and no others.

## Implementation notes

The reads of one call are asked in a fixed order, so a fault script says which
of the tables meet a failing read. `spared` lists the others.
-/

namespace ClomDB

open Std FaultProgram FileSystem FileSystem.World LayeredMap SSTable DB

variable {w : World} {db : DB}

section Failsafe

variable {content : Bytes} {pos : Nat}

theorem failsafe_fread {n : Nat} (hn : 0 < n) :
    Failsafe (fread content pos n) (fun got => got.length < n) w :=
  ⟨_, reads_fread_take content hn⟩

theorem failsafe_fseek (pos : Int) : Failsafe (fseek pos) (· = false) w :=
  Failsafe.probe fun _ => rfl

/-- A read of one byte that fails gets none. -/
theorem nil_of_short {got : Bytes} (h : got.length < 1) : got = [] :=
  List.length_eq_zero_iff.mp (by omega)

theorem failsafe_readVarintBytes (n : Nat) (tmp : Bytes) :
    Failsafe (readVarintBytes content n pos tmp) (· = none) w := by
  induction n generalizing pos tmp with
  | zero => exact Failsafe.ret _
  | succ n ih =>
      rw [readVarintBytes]
      refine Failsafe.bind (failsafe_fread Nat.one_pos) (fun got => ?_) fun got hgot => ?_
      · cases got with
        | nil => exact Failsafe.ret _
        | cons b rest =>
            simp only
            split
            · exact Failsafe.ret _
            · exact ih _
      · rw [nil_of_short hgot]
        exact Reads.ret rfl

theorem failsafe_readVarint : Failsafe (readVarint content pos) (· = .truncated) w := by
  rw [readVarint]
  refine Failsafe.bind (failsafe_readVarintBytes 5 []) (fun r => ?_) fun r hr => ?_
  · cases r with
    | none => exact Failsafe.ret _
    | some p =>
        simp only
        split
        · exact Failsafe.ret _
        · exact Failsafe.ret _
  · rw [hr]
    exact Reads.ret rfl

theorem failsafe_readString (len : Nat) : Failsafe (readString content pos len) (· = none) w := by
  rw [readString]
  split
  · exact Failsafe.ret _
  next h0 =>
    refine Failsafe.bind (failsafe_fread (Nat.pos_of_ne_zero h0)) (fun got => ?_)
      fun got hgot => ?_
    · split
      · exact Failsafe.ret _
      · exact Failsafe.ret _
    · rw [if_pos (by omega)]
      exact Reads.ret rfl

/-- `SSTableReader::Get` finds nothing when a read of it fails. -/
theorem failsafe_get (r : SSTableReader) (key : Bytes) : Failsafe (r.get key) (· = none) w := by
  rw [SSTableReader.get]
  split
  · exact Failsafe.ret _
  split
  · exact Failsafe.ret _
  next it _ =>
    split
    · exact Failsafe.ret _
    refine Failsafe.state (Failsafe.bind (failsafe_fseek _) (fun sought => ?_) fun sought hs => ?_)
    swap
    · rw [hs]
      exact Reads.ret rfl
    split
    · exact Failsafe.ret _
    refine Failsafe.bind (failsafe_fread Nat.one_pos) (fun got => ?_) fun got hgot => ?_
    swap
    · rw [nil_of_short hgot]
      exact Reads.ret rfl
    cases got with
    | nil => exact Failsafe.ret _
    | cons typeByte rest =>
        refine Failsafe.bind failsafe_readVarint (fun v => ?_) fun v hv => ?_
        swap
        · rw [hv]
          exact Reads.ret rfl
        cases v with
        | truncated => exact Failsafe.ret _
        | malformed => exact Failsafe.ret _
        | value klen pos =>
            refine Failsafe.bind (failsafe_readString _) (fun k => ?_) fun k hk => ?_
            swap
            · rw [hk]
              exact Reads.ret rfl
            cases k with
            | none => exact Failsafe.ret _
            | some k =>
                simp only
                split
                · exact Failsafe.ret _
                refine Failsafe.bind failsafe_readVarint (fun v => ?_) fun v hv => ?_
                swap
                · rw [hv]
                  exact Reads.ret rfl
                cases v with
                | truncated => exact Failsafe.ret _
                | malformed => exact Failsafe.ret _
                | value vlen pos =>
                    refine Failsafe.bind (failsafe_readString _) (fun v => ?_) fun v hv => ?_
                    · cases v with
                      | none => exact Failsafe.ret _
                      | some v => exact Failsafe.ret _
                    · rw [hv]
                      exact Reads.ret rfl

/-- An error status. -/
def Rejected {α : Type} (x : Except Status α) : Prop := ∃ s, x = .error s ∧ s.ok = false

theorem failsafe_readEntry (path : Path) : Failsafe (readEntry path content pos) Rejected w := by
  rw [readEntry]
  refine Failsafe.bind (failsafe_fread Nat.one_pos) (fun got => ?_) fun got hgot => ?_
  swap
  · rw [nil_of_short hgot]
    exact Reads.ret ⟨_, rfl, rfl⟩
  cases got with
  | nil => exact Failsafe.ret _
  | cons typeByte rest =>
      refine Failsafe.bind failsafe_readVarint (fun v => ?_) fun v hv => ?_
      swap
      · rw [hv]
        exact Reads.ret ⟨_, rfl, rfl⟩
      cases v with
      | truncated => exact Failsafe.ret _
      | malformed => exact Failsafe.ret _
      | value klen pos =>
          refine Failsafe.bind (failsafe_readString _) (fun k => ?_) fun k hk => ?_
          swap
          · rw [hk]
            exact Reads.ret ⟨_, rfl, rfl⟩
          cases k with
          | none => exact Failsafe.ret _
          | some k =>
              simp only
              split
              swap
              · exact Failsafe.ret _
              refine Failsafe.bind failsafe_readVarint (fun v => ?_) fun v hv => ?_
              swap
              · rw [hv]
                exact Reads.ret ⟨_, rfl, rfl⟩
              cases v with
              | truncated => exact Failsafe.ret _
              | malformed => exact Failsafe.ret _
              | value vlen pos =>
                  refine Failsafe.bind (failsafe_readString _) (fun v => ?_) fun v hv => ?_
                  · cases v with
                    | none => exact Failsafe.ret _
                    | some v => exact Failsafe.ret _
                  · rw [hv]
                    exact Reads.ret ⟨_, rfl, rfl⟩

theorem failsafe_readEntries (path : Path) (n : Nat) :
    Failsafe (readEntries path content n pos) Rejected w := by
  induction n generalizing pos with
  | zero => exact Failsafe.ret _
  | succ n ih =>
      rw [readEntries]
      refine Failsafe.bind (failsafe_readEntry path) (fun x => ?_) fun x hx => ?_
      · cases x with
        | error s => exact Failsafe.ret _
        | ok p =>
            refine Failsafe.bind ih (fun y => ?_) fun y hy => ?_
            · cases y with
              | error s => exact Failsafe.ret _
              | ok es => exact Failsafe.ret _
            · obtain ⟨s, rfl, hs⟩ := hy
              exact Reads.ret ⟨s, rfl, hs⟩
      · obtain ⟨s, rfl, hs⟩ := hx
        exact Reads.ret ⟨s, rfl, hs⟩

/-- `SSTableReader::ReadAll` ends in an error when a read of it fails. -/
theorem failsafe_readAll (r : SSTableReader) : Failsafe r.readAll Rejected w := by
  rw [SSTableReader.readAll]
  refine Failsafe.state (Failsafe.bind (failsafe_fseek _) (fun sought => ?_) fun sought hs => ?_)
  · split
    · exact Failsafe.ret _
    · exact failsafe_readEntries _ _
  · rw [hs]
    exact Reads.ret ⟨_, rfl, rfl⟩

end Failsafe

section Get

/-- What a reader says of a key when no read fails. -/
def SSTable.SSTableReader.tells (w : World) (r : SSTableReader) : Layer Bytes Bytes := fun key =>
  match r.get key w [] with
  | .returned found _ _ _ => found
  | _ => none

/-- Only a failing read can keep a reader from saying it. -/
theorem reads_tells (r : SSTableReader) (w : World) (key : Bytes) :
    Reads (r.get key) (· = r.tells w key) (· = none) w := by
  obtain ⟨x, hx⟩ := failsafe_get (w := w) r key
  obtain ⟨a, hr, rfl⟩ := hx.returns_nil
  have htells : r.tells w key = a := by rw [SSTableReader.tells, hr]
  rwa [htells]

/-- The readers that `Get` asks, in its order. -/
def DB.searchOrder (db : DB) (key : Bytes) : List SSTableReader :=
  db.sortedL0 (fun a b => decide (b ≤ a)) ++ db.deepReaders key

/-- The readers whose answer to a search for the key meets no failing read. -/
def answering (w : World) (key : Bytes) (rs : List SSTableReader) (fs : List Fault) :
    List SSTableReader :=
  spared (fun r => r.get key) w rs fs

/-- A search finds what the readers that answer say of the key. -/
theorem searchReaders_returns (key : Bytes) (rs : List SSTableReader) {fs : List Fault}
    (hfs : ∀ n, Fault.crash n ∉ fs) : ∃ rest, rest ⊆ fs ∧ searchReaders key rs w fs =
      .returned (stack ((answering w key rs fs).map (·.tells w)) key) w rest 0 := by
  induction rs generalizing fs with
  | nil => exact ⟨fs, List.Subset.refl fs, rfl⟩
  | cons r rs ih =>
      obtain ⟨a, hr, hleft, hcase⟩ := (reads_tells r w key).returns hfs
      obtain ⟨rest, hsub, hrest⟩ := ih fun n hn => hfs n (hleft hn)
      have hsub' : rest ⊆ fs := List.Subset.trans hsub hleft
      rw [searchReaders, Prog.bind_of_returned hr, answering, spared_cons]
      rcases hcase with ⟨hno, ha⟩ | ⟨hmeets, ha⟩
      · obtain rfl : a = r.tells w key := ha
        rw [if_neg hno, List.map_cons, stack, overlay]
        cases hsaid : r.tells w key with
        | some found => exact ⟨_, hleft, rfl⟩
        | none => exact ⟨rest, hsub', hrest⟩
      · obtain rfl : a = none := ha
        rw [if_pos hmeets]
        exact ⟨rest, hsub', hrest⟩

/-- What `Get` sees when some of the reads fail. -/
def DB.seen (db : DB) (w : World) (fs : List Fault) : Content := fun key =>
  view (overlay db.memtable.layer
    (stack ((answering w key (db.searchOrder key) fs).map (·.tells w)))) key

theorem get_returns (hopen : db.closed = false) {fs : List Fault}
    (hfs : ∀ n, Fault.crash n ∉ fs) (key : Bytes) : ∃ rest, rest ⊆ fs ∧
      db.get key w fs = .returned (answer key (db.seen w fs key)) w rest 0 := by
  have hmem : db.memtable.layer key = db.memtable.get key := rfl
  rw [DB.get, if_neg (by rw [hopen]; simp), DB.seen, view_overlay, hmem]
  cases hm : db.memtable.get key with
  | some found => exact ⟨fs, List.Subset.refl fs, rfl⟩
  | none =>
      obtain ⟨rest, hsub, hrest⟩ :=
        searchReaders_returns (w := w) key (db.searchOrder key) hfs
      refine ⟨rest, hsub, ?_⟩
      rw [DB.searchOrder] at hrest
      simp only
      rw [Prog.bind_of_returned hrest, ← DB.searchOrder, view]
      cases stack ((answering w key (db.searchOrder key) fs).map (·.tells w)) key with
      | some found => rfl
      | none => rfl

/-- Executions of `Get` without faults end in one answer. -/
theorem observes_get (hopen : db.closed = false) (key : Bytes) :
    Observes Env.sure (db.get key) (· = answer key (db.seen w [] key)) w := by
  refine Observes.of_returns fun fs hfs => ?_
  obtain ⟨rest, hsub, hrest⟩ := get_returns (w := w) hopen (fun n hn => hfs.2 n hn) key
  refine ⟨_, rest, hsub, hrest, ?_⟩
  have hsame : ∀ fs, (∀ n, Fault.fail n ∉ fs) →
      answering w key (db.searchOrder key) fs = db.searchOrder key := fun fs hno =>
    spared_of_no_failure hno fun r _ => ⟨_, _, reads_tells r w key⟩
  rw [DB.seen, DB.seen, hsame fs fun n hn => hfs.1 n hn, hsame [] (by simp)]

end Get

section Scan

/-- One entry laid over the snapshot. -/
def applyEntry (snapshot : ExtTreeMap Bytes Bytes) (e : SSTableEntry) : ExtTreeMap Bytes Bytes :=
  if e.type = .kDelete then snapshot.erase e.key else snapshot.insert e.key e.value

/-- Entries laid over the snapshot: the last one of a key decides. -/
theorem getElem?_applyEntries (snapshot : ExtTreeMap Bytes Bytes) (es : List SSTableEntry)
    (k : Bytes) :
    (applyEntries snapshot es)[k]? = (layerOf es.reverse k).getD snapshot[k]? := by
  induction es generalizing snapshot with
  | nil => rfl
  | cons e es ih =>
      have hrec := ih (applyEntry snapshot e)
      rw [applyEntries] at hrec ⊢
      have hlast : layerOf [e] k = if e.key = k then some e.said else none := by
        rw [layerOf, KeyedRun.find_cons]
        split <;> rfl
      have hone : (applyEntry snapshot e)[k]? = (layerOf [e] k).getD snapshot[k]? := by
        rw [hlast, applyEntry, SSTableEntry.said]
        by_cases hk : e.key = k
        · subst hk
          rw [if_pos rfl, Option.getD_some]
          split <;> simp
        · have hcmp : compare e.key k ≠ .eq := fun hc => hk (LawfulEqCmp.eq_of_compare hc)
          rw [if_neg hk]
          split
          · rw [ExtTreeMap.getElem?_erase, if_neg hcmp]
            rfl
          · rw [ExtTreeMap.getElem?_insert, if_neg hcmp]
            rfl
      rw [List.foldl_cons, List.reverse_cons, layerOf_append, overlay]
      change ((es.foldl _ (applyEntry snapshot e))[k]?) = _
      rw [hrec, hone]
      cases layerOf es.reverse k <;> rfl

/-- The memtable is laid over the snapshot as a table of its entries. -/
theorem applyMemtable_eq (snapshot : ExtTreeMap Bytes Bytes) (m : MemTable) :
    applyMemtable snapshot m = applyEntries snapshot m.flushEntries := by
  rw [applyMemtable, applyEntries, MemTable.flushEntries, List.foldl_map]
  congr 1
  funext snapshot p
  rw [MemTable.flushEntry]
  cases p.2.deleted <;> rfl

/-- In a run the first entry of a key is the last one. -/
theorem layerOf_reverse {es : List SSTableEntry} (h : KeyedRun.Ascending SSTableEntry.key es) :
    layerOf es.reverse = layerOf es := by
  funext k
  rw [layerOf, layerOf]
  congr 1
  cases hf : KeyedRun.find SSTableEntry.key k es with
  | none =>
      rw [KeyedRun.find_eq_none_iff] at hf ⊢
      exact fun e he => hf e (List.mem_reverse.mp he)
  | some e =>
      obtain ⟨he, hk⟩ := KeyedRun.mem_of_find hf
      cases hr : KeyedRun.find SSTableEntry.key k es.reverse with
      | none => exact absurd hk ((KeyedRun.find_eq_none_iff.mp hr) e (List.mem_reverse.mpr he))
      | some e' =>
          obtain ⟨he', hk'⟩ := KeyedRun.mem_of_find hr
          have hfind := KeyedRun.find_of_mem h (List.mem_reverse.mp he')
          rw [hk', hf] at hfind
          exact hfind.symm

/-- What the entries of a reader say when no read fails. -/
def SSTable.SSTableReader.lists (w : World) (r : SSTableReader) : Layer Bytes Bytes :=
  match r.readAll w [] with
  | .returned (.ok es) _ _ _ => layerOf es.reverse
  | _ => silent

/-- Only a failing read can keep a reader from listing its entries. -/
theorem reads_lists (r : SSTableReader) (w : World) : ∃ x, Reads r.readAll (· = x) Rejected w ∧
    r.lists w = match x with | .ok es => layerOf es.reverse | .error _ => silent := by
  obtain ⟨x, hx⟩ := failsafe_readAll (w := w) r
  obtain ⟨a, hr, rfl⟩ := hx.returns_nil
  refine ⟨a, hx, ?_⟩
  rw [SSTableReader.lists, hr]
  cases a <;> rfl

/-- The readers that `NewIterator` lays over each other, in its order. -/
def DB.scanOrder (db : DB) : List SSTableReader :=
  ([5, 4, 3, 2, 1].flatMap fun (l : Fin kMaxLevels) => db.openReaders l) ++
    db.sortedL0 fun a b => decide (a ≤ b)

/-- The readers of a scan that meet no failing read. -/
def listing (w : World) (rs : List SSTableReader) (fs : List Fault) : List SSTableReader :=
  spared SSTableReader.readAll w rs fs

/-- A scan shows what the readers that could be read list, the last one on top. -/
theorem scanReaders_returns (rs : List SSTableReader) {fs : List Fault}
    (hfs : ∀ n, Fault.crash n ∉ fs) (snapshot : ExtTreeMap Bytes Bytes) :
    ∃ snapshot' rest, rest ⊆ fs ∧ scanReaders snapshot rs w fs = .returned snapshot' w rest 0 ∧
      ∀ k, snapshot'[k]? =
        (stack ((listing w rs fs).reverse.map (·.lists w)) k).getD snapshot[k]? := by
  induction rs generalizing fs snapshot with
  | nil => exact ⟨snapshot, fs, List.Subset.refl fs, rfl, fun _ => rfl⟩
  | cons r rs ih =>
      obtain ⟨x, hreads, hlists⟩ := reads_lists r w
      obtain ⟨a, hr, hleft, hcase⟩ := hreads.returns hfs
      have hcrash : ∀ n, Fault.crash n ∉ r.readAll.left w fs := fun n hn => hfs n (hleft hn)
      have hrec := ih hcrash
      rw [scanReaders, Prog.bind_of_returned hr, listing, spared_cons]
      rcases hcase with ⟨hno, rfl⟩ | ⟨hmeets, s, rfl, -⟩
      · rw [if_neg hno]
        cases a with
        | error s =>
            obtain ⟨snapshot', rest, hsub, hrest, hshows⟩ := hrec snapshot
            refine ⟨snapshot', rest, List.Subset.trans hsub hleft, hrest, fun k => ?_⟩
            rw [List.reverse_cons, List.map_append, stack_append, List.map_singleton, stack, stack,
              hlists, overlay_silent, overlay_silent]
            exact hshows k
        | ok es =>
            obtain ⟨snapshot', rest, hsub, hrest, hshows⟩ := hrec (applyEntries snapshot es)
            refine ⟨snapshot', rest, List.Subset.trans hsub hleft, hrest, fun k => ?_⟩
            rw [List.reverse_cons, List.map_append, stack_append, List.map_singleton, stack, stack,
              hlists, overlay_silent, hshows k, getElem?_applyEntries, overlay, listing]
            cases stack ((spared SSTableReader.readAll w rs
              (r.readAll.left w fs)).reverse.map (·.lists w)) k <;> rfl
      · rw [if_pos hmeets]
        obtain ⟨snapshot', rest, hsub, hrest, hshows⟩ := hrec snapshot
        exact ⟨snapshot', rest, List.Subset.trans hsub hleft, hrest, hshows⟩

/-- What `NewIterator` shows when some of the reads fail. -/
def DB.scanned (db : DB) (w : World) (fs : List Fault) : Content :=
  view (overlay db.memtable.layer
    (stack ((listing w db.scanOrder fs).reverse.map (·.lists w))))

theorem newIterator_returns (db : DB) (w : World) {fs : List Fault}
    (hfs : ∀ n, Fault.crash n ∉ fs) : ∃ snapshot rest, rest ⊆ fs ∧
      db.newIterator w fs = .returned (.ofSnapshot snapshot) w rest 0 ∧
        ∀ k, snapshot[k]? = db.scanned w fs k := by
  obtain ⟨snapshot, rest, hsub, hrest, hshows⟩ :=
    scanReaders_returns (w := w) db.scanOrder hfs ∅
  rw [DB.scanOrder] at hrest
  refine ⟨applyMemtable snapshot db.memtable, rest, hsub, ?_, fun k => ?_⟩
  · rw [DB.newIterator]
    exact Prog.bind_of_returned hrest
  · have hasc : KeyedRun.Ascending SSTableEntry.key db.memtable.flushEntries :=
      KeyedRun.ascending_toList fun _ _ _ => MemTable.flushEntry_key _ _
    rw [applyMemtable_eq, getElem?_applyEntries, layerOf_reverse hasc,
      MemTable.layerOf_flushEntries, DB.scanned, view_overlay, hshows]
    cases db.memtable.layer k with
    | some found => rfl
    | none =>
        rw [view]
        cases stack ((listing w db.scanOrder fs).reverse.map (·.lists w)) k with
        | some found => rfl
        | none => exact ExtTreeMap.getElem?_empty

end Scan

namespace Iterator

/-- Walking on until the end visits what is left of the bindings. -/
theorem drain_eq (i : Iterator) (fuel : Nat) : i.drain fuel = i.it.take fuel := by
  induction fuel generalizing i with
  | zero => rfl
  | succ fuel ih =>
      rw [drain, current]
      cases hit : i.it with
      | nil => rfl
      | cons p rest =>
          simp only [List.head?_cons, List.take_succ_cons, ih]
          rw [next, hit]
          rfl

/-- A walk from a target to the end visits the bindings that are not below it. -/
theorem visits (m : ExtTreeMap Bytes Bytes) (target : Bytes) : ∃ visited,
    (∀ fuel, m.toList.length ≤ fuel → ((ofSnapshot m).seek target).drain fuel = visited) ∧
      visited.Pairwise (fun p q => Slice.less p.1 q.1 = true) ∧
      ∀ k v, (k, v) ∈ visited ↔ m[k]? = some v ∧ Slice.less k target = false := by
  have hasc : KeyedRun.Ascending Prod.fst m.toList := ExtTreeMap.ordered_keys_toList
  refine ⟨m.toList.dropWhile fun p => Slice.less p.1 target, fun fuel hfuel => ?_, ?_,
    fun k v => ?_⟩
  · rw [drain_eq]
    exact List.take_of_length_le (Nat.le_trans (List.dropWhile_sublist _).length_le hfuel)
  · exact (hasc.sublist (List.dropWhile_sublist _)).imp fun h => beq_iff_eq.mpr h
  · refine (KeyedRun.mem_dropWhile_iff hasc).trans ?_
    rw [ExtTreeMap.mem_toList_iff_getElem?_eq_some]
    exact and_congr_right fun _ => (beq_eq_false_iff_ne).symm

end Iterator

section Levels

variable {files : Levels TableFile} {tree : Tree} {d : Path}

/-- The key is in the range that the version keeps of a table. -/
def TableFile.inRange (f : TableFile) (key : Bytes) : Bool :=
  !(Slice.less key f.info.minKey || Slice.less f.info.maxKey key)

/-- What some tables say of each key, the first one on top. -/
def layerOfTables (ps : List (TableFile × SSTableReader)) : Layer Bytes Bytes :=
  stack (ps.map fun p => p.1.layer)

theorem layerOfTables_eq (ps : List (TableFile × SSTableReader)) :
    layerOfTables ps = stack ((ps.map Prod.fst).map TableFile.layer) := by
  rw [List.map_map]
  rfl

theorem layerOfTables_append (ps qs : List (TableFile × SSTableReader)) :
    layerOfTables (ps ++ qs) = overlay (layerOfTables ps) (layerOfTables qs) := by
  rw [layerOfTables, List.map_append, stack_append]
  rfl

/-- Tables that can be asked: their readers are open on them, and they are stored. -/
def Readable (d : Path) (w : World) (ps : List (TableFile × SSTableReader)) : Prop :=
  ∀ p ∈ ps, p.1.ReadIn d p.2 ∧ p.1.StoredIn d w

theorem Aligned.readable (h : Aligned files w db) (l : Fin kMaxLevels) :
    Readable db.dbPath w (db.tablesOf files l) := by
  intro p hp
  refine ⟨h.readIn hp, h.stored l p.1 ?_⟩
  rw [← h.tablesOf_fst l]
  exact List.mem_map_of_mem hp

/-- The reader of a stored table says what the table says. -/
theorem TableFile.tells_eq {f : TableFile} {r : SSTableReader} (hr : f.ReadIn d r)
    (hs : f.StoredIn d w) : r.tells w = f.layer := by
  obtain ⟨data, hdata, hstored⟩ := hs
  funext key
  obtain ⟨a, hrun, rfl⟩ := (reads_get hr hdata hstored key).returns_nil
  rw [SSTableReader.tells, hrun]
  rfl

theorem TableFile.lists_eq {f : TableFile} {r : SSTableReader} (hr : f.ReadIn d r)
    (hs : f.StoredIn d w) : r.lists w = f.layer := by
  obtain ⟨data, hdata, hstored⟩ := hs
  obtain ⟨a, hrun, rfl⟩ := (reads_readAll hr hdata hstored).returns_nil
  rw [SSTableReader.lists, hrun]
  exact layerOf_reverse f.table.ascending

theorem Readable.tells {ps : List (TableFile × SSTableReader)} (h : Readable d w ps) :
    stack ((ps.map Prod.snd).map (·.tells w)) = layerOfTables ps := by
  rw [List.map_map, layerOfTables]
  congr 1
  exact List.map_congr_left fun p hp => TableFile.tells_eq (h p hp).1 (h p hp).2

theorem Readable.lists {ps : List (TableFile × SSTableReader)} (h : Readable d w ps) :
    stack ((ps.map Prod.snd).map (·.lists w)) = layerOfTables ps := by
  rw [List.map_map, layerOfTables]
  congr 1
  exact List.map_congr_left fun p hp => TableFile.lists_eq (h p hp).1 (h p hp).2

/-- Tables that are silent on the key may be left out. -/
theorem layerOfTables_filter {ps : List (TableFile × SSTableReader)} {key : Bytes}
    {p : TableFile × SSTableReader → Bool}
    (h : ∀ q ∈ ps, p q = false → q.1.layer key = none) :
    layerOfTables (ps.filter p) key = layerOfTables ps key := by
  induction ps with
  | nil => rfl
  | cons q ps ih =>
      obtain ⟨hq, hps⟩ := List.forall_mem_cons.mp h
      have hrec : layerOfTables (ps.filter p) key = layerOfTables ps key := ih hps
      have hcons : ∀ qs, layerOfTables (q :: qs) key = (q.1.layer key).or (layerOfTables qs key) :=
        fun _ => rfl
      cases hp : p q with
      | true => rw [List.filter_cons_of_pos hp, hcons, hcons, hrec]
      | false => rw [List.filter_cons_of_neg (by simp [hp]), hcons, hrec, hq hp, Option.none_or]

/-- A key out of the range of a table is none of its keys. -/
theorem TableFile.layer_of_not_inRange {f : TableFile} {key : Bytes}
    (h : f.inRange key = false) : f.layer key = none := by
  rw [inRange, Bool.not_eq_false', Bool.or_eq_true] at h
  rcases h with h | h
  · refine layer_eq_none_of_lt ?_
    rw [← f.minKey_eq]
    exact beq_iff_eq.mp h
  · refine layer_eq_none_of_gt ?_
    rw [← f.maxKey_eq]
    exact beq_iff_eq.mp h

theorem layerOfTables_flatMap {ls : List (Fin kMaxLevels)}
    {g g' : Fin kMaxLevels → List (TableFile × SSTableReader)} {key : Bytes}
    (h : ∀ l ∈ ls, layerOfTables (g l) key = layerOfTables (g' l) key) :
    layerOfTables (ls.flatMap g) key = layerOfTables (ls.flatMap g') key := by
  induction ls with
  | nil => rfl
  | cons l ls ih =>
      obtain ⟨hl, hls⟩ := List.forall_mem_cons.mp h
      rw [List.flatMap_cons, List.flatMap_cons, layerOfTables_append, layerOfTables_append,
        overlay, overlay, hl, ih hls]

/-- The tables of some levels below L0, level by level. -/
theorem layerOfTables_levels (ha : Aligned tree.levels w db) (ls : List (Fin kMaxLevels))
    (h0 : (0 : Fin kMaxLevels) ∉ ls) : layerOfTables (ls.flatMap (db.tablesOf tree.levels)) =
      stack (ls.map fun l => levelLayer l (tree.levels l)) := by
  induction ls with
  | nil => rfl
  | cons l ls ih =>
      have hl : l ≠ 0 := fun h => h0 (h ▸ List.mem_cons_self)
      have hls : (0 : Fin kMaxLevels) ∉ ls := fun h => h0 (List.mem_cons_of_mem _ h)
      rw [List.flatMap_cons, layerOfTables_append, ih hls, List.map_cons, stack,
        Tree.levelLayer_of_ne hl, layerOfTables_eq, ha.tablesOf_fst]

/-- On a level without overlap the tables may be laid over each other in any order. -/
theorem layerOfTables_reverse (ha : Aligned tree.levels w db) {l : Fin kMaxLevels} (hl : l ≠ 0) :
    layerOfTables (db.tablesOf tree.levels l).reverse =
      layerOfTables (db.tablesOf tree.levels l) := by
  rw [layerOfTables_eq, layerOfTables_eq, List.map_reverse, ha.tablesOf_fst]
  exact stack_perm_of_disjoint (tree.disjoint l hl) (List.reverse_perm _)

theorem Tree.layer_eq (t : Tree) : t.layer = overlay (levelLayer 0 (t.levels 0))
    (stack ([1, 2, 3, 4, 5].map fun l => levelLayer l (t.levels l))) := by
  have hlevels : List.finRange kMaxLevels = 0 :: [1, 2, 3, 4, 5] := by decide
  rw [layer, hlevels, List.map_cons, stack]

/-- The readers in search order show the tree. -/
theorem Aligned.tells_searchOrder (ha : Aligned tree.levels w db) (key : Bytes) :
    stack ((db.searchOrder key).map (·.tells w)) key = tree.layer key := by
  let top := (db.tablesOf tree.levels 0).mergeSort fun p q => decide (q.1.number ≤ p.1.number)
  let deep := ([1, 2, 3, 4, 5] : List (Fin kMaxLevels)).flatMap fun l =>
    (db.tablesOf tree.levels l).filter fun p => p.1.inRange key
  have horder : db.searchOrder key = (top ++ deep).map Prod.snd := by
    rw [DB.searchOrder, List.map_append, DB.sortedL0,
      ha.zip_mergeSort 0 fun a b => decide (b ≤ a), DB.deepReaders, List.map_flatMap]
    congr 2
    funext l
    rw [ha.zip, List.filter_map, List.map_map]
    rfl
  have hreadable : Readable db.dbPath w (top ++ deep) := by
    intro p hp
    rcases List.mem_append.mp hp with hp | hp
    · exact ha.readable 0 p (List.mem_mergeSort.mp hp)
    · obtain ⟨l, -, hp⟩ := List.mem_flatMap.mp hp
      exact ha.readable l p (List.mem_of_mem_filter hp)
  have hdeep : layerOfTables deep key =
      stack ([1, 2, 3, 4, 5].map fun l => levelLayer l (tree.levels l)) key := by
    rw [← layerOfTables_levels ha _ (by decide)]
    exact layerOfTables_flatMap fun l _ => layerOfTables_filter fun q _ hq =>
      TableFile.layer_of_not_inRange hq
  have htop : layerOfTables top = levelLayer 0 (tree.levels 0) := by
    have hsort : top.map Prod.fst = (tree.levels 0).reverse := by
      rw [← tree.sorted_newest, ← ha.tablesOf_fst 0]
      exact List.map_mergeSort fun _ _ _ _ => rfl
    rw [layerOfTables_eq, hsort, levelLayer, readOrder, if_pos rfl]
  rw [horder, hreadable.tells, layerOfTables_append, htop, tree.layer_eq, overlay, overlay, hdeep]

/-- The readers of a scan, the last one on top, show the tree. -/
theorem Aligned.lists_scanOrder (ha : Aligned tree.levels w db) :
    stack (db.scanOrder.reverse.map (·.lists w)) = tree.layer := by
  let deep := ([5, 4, 3, 2, 1] : List (Fin kMaxLevels)).flatMap (db.tablesOf tree.levels)
  let top := (db.tablesOf tree.levels 0).mergeSort fun p q => decide (p.1.number ≤ q.1.number)
  have horder : db.scanOrder = (deep ++ top).map Prod.snd := by
    rw [DB.scanOrder, List.map_append, DB.sortedL0,
      ha.zip_mergeSort 0 fun a b => decide (a ≤ b), List.map_flatMap]
    congr 2
    funext l
    exact (List.map_snd_zip (Nat.le_of_eq (ha.readers l).length_eq.symm)).symm
  have hreadable : Readable db.dbPath w (deep ++ top).reverse := by
    intro p hp
    rcases List.mem_append.mp (List.mem_reverse.mp hp) with hp | hp
    · obtain ⟨l, -, hp⟩ := List.mem_flatMap.mp hp
      exact ha.readable l p hp
    · exact ha.readable 0 p (List.mem_mergeSort.mp hp)
  have hdeep : layerOfTables deep.reverse =
      stack ([1, 2, 3, 4, 5].map fun l => levelLayer l (tree.levels l)) := by
    rw [← layerOfTables_levels ha _ (by decide), List.reverse_flatMap]
    funext key
    refine layerOfTables_flatMap fun l hl => ?_
    have hne : l ≠ 0 := by
      rintro rfl
      exact absurd hl (by decide)
    exact congrFun (layerOfTables_reverse ha hne) key
  have htop : layerOfTables top.reverse = levelLayer 0 (tree.levels 0) := by
    have hsort : top.map Prod.fst = tree.levels 0 := by
      rw [← tree.sorted_oldest, ← ha.tablesOf_fst 0]
      exact List.map_mergeSort fun _ _ _ _ => rfl
    rw [layerOfTables_eq, List.map_reverse, hsort, levelLayer, readOrder, if_pos rfl]
  rw [horder, ← List.map_reverse, hreadable.lists, List.reverse_append, layerOfTables_append,
    htop, hdeep, tree.layer_eq]

/-- The map that the memtable and a tree show. -/
def shown (db : DB) (tree : Tree) : Content := view (overlay db.memtable.layer tree.layer)

/-- Without failing reads `Get` sees the memtable over the tree. -/
theorem Aligned.seen (ha : Aligned tree.levels w db) {fs : List Fault}
    (hfs : ∀ n, Fault.fail n ∉ fs) : db.seen w fs = shown db tree := by
  funext key
  rw [DB.seen, answering, spared_of_no_failure hfs fun r _ => ⟨_, _, reads_tells r w key⟩, shown,
    view, view, overlay, overlay, ha.tells_searchOrder]

/-- Without failing reads `NewIterator` shows the memtable over the tree. -/
theorem Aligned.scanned (ha : Aligned tree.levels w db) {fs : List Fault}
    (hfs : ∀ n, Fault.fail n ∉ fs) : db.scanned w fs = shown db tree := by
  rw [DB.scanned, listing, spared_of_no_failure hfs fun r _ => ?_, ha.lists_scanOrder, shown]
  obtain ⟨x, hx, -⟩ := reads_lists r w
  exact ⟨_, _, hx⟩

/-- `Get` answers with the map, in every execution without a fault. -/
def Answers (w : World) (db : DB) (c : Content) : Prop :=
  ∀ key, Observes Env.sure (db.get key) (· = answer key (c key)) w

theorem Aligned.answers (ha : Aligned tree.levels w db) (hopen : db.closed = false) :
    Answers w db (shown db tree) := by
  intro key
  have hget := ClomDB.observes_get (w := w) hopen key
  rwa [ha.seen (by simp)] at hget

end Levels

end ClomDB
