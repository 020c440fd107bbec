import ClomDB.System
import ClomDB.Merge

/-!
# Reachable states

What holds of every state that a run reaches from a blank directory, whatever
fails and wherever the process dies: the shape of the levels, and that scans
and point reads see the same map. Both need file numbers that have not wrapped:
a counter that comes round to a live number overwrites a live table.
-/

namespace ClomDB

open FaultProgram FileSystem FileSystem.World LayeredMap SSTable DB

/-- The shape of the levels: which tables the version, the readers and the
directory show, and how they lie. -/
structure Shaped (files : Levels TableFile) (w : World) (db : DB) : Prop where
  aligned : Aligned files w db
  ascending : ∀ l, l ≠ 0 → KeyedRun.Ascending SSTableEntry.key (entriesOf (files l))
  bottom : ∀ f ∈ files 5, ∀ e ∈ f.table.entries, e.type ≠ .kDelete
  numbered : Numbered files db.version.nextFileNumber
  recent : (files 0).Pairwise fun f g => f.number < g.number

/-- Tables with disjoint ranges in key order are one run. -/
theorem ascending_entriesOf {files : List TableFile} (h : files.Pairwise TableFile.Before) :
    KeyedRun.Ascending SSTableEntry.key (entriesOf files) := by
  rw [entriesOf, KeyedRun.Ascending, List.pairwise_flatMap]
  refine ⟨fun f _ => f.table.ascending, h.imp fun {f g} hfg e he e' he' => ?_⟩
  -- the ranges of the two tables lie between the two keys
  have hspeaks : f.layer e.key ≠ none := by
    rw [TableFile.layer, Table.layer, layerOf, KeyedRun.find_of_mem f.table.ascending he]
    simp
  have hspeaks' : g.layer e'.key ≠ none := by
    rw [TableFile.layer, Table.layer, layerOf, KeyedRun.find_of_mem g.table.ascending he']
    simp
  have hle : compare e.key f.table.maxKey ≠ .gt := fun hgt =>
    hspeaks (TableFile.layer_eq_none_of_gt (Std.OrientedCmp.lt_of_gt hgt))
  have hge : compare g.table.minKey e'.key ≠ .gt := fun hgt =>
    hspeaks' (TableFile.layer_eq_none_of_lt (Std.OrientedCmp.lt_of_gt hgt))
  have hlt : compare e.key g.table.minKey = .lt :=
    Std.TransCmp.lt_of_isLE_of_lt (Ordering.isLE_iff_ne_gt.mpr hle) hfg
  exact Std.TransCmp.lt_of_lt_of_isLE hlt (Ordering.isLE_iff_ne_gt.mpr hge)

section Reached

variable {c? : Option Content} {tree disk : Tree} {w : World} {db : DB} {b : Nat} {d : Path}
  {es : List Event} {t : Nat} {m : Machine}

theorem InvOn.shaped (h : InvOn c? tree disk w db b) : Shaped tree.levels w db where
  aligned := h.holds.aligned
  ascending := fun l hl => ascending_entriesOf (tree.disjoint l hl)
  bottom := tree.bottom
  numbered := by
    rw [h.holds.version]
    exact ⟨tree.number_lt, tree.distinct, tree.nodup⟩
  recent := tree.recent

/-- The budget of a run from a blank directory. -/
theorem Blank.start (h : Blank d w) (c? : Option Content) (hc : ∀ c ∈ c?, c = fun _ => none)
    {calm : Prop} (ht : t + 1 < 2 ^ 64) : Machine.Stands c? calm d t ⟨w, none⟩ := by
  have hstands : Machine.Stands (some fun _ => none) calm d t ⟨w, none⟩ := h.stands (by omega)
  cases c? with
  | some c =>
      obtain rfl := hc c rfl
      exact hstands
  | none =>
      obtain ⟨disk, hrest⟩ := hstands
      exact ⟨disk, hrest.manifest, fun l f hf => (hrest.stored l f hf).imp_right fun h =>
        absurd h.1 (by simp), hrest.budget, fun c hc => by cases hc⟩

/-- The invariant in every state that a run from a blank directory reaches. -/
theorem Run.reached {E : Env} {A : Machine → Op → Nat → List Fault → Prop} (hx : E.excludes)
    (hd : E.diverges) (hblank : Blank d w) (hr : Run E A d ⟨w, none⟩ es t m)
    (ht : t + 1 < 2 ^ 64) : m.Stands none (¬E.fails) d 0 := by
  have hstands := hr.stands hx hd (fun _ => rfl) (Or.inl rfl)
    (hblank.start none (by simp) ht) (by simp) (Nat.le_refl t)
  rwa [Nat.sub_self] at hstands

theorem Run.reached_open {E : Env} {A : Machine → Op → Nat → List Fault → Prop} (hx : E.excludes)
    (hd : E.diverges) (hblank : Blank d w) (hr : Run E A d ⟨w, none⟩ es t m)
    (ht : t + 1 < 2 ^ 64) (hdb : m.db = some db) :
    Standing none (¬E.fails) d m.world db 0 := by
  have hstands := hr.reached hx hd hblank ht
  rw [Machine.Stands, hdb] at hstands
  exact hstands

end Reached

section Counter

variable {d : Path} {w : World} {db : DB}

theorem write_fails {path : Path} {entries : List SSTableEntry} (h : entries ≠ []) (bits : Int)
    (w : World) (n : Nat) : SSTableWriter.write path entries bits w [.fail n] =
      .returned (.ioError [.bytes path, .lit ": ", .strerror]) w [] 0 := by
  rw [SSTableWriter.write, if_neg h]
  rfl

/-- A flush that cannot create its table has used up a number. -/
theorem flush_fails (hne : db.memtable.empty = false) (w : World) (n fuel : Nat) :
    ∃ s, db.flush fuel w [.fail n] =
      .returned (s, db.withNext (db.version.nextFileNumber + 1)) w [] 1 := by
  have hentries : db.memtable.flushEntries ≠ [] := fun h => by
    rw [MemTable.flushEntries_eq_nil.mp h] at hne
    cases hne
  refine ⟨.ioError [.bytes (sstablePath db.dbPath db.version.nextFileNumber), .lit ": ", .strerror],
    ?_⟩
  rw [flush, flushMemTableLocked, if_neg (by rw [hne]; simp), buildTable]
  simp only [bind, Prog.seq, Prog.tick, write_fails hentries, Outcome.after]
  rfl

/-- The counter goes round by failing flushes alone. -/
theorem run_failing_flushes {A : Machine → Op → Nat → List Fault → Prop}
    (hA : ∀ m fuel fs, A m .flush fuel fs) (hne : db.memtable.empty = false) (d : Path) (w : World)
    (k : Nat) : ∃ es, Run Env.hostile A d ⟨w, some db⟩ es k
      ⟨w, some (db.withNext (db.version.nextFileNumber + UInt64.ofNat k))⟩ ∧
        ∀ e ∈ es, e.Regular := by
  induction k with
  | zero =>
      have hsame : db.withNext (db.version.nextFileNumber + UInt64.ofNat 0) = db := by
        rw [show UInt64.ofNat 0 = 0 from rfl, UInt64.add_zero]
        rfl
      rw [hsame]
      exact ⟨[], Run.start, by simp⟩
  | succ k ih =>
      obtain ⟨es, hr, hregular⟩ := ih
      let db' := db.withNext (db.version.nextFileNumber + UInt64.ofNat k)
      have hne' : db'.memtable.empty = false := hne
      obtain ⟨s, hs⟩ := flush_fails hne' w 0 0
      have hnext : db'.withNext (db'.version.nextFileNumber + 1) =
          db.withNext (db.version.nextFileNumber + UInt64.ofNat (k + 1)) := by
        rw [UInt64.ofNat_add, ← UInt64.add_assoc]
        rfl
      rw [hnext] at hs
      have hrun : Op.prog 0 d .flush (some db') w [.fail 0] =
          .returned (s, some (db.withNext (db.version.nextFileNumber + UInt64.ofNat (k + 1))))
            w [] 1 := by
        simp only [Op.prog, bind, Prog.seq, hs, Outcome.after]
        rfl
      refine ⟨_, hr.step (.returned (Env.hostile_admits _) (hA _ _ _) hrun), fun e he => ?_⟩
      rcases List.mem_append.mp he with he | he
      · exact hregular e he
      · rw [List.mem_singleton.mp he]
        trivial

/-- A new database with a flushed write and a write that is not flushed. -/
def twoWrites : Option (List Event × Nat × Machine) :=
  Machine.execute 20 [0x64] ⟨⟨false, ∅⟩, none⟩
    [(.reopen {}, []), (.write {} (WriteBatch.put {} [0x61] [0x78]), []), (.flush, []),
      (.write {} (WriteBatch.put {} [0x62] [0x79]), [])]

/-- The next flush, when it takes the number one again. -/
def secondFlush (m : Machine) (db : DB) : Option (List Event × Nat × Machine) :=
  Machine.execute 20 [0x64] ⟨m.world, some (db.withNext 1)⟩ [(.flush, [])]

/-- A test of the object that `twoWrites` ends in. -/
def twoWritesMeets (p : Machine → DB → Bool) : Bool :=
  twoWrites.any fun r => r.2.2.db.any fun db => p r.2.2 db

/-- A test of the object after the next flush. -/
def secondFlushMeets (p : World → DB → Bool) : Bool :=
  twoWritesMeets fun m db => (secondFlush m db).any fun r => r.2.2.db.any fun db' =>
    p r.2.2.world db'

theorem twoWrites_run : ∃ es m db, twoWrites = some (es, 1, m) ∧ m.db = some db ∧
    (∀ e ∈ es, ∀ op, e ≠ .crashed op) ∧ ∀ e ∈ es, e.Regular := by
  have h : (twoWrites.any fun r => r.2.1 == 1 && r.2.2.db.isSome &&
      r.1.all Event.survived) = true := by
    decide +kernel
  have hregular : (twoWrites.any fun r => decide (∀ e ∈ r.1, e.Regular)) = true := by
    decide +kernel
  obtain ⟨⟨es, t, m⟩, hr, hm⟩ := (Option.any_eq_true ..).mp h
  rw [hr] at hregular
  simp only [Bool.and_eq_true, beq_iff_eq] at hm
  obtain ⟨⟨rfl, hdb⟩, hes⟩ := hm
  obtain ⟨db, hdb⟩ := Option.isSome_iff_exists.mp hdb
  exact ⟨es, m, db, hr, hdb, ne_crashed_of_survived hes, of_decide_eq_true hregular⟩

/-- The run of `twoWrites`, under a condition that calm steps meet. -/
theorem twoWrites_reached {E : Env} {A : Machine → Op → Nat → List Fault → Prop}
    (hcalm : ∀ m op fuel, A m op fuel []) {es : List Event} {t : Nat} {m : Machine}
    (hr : twoWrites = some (es, t, m)) (hes : ∀ e ∈ es, ∀ op, e ≠ .crashed op) :
    Run E A [0x64] ⟨⟨false, ∅⟩, none⟩ es t m := by
  have hnil : ∀ p ∈ [(Op.reopen {}, []), (.write {} (WriteBatch.put {} [0x61] [0x78]), []),
      (.flush, []), (.write {} (WriteBatch.put {} [0x62] [0x79]), [])], p.2 = ([] : List Fault) := by
    simp
  refine Machine.run_of_execute (fun p hp => ?_) (fun p hp m => ?_) (Or.inr hes) hr
  · rw [hnil p hp]
    exact Env.admits_nil E
  · rw [hnil p hp]
    exact hcalm m p.1 20

theorem twoWritesMeets_iff {es : List Event} {t : Nat} {m : Machine} {db : DB}
    {p : Machine → DB → Bool} (hr : twoWrites = some (es, t, m)) (hdb : m.db = some db) :
    twoWritesMeets p = p m db := by
  rw [twoWritesMeets, hr, Option.any_some, hdb, Option.any_some]

/-- The counter comes round: by failing flushes alone, from the object that
`twoWrites` ends in to any number. -/
theorem run_round {A : Machine → Op → Nat → List Fault → Prop}
    (hcalm : ∀ m op fuel, A m op fuel []) (hA : ∀ m fuel fs, A m .flush fuel fs) (next : UInt64) :
    ∃ es m db, twoWrites = some (es, 1, m) ∧ m.db = some db ∧ ∃ es' t, (∀ e ∈ es', e.Regular) ∧
      Run Env.hostile A [0x64] ⟨⟨false, ∅⟩, none⟩ es' t ⟨m.world, some (db.withNext next)⟩ := by
  obtain ⟨es, m, db, hr, hdb, hes, hregular⟩ := twoWrites_run
  have hne : db.memtable.empty = false := by
    have h : twoWritesMeets (fun _ db => !db.memtable.empty) = true := by decide +kernel
    rw [twoWritesMeets_iff hr hdb] at h
    simpa using h
  have hrun : Run Env.hostile A [0x64] ⟨⟨false, ∅⟩, none⟩ es 1 m := twoWrites_reached hcalm hr hes
  obtain ⟨es', hwrap, hflushes⟩ :=
    run_failing_flushes hA hne [0x64] m.world (next - db.version.nextFileNumber).toNat
  have hnext : db.version.nextFileNumber +
      UInt64.ofNat (next - db.version.nextFileNumber).toNat = next := by
    rw [UInt64.ofNat_toNat, UInt64.add_comm, UInt64.sub_add_cancel]
  rw [hnext] at hwrap
  have hm : (⟨m.world, some db⟩ : Machine) = m := by rw [← hdb]
  rw [hm] at hwrap
  refine ⟨es, m, db, hr, hdb, es ++ es', _, fun e he => ?_, hrun.trans hwrap⟩
  rcases List.mem_append.mp he with he | he
  · exact hregular e he
  · exact hflushes e he

end Counter

section Reached

variable {w : World} {db : DB} {d : Path} {es : List Event} {t : Nat} {m : Machine}

/-- Every state that a run reaches has its levels in shape, and every section
changes the listing of L0 as a flush or a compaction does. -/
theorem levels_shaped (hblank : Blank d w) (hr : Run Env.hostile Free d ⟨w, none⟩ es t m)
    (ht : t + 1 < 2 ^ 64) (hdb : m.db = some db) :
    (∃ files, Shaped files m.world db) ∧
      ∀ op s t' m' db', Step Env.hostile Free d m (.returned op m.accepting s) t' m' →
        t + t' + 1 < 2 ^ 64 → m'.db = some db' → (∀ options, op ≠ .reopen options) →
        TopStep (db.version.levels 0) (db'.version.levels 0) := by
  constructor
  · obtain ⟨tree, disk, hinv, -⟩ := (hr.reached_open trivial trivial hblank ht hdb).inv
    exact ⟨tree.levels, hinv.shaped⟩
  · intro op s t' m' db' hstep ht' hdb' hop
    have hstands := hr.stands trivial trivial (fun _ => rfl) (Or.inl rfl)
      (hblank.start none (by simp) ht') (by simp) (Nat.le_add_right t t')
    cases hstep with
    | returned admits allowed run =>
        exact ((Machine.Stands.wp_prog trivial trivial (fun _ => rfl) (Or.inl rfl) hstands
          (by simp) _).of_returned admits run (by omega)).top db db' hdb hdb' hop

theorem levels_shaped_twoWrites : ∃ es m db, twoWrites = some (es, 1, m) ∧ m.db = some db ∧
    ∃ files, Shaped files m.world db := by
  obtain ⟨es, m, db, hr, hdb, hes, -⟩ := twoWrites_run
  exact ⟨es, m, db, hr, hdb, (levels_shaped ⟨rfl, rfl⟩
    (twoWrites_reached (fun _ _ _ => trivial) hr hes) (by decide) hdb).1⟩

/-- An object with a table that is numbered like the next one. -/
theorem numbered_lost : ¬∀ (d : Path) (w : World) (es : List Event) (t : Nat) (m : Machine)
    (db : DB), Blank d w → Run Env.hostile Free d ⟨w, none⟩ es t m → (∀ e ∈ es, e.Regular) →
      m.db = some db → ∃ files, Shaped files m.world db := by
  intro hclaim
  obtain ⟨es, m, db, hr, hdb, es', t, hregular, hrun⟩ :=
    run_round (A := Free) (fun _ _ _ => trivial) (fun _ _ _ => trivial) 1
  obtain ⟨files, hshaped⟩ :=
    hclaim [0x64] ⟨false, ∅⟩ es' t _ _ ⟨rfl, rfl⟩ hrun hregular rfl
  have hnumbers : (db.version.levels 0).map FileMetaData.number = [1] := by
    have h : twoWritesMeets (fun _ db =>
        (db.version.levels 0).map FileMetaData.number == [1]) = true := by decide +kernel
    rw [twoWritesMeets_iff hr hdb] at h
    exact beq_iff_eq.mp h
  have hversion : db.version.levels 0 = (files 0).map TableFile.info := hshaped.aligned.version 0
  rw [hversion, List.map_map] at hnumbers
  have hmem : (1 : UInt64) ∈ (files 0).map (FileMetaData.number ∘ TableFile.info) := by
    rw [hnumbers]
    exact List.mem_singleton_self 1
  obtain ⟨f, hf, hnumber⟩ := List.mem_map.mp hmem
  have hlt : f.number < 1 := hshaped.numbered.lt 0 f hf
  rw [show f.number = 1 from hnumber] at hlt
  exact UInt64.lt_irrefl 1 hlt

/-- Seeking a target and walking to the end visits the keys from there on that
`Get` finds, in order and with the values it finds. -/
def ScansAgree (w : World) (db : DB) (target : Bytes) : Prop :=
  Observes Env.sure db.newIterator (fun it => ∃ visited,
    (∃ n, ∀ fuel, n ≤ fuel → (it.seek target).drain fuel = visited) ∧
      visited.Pairwise (fun p q => Slice.less p.1 q.1 = true) ∧
      ∀ k v, (k, v) ∈ visited ↔ Slice.less k target = false ∧
        Observes Env.sure (db.get k) (· = .ok v) w) w

/-- What an iterator shows decides whether it agrees with `Get`. -/
theorem ScansAgree.scanned {w : World} {db : DB} (h : ScansAgree w db []) {k v : Bytes}
    (hget : Observes Env.sure (db.get k) (· = .ok v) w) : db.scanned w [] k = some v := by
  obtain ⟨snapshot, rest, -, hrun, hshows⟩ := newIterator_returns db w fun _ => List.not_mem_nil
  obtain ⟨⟨visited, ⟨n, hdrain⟩, -, hmem⟩, -, -⟩ :=
    (h 0).of_returned (Env.admits_nil _) hrun (Nat.le_refl 0)
  obtain ⟨visited', hdrain', -, hmem'⟩ := Iterator.visits snapshot []
  obtain rfl : visited' = visited :=
    (hdrain' _ (Nat.le_max_right n _)).symm.trans (hdrain _ (Nat.le_max_left n _))
  have hless : Slice.less k [] = false := by cases k <;> rfl
  rw [← hshows]
  exact ((hmem' k v).mp ((hmem k v).mpr ⟨hless, hget⟩)).1

/-- The files of two tables of L0 have one number, and the reader of the first
takes an entry of the second for one of its own. -/
def overwritten (w : World) (db : DB) : Bool :=
  match (db.version.levels 0).zip (db.openReaders 0) with
  | [p, q] => decide (p.1.number = q.1.number ∧ db.closed = false ∧
      db.memtable.layer [0x61] = none ∧
      ([5, 4, 3, 2, 1].flatMap fun (lvl : Fin kMaxLevels) => db.openReaders lvl).isEmpty = true ∧
      p.2.tells w [0x61] = some (some [0x79]) ∧ p.2.lists w [0x61] = none ∧
      q.2.lists w [0x61] = none)
  | _ => false

/-- Tables of one number keep their order. -/
theorem sortedL0_of_eq {db : DB} {p q : FileMetaData × SSTableReader}
    (hzip : (db.version.levels 0).zip (db.openReaders 0) = [p, q]) (hnumber : p.1.number = q.1.number)
    {le : UInt64 → UInt64 → Bool} (hle : ∀ n, le n n = true) : db.sortedL0 le = [p.2, q.2] := by
  rw [DB.sortedL0, hzip, List.mergeSort_of_pairwise]
  · rfl
  · rw [List.pairwise_pair, hnumber]
    exact hle _

/-- `Get` sees the new value. -/
theorem overwritten_seen {w : World} {db : DB} (h : overwritten w db = true) :
    db.closed = false ∧ db.seen w [] [0x61] = some [0x79] := by
  rw [overwritten] at h
  split at h
  next p q hzip =>
    obtain ⟨hnumber, hopen, hmem, -, htells, -⟩ := of_decide_eq_true h
    refine ⟨hopen, ?_⟩
    rw [DB.seen, answering, spared_of_no_failure (by simp) fun r _ => ⟨_, _, reads_tells r w _⟩,
      DB.searchOrder, sortedL0_of_eq hzip hnumber (by simp), view_overlay, hmem, List.cons_append,
      List.map_cons, view, stack, overlay, htells]
    rfl
  next => cases h

theorem overwritten_disagrees {w : World} {db : DB} (h : overwritten w db = true) :
    db.closed = false ∧ ¬ScansAgree w db [] := by
  obtain ⟨hopen, hseen⟩ := overwritten_seen h
  have hget := observes_get (w := w) hopen [0x61]
  rw [hseen] at hget
  rw [overwritten] at h
  split at h
  next p q hzip =>
    obtain ⟨hnumber, -, hmem, hdeep, -, hlists, hlists'⟩ := of_decide_eq_true h
    refine ⟨hopen, fun hagree => ?_⟩
    have hscanned := hagree.scanned hget
    rw [DB.scanned, listing, spared_of_no_failure (by simp) fun r _ => ?_, DB.scanOrder,
      List.isEmpty_iff.mp hdeep, sortedL0_of_eq hzip hnumber (by simp), view_overlay, hmem]
      at hscanned
    · have hnone : stack ([p.2, q.2].reverse.map (·.lists w)) [0x61] = none := by
        simp [stack, overlay, silent, hlists, hlists']
      rw [List.nil_append, view, hnone] at hscanned
      cases hscanned
    · obtain ⟨x, hx, -⟩ := reads_lists r w
      exact ⟨_, _, hx⟩
  next => cases h

end Reached

end ClomDB
