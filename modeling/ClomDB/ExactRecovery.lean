import ClomDB.Directory

/-!
# What a killed process leaves

Where no call fails and no process dies in an append to the log, the memtable is
what a replay of the log makes: the same entries and tombstones, and the same
counts of entries and bytes. A process that is killed between two sections can
be put back together from its directory.
-/

namespace ClomDB

open FaultProgram FileSystem FileSystem.World SSTable DB WriteAheadLog

/-- The memtable is what a replay of the log makes. -/
def DB.Mirrored (db : DB) (w : World) : Prop :=
  db.memtable = replayRecords {} (logged db.dbPath w)

/-- Memtable and log are left alone, or both are emptied. -/
structure Retains (db : DB) (w : World) (db' : DB) (w' : World) : Prop where
  shell : SameShell db db'
  log : db'.memtable = db.memtable ∧ w'.bytes (walPath db.dbPath) = w.bytes (walPath db.dbPath) ∨
    db'.memtable = {} ∧ w'.bytes (walPath db.dbPath) = some []

section Retains

variable {db db' db'' : DB} {w w' w'' : World} {b : Nat} {tree disk : Tree}

theorem Retains.refl (db : DB) (w : World) : Retains db w db w :=
  ⟨SameShell.refl db, .inl ⟨rfl, rfl⟩⟩

theorem Retains.trans (h : Retains db w db' w') (h' : Retains db' w' db'' w'') :
    Retains db w db'' w'' := by
  have hlog := h'.log
  rw [h.shell.dbPath] at hlog
  refine ⟨h.shell.trans h'.shell, ?_⟩
  rcases hlog with ⟨hmem', hlog'⟩ | hempty
  · rw [hmem', hlog']
    exact h.log
  · exact .inr hempty

theorem Retains.mirrored (h : Retains db w db' w') (hm : db.Mirrored w) : db'.Mirrored w' := by
  rw [DB.Mirrored, h.shell.dbPath]
  rcases h.log with ⟨hmem, hlog⟩ | ⟨hmem, hlog⟩
  · rw [hmem, logged_congr hlog]
    exact hm
  · rw [hmem, logged, hlog]
    rfl

theorem Retains.of_moved {s : Status} {tree' disk' : Tree}
    (h : Moved tree disk w db s tree' disk' w' db') : Retains db w db' w' :=
  ⟨h.shell, .inl ⟨h.memtable, h.log⟩⟩

/-- How a section ends that writes no record. -/
abbrev Retaining (db : DB) (w : World) : Status × DB → World → Nat → Prop :=
  fun r w' b' => r.1.ok = true ∧ Retains db w r.2 w' ∧ ∃ tree disk, InvOn none tree disk w' r.2 b'

theorem wp_flushMemTableLocked_retains (h : InvOn none tree disk w db b) :
    wp mortal db.flushMemTableLocked (Retaining db w) (fun _ _ => True) w b := by
  cases hne : db.memtable.empty with
  | true =>
      rw [flushMemTableLocked, if_pos hne]
      exact wp_pure ⟨rfl, .refl db w, tree, disk, h⟩
  | false =>
      refine wp_flushMemTableLocked trivial h (fun _ _ _ _ _ => trivial)
        fun s db' w' b' tree' disk' _ h' hflushed hs => ?_
      obtain ⟨hok, -, hlog⟩ := hs.resolve_right id
      refine ⟨hok, ⟨hflushed.shell, .inr ⟨?_, ?_⟩⟩, tree', disk', h'⟩
      · rcases hflushed.ok hok with ⟨hempty, -⟩ | ⟨-, -, hmem, -⟩
        · rw [hne] at hempty
          cases hempty
        · exact hmem
      · refine hlog.resolve_left fun hempty => ?_
        rw [hne] at hempty
        cases hempty.1

theorem wp_compactionLoop_retains (h : InvOn none tree disk w db b) (fuel : Nat) :
    wp mortal (compactionLoop fuel db) (Retaining db w) (fun _ _ => True) w b :=
  wp_compactionLoop trivial h (Or.inl trivial) (fun _ _ _ _ _ => trivial)
    fun _ _ _ _ tree' disk' _ h' hmoved hs =>
      ⟨(hs.resolve_right id).1, .of_moved hmoved, tree', disk', h'⟩

theorem wp_flush_retains (h : InvOn none tree disk w db b) (fuel : Nat) :
    wp mortal (db.flush fuel) (Retaining db w) (fun _ _ => True) w b := by
  rw [flush]
  refine wp_then (wp_flushMemTableLocked_retains h) ?_ fun _ _ => id
  rintro ⟨s, db₁⟩ w₁ b₁ ⟨hok, h₁, tree₁, disk₁, hinv₁⟩
  refine wp_ite (fun _ => wp_pure ⟨hok, h₁, tree₁, disk₁, hinv₁⟩) fun _ => ?_
  exact wp_mono (wp_compactionLoop_retains hinv₁ fuel)
    (fun _ _ _ h₂ => ⟨h₂.1, h₁.trans h₂.2.1, h₂.2.2⟩) fun _ _ => id

theorem wp_maybeFlushLocked_retains (h : InvOn none tree disk w db b) (fuel : Nat) :
    wp mortal (db.maybeFlushLocked fuel) (Retaining db w) (fun _ _ => True) w b := by
  rw [maybeFlushLocked]
  exact wp_ite (fun _ => wp_flush_retains h fuel) fun _ => wp_compactionLoop_retains h fuel

end Retains

section Sections

variable {d : Path} {db : DB} {w w' : World} {b : Nat} {tree disk : Tree} {recs : List Bytes}

theorem Logged.logged (h : Logged recs (w.bytes (walPath d))) : logged d w = recs := by
  rcases h.bytes with hbytes | ⟨hbytes, rfl⟩
  · have hrecords := records_frames h.short []
    rw [List.append_nil, records_nil, List.append_nil] at hrecords
    rw [ClomDB.logged, hbytes]
    exact hrecords
  · rw [ClomDB.logged, hbytes]
    rfl

/-- A record that is appended to whole ones is replayed after them. -/
theorem Logged.logged_grew {rep : Bytes} (h : Logged recs (w.bytes (walPath d)))
    (hfile : w.bytes (walPath d) ≠ none) (hlen : rep.length < 2 ^ 32)
    (hw : Grew (walPath d) (frame rep) w w') : ClomDB.logged d w' = ClomDB.logged d w ++ [rep] := by
  have hbytes := h.bytes.resolve_right fun hno => hfile hno.1
  have hshort : ∀ r ∈ recs ++ [rep], r.length < 2 ^ 32 := fun r hr => by
    rcases List.mem_append.mp hr with hr | hr
    · exact h.short r hr
    · rwa [List.mem_singleton.mp hr]
  have hlogged : Logged (recs ++ [rep]) (w'.bytes (walPath d)) := by
    refine ⟨hshort, .inl ?_⟩
    rw [hw.bytes, hbytes, List.flatMap_append, List.flatMap_singleton]
    rfl
  rw [hlogged.logged, h.logged]

theorem replayRecords_snoc (recs : List Bytes) (rep : Bytes) : replayRecords {} (recs ++ [rep]) =
    (WriteBatch.decodeOps rep).foldl MemTable.handler.call (replayRecords {} recs) := by
  simp only [replayRecords_eq, List.flatMap_append, List.flatMap_singleton, List.foldl_append]

theorem DB.Mirrored.applied {batch : WriteBatch} (h : db.Mirrored w)
    (hw : ClomDB.logged db.dbPath w' = ClomDB.logged db.dbPath w ++ [batch.rep]) :
    (db.applied batch).Mirrored w' := by
  have hmem : db.memtable = replayRecords {} (ClomDB.logged db.dbPath w) := h
  rw [DB.Mirrored, DB.applied, hw, replayRecords_snoc, hmem]

theorem wp_write_mirrored (h : InvOn none tree disk w db b)
    (hlog : Logged recs (w.bytes (walPath db.dbPath))) (hm : db.Mirrored w) (fuel : Nat)
    (opts : WriteOptions) {batch : WriteBatch} (hlen : batch.rep.length < 2 ^ 32) :
    wp mortal (db.write fuel opts batch) (fun r w' _ => r.2.Mirrored w') (fun _ _ => True) w b := by
  refine wp_write_logged h (fun _ => hm) (fun _ _ _ => trivial) fun _ w₁ hfile hw₁ hinv => ?_
  have happlied := hm.applied (hlog.logged_grew hfile hlen hw₁)
  simp only [finishWrite, applyBatchLocked_eq]
  refine wp_ite (fun _ => wp_pure happlied) fun _ => wp_ite (fun _ => wp_pure happlied) fun _ => ?_
  exact wp_mono (wp_maybeFlushLocked_retains hinv fuel) (fun _ _ _ h' => h'.2.1.mirrored happlied)
    fun _ _ => id

/-- What `Close` does after its flush leaves memtable, version and log alone. -/
theorem wp_closeEnd_flushed {Q : DB → World → Prop}
    (h : wp mortal db.flushMemTableLocked
      (fun r w' b' => Q r.2 w' ∧ ∃ tree disk, InvOn none tree disk w' r.2 b') (fun _ _ => True) w b) :
    wp mortal db.closeEnd (fun r w' _ => ∃ db₁ w₁ wal, Q db₁ w₁ ∧
      r.2 = { db₁ with wal := wal, closed := true } ∧
        w'.bytes (walPath db₁.dbPath) = w₁.bytes (walPath db₁.dbPath)) (fun _ _ => True) w b := by
  rw [closeEnd]
  refine wp_then h ?_ fun _ _ => id
  rintro ⟨s, db₁⟩ w₁ b₁ ⟨hq, tree₁, disk₁, hinv₁⟩
  obtain ⟨log, hwal⟩ : ∃ log, db₁.wal = some log := by
    rcases hinv₁.holds.wal with hclosed | ⟨hopen, -⟩
    · exact ⟨_, hclosed⟩
    · exact ⟨_, hopen⟩
  simp only [hwal]
  refine wp_bind (WriteAheadLog.wp_close (hinv₁.holds.wal.ownLog log hwal) (fun w₂ hw₂ => ?_)
    (fun hf => hf.elim) fun _ _ _ => trivial)
  refine wp_bind (Version.wp_save (Or.inl trivial)
    (fun w₃ hw₃ => wp_pure ⟨db₁, w₁, _, hq, rfl, ?_⟩) (fun hf => hf.elim) fun _ _ _ => trivial)
  have hsame : w₃.bytes (walPath db₁.dbPath) = w₂.bytes (walPath db₁.dbPath) := by
    rw [World.bytes, World.bytes, hw₃.file _ (wal_ne_manifest _) (wal_ne_tmp _)]
  rw [hsame, hw₂.bytes]
  simp

theorem wp_closeEnd_mirrored (h : InvOn none tree disk w db b) (hm : db.Mirrored w) :
    wp mortal db.closeEnd (fun r w' _ => r.2.Mirrored w') (fun _ _ => True) w b := by
  have hflushed : wp mortal db.flushMemTableLocked
      (fun r w' b' => r.2.Mirrored w' ∧ ∃ tree disk, InvOn none tree disk w' r.2 b')
      (fun _ _ => True) w b :=
    wp_mono (wp_flushMemTableLocked_retains h) (fun _ _ _ h' => ⟨h'.2.1.mirrored hm, h'.2.2⟩)
      fun _ _ => id
  refine wp_mono (wp_closeEnd_flushed hflushed) ?_ fun _ _ => id
  rintro ⟨s, db'⟩ w' _ ⟨db₁, w₁, wal, hm₁, hdb', hlog⟩
  obtain rfl : db' = _ := hdb'
  have hmem : db₁.memtable = replayRecords {} (logged db₁.dbPath w₁) := hm₁
  rw [← logged_congr hlog] at hmem
  exact hmem

theorem wp_compactLocked_retains (h : InvOn none tree disk w db b) (l : Fin kMaxLevels) :
    wp mortal (db.compactLocked l) (Retaining db w) (fun _ _ => True) w b := by
  by_cases hlast : l.val + 1 ≥ kMaxLevels
  · rw [compactLocked, dif_pos hlast]
    exact wp_pure ⟨rfl, .refl db w, tree, disk, h⟩
  · let next : Fin kMaxLevels := ⟨l.val + 1, Nat.lt_of_not_le hlast⟩
    exact wp_compactLocked_inv trivial h (show next.val = l.val + 1 from rfl)
      (fun _ _ _ _ _ => trivial) fun _ _ _ _ tree' disk' _ h' hmoved _ hs =>
        ⟨hs.resolve_right id, .of_moved hmoved, tree', disk', h'⟩

theorem wp_backgroundIteration_mirrored (h : InvOn none tree disk w db b) (hm : db.Mirrored w)
    (fuel : Nat) :
    wp mortal (db.backgroundIteration fuel) (fun db' w' _ => db'.Mirrored w') (fun _ _ => True) w
      b := by
  rw [backgroundIteration]
  refine wp_ite (fun _ => wp_pure hm) fun _ => ?_
  refine wp_then (wp_flush_retains (h.withFlags false db.shuttingDown db.closed) fuel) ?_
    fun _ _ => id
  exact fun r w' _ h' => wp_pure (h'.2.1.mirrored hm)

end Sections

/-- The memtable of the object is what a replay makes, if there is an object. -/
def Machine.Mirrored (m : Machine) : Prop := ∀ db, m.db = some db → db.Mirrored m.world

section Steps

variable {d : Path} {m m' : Machine} {c : Content} {b t : Nat}

theorem Crashed.wp_openObject_mirrored {w : World} (h : Crashed (some c) d w b)
    (hpath : d.getLast? ≠ some separator) (options : Options) :
    wp mortal (openObject d options) (fun r w' _ => Machine.Mirrored ⟨w', r.2⟩) (fun _ _ => True) w
      b := by
  obtain ⟨disk, hrest⟩ := h
  have hdisk : OnDisk disk d w :=
    ⟨hrest.manifest, fun l f hf => (hrest.stored l f hf).resolve_right fun hno => (by cases hno.1)⟩
  refine wp_mono (wp_openObject_takes hdisk hrest.budget hpath options) ?_ fun _ _ _ => trivial
  rintro ⟨s, db?⟩ w' b' (⟨-, -, hnone⟩ | ⟨db, hdb, h'⟩) db' hdb'
  · rw [show db? = none from hnone] at hdb'
    cases hdb'
  · obtain rfl : db = db' := Option.some_inj.mp (hdb.symm.trans hdb')
    have hd : db.dbPath = d := h'.dbPath
    subst hd
    rw [DB.Mirrored, h'.log]
    exact h'.memtable

/-- A section of a method in a process that stands for a map. -/
theorem Standing.wp_mirrored {w : World} {db : DB} (hst : Standing (some c) False d w db b)
    (hm : db.Mirrored w) (hpath : d.getLast? ≠ some separator) {op : Op} (hop : op.Regular)
    (fuel : Nat) :
    wp mortal (op.prog fuel d (some db)) (fun r w' _ => Machine.Mirrored ⟨w', r.2⟩)
      (fun _ _ => True) w b := by
  obtain ⟨tree, disk, hsome, -⟩ := hst.inv
  have hinv : InvOn none tree disk w db b := ⟨hsome.holds, by simp⟩
  have hsame : ∀ {db' : DB}, db'.Mirrored w → Machine.Mirrored ⟨w, some db'⟩ := fun hm' db'' heq =>
    Option.some_inj.mp heq ▸ hm'
  cases op with
  | write opts batch =>
      obtain ⟨recs, hlog, -⟩ := hsome.recovers c rfl
      refine wp_bind (wp_mono (wp_write_mirrored hinv hlog hm fuel opts hop) ?_ fun _ _ => id)
      exact fun r w' _ h' => wp_pure fun db' heq => Option.some_inj.mp heq ▸ h'
  | flush =>
      refine wp_bind (wp_mono (wp_flush_retains hinv fuel) ?_ fun _ _ => id)
      exact fun r w' _ h' => wp_pure fun db' heq => Option.some_inj.mp heq ▸ h'.2.1.mirrored hm
  | background =>
      refine wp_bind (wp_mono (wp_backgroundIteration_mirrored hinv hm fuel) ?_ fun _ _ => id)
      exact fun r w' _ h' => wp_pure fun db' heq => Option.some_inj.mp heq ▸ h'
  | compact level =>
      refine wp_bind (wp_mono (wp_compactLocked_retains hinv level) ?_ fun _ _ => id)
      exact fun r w' _ h' => wp_pure fun db' heq => Option.some_inj.mp heq ▸ h'.2.1.mirrored hm
  | closeBegin =>
      refine wp_pure (hsame ?_)
      rw [DB.closeBegin]
      split
      · exact hm
      · exact hm
  | closeEnd =>
      refine wp_ite (fun _ => ?_) fun _ => wp_pure (hsame hm)
      refine wp_bind (wp_mono (wp_closeEnd_mirrored hinv hm) ?_ fun _ _ => id)
      exact fun r w' _ h' => wp_pure fun db' heq => Option.some_inj.mp heq ▸ h'
  | reopen options =>
      exact wp_ite (fun _ => (Standing.crashed hst).wp_openObject_mirrored hpath options)
        fun _ => wp_pure (hsame hm)

/-- A step keeps memtable and log together. -/
theorem Step.mirrored {A : Machine → Op → Nat → List Fault → Prop} {e : Event}
    (hs : Step mortal A d m e t m') (hm : m.Mirrored) (hst : m.Stands (some c) False d b)
    (hpath : d.getLast? ≠ some separator) (hregular : e.Regular) (ht : t ≤ b) : m'.Mirrored := by
  cases hs with
  | @returned op fuel fs rest s db' w' t admits allowed run =>
      have hprog : wp mortal (op.prog fuel d m.db) (fun r w' _ => Machine.Mirrored ⟨w', r.2⟩)
          (fun _ _ => True) m.world b := by
        obtain ⟨w, db?⟩ := m
        cases db? with
        | some db => exact Standing.wp_mirrored hst (hm db rfl) hpath hregular fuel
        | none =>
            cases op with
            | reopen options => exact Crashed.wp_openObject_mirrored hst hpath options
            | _ => exact wp_pure hm
      exact hprog.of_returned admits run ht
  | crashed => exact fun _ h => (by cases h)
  | killed => exact fun _ h => (by cases h)

theorem Run.mirrored {m₀ : Machine} {es : List Event} (hr : Run mortal FailsTending d m₀ es t m)
    (hm : m₀.Mirrored) (hst : m₀.Stands (some c) False d b) (hpath : d.getLast? ≠ some separator)
    (hregular : ∀ e ∈ es, e.Regular) (ht : t ≤ b) : m.Mirrored := by
  induction hr with
  | start => exact hm
  | @step es t t' m m' e run last ih =>
      have hbefore : ∀ e ∈ es, e.Regular := fun e he => hregular e (List.mem_append_left _ he)
      have hhostile : Run Env.hostile FailsTending d m₀ es t m :=
        run.mono (fun _ => trivial) (fun _ => trivial) fun _ _ _ _ => id
      obtain ⟨c', hst'⟩ := hhostile.keepsMap hst hpath hbefore (show t ≤ b by omega)
      exact last.mirrored (ih hbefore (by omega)) hst' hpath
        (hregular e (List.mem_append_right _ List.mem_cons_self)) (by omega)

end Steps

section Recovery

variable {d : Path} {w w' : World} {db : DB} {es : List Event} {t b : Nat} {m : Machine}

/-- What `Open` makes of the directory of an open object: the same memtable and
the same version, behind the same log, with the same answers. -/
structure Rebuilds (db : DB) (w : World) (db' : DB) (w' : World) : Prop where
  memtable : db'.memtable = db.memtable
  version : db'.version = db.version
  wal : db'.wal = db.wal
  mirrored : db'.Mirrored w'
  answers : ∀ c, Answers w db c → Answers w' db' c

/-- Without a failing call, `Open` puts an open object together again. -/
theorem Standing.rebuilds (hst : Standing none (¬mortal.fails) d w db b) (hm : db.Mirrored w)
    (hopen : db.closed = false) (hpath : d.getLast? ≠ some separator) (options : Options)
    (hallowed : ¬Refused options w) :
    wp Env.calm (openObject d options)
      (fun r w' _ => r.1.ok = true ∧ ∃ db', r.2 = some db' ∧ Rebuilds db w db' w')
      (fun _ _ => False) w b := by
  obtain ⟨tree, disk, hinv, hsettled⟩ := hst.inv
  obtain rfl : disk = tree := hsettled id
  obtain rfl := hst.dbPath
  have hrestored : Restored disk (logged db.dbPath w) w db := ⟨hinv.holds.aligned, hm, hopen⟩
  have hbudget := hinv.holds.budget
  refine wp_mono (wp_within (E := mortal) (fun fs hfs => ⟨hfs.1, fun _ _ => trivial⟩)
    (wp_openObject_takes hinv.holds.onDisk hbudget hpath options)
    (hinv.holds.onDisk.reopens hpath b options hallowed)) ?_ fun _ _ hc => hc.2
  rintro ⟨s, db?⟩ w' b' ⟨htakes, hok, db', rfl, hanswers⟩
  obtain ⟨db'', heq, h'⟩ := htakes.resolve_left fun hno => hallowed hno.2.1
  obtain rfl : db' = db'' := Option.some_inj.mp heq
  have hd : db'.dbPath = db.dbPath := h'.dbPath
  refine ⟨hok, db', rfl, h'.memtable.trans hm.symm, h'.version.trans hinv.holds.version.symm,
    ?_, ?_, fun c hc => ?_⟩
  · rw [show db'.wal = _ from h'.logOpen, show db.wal = _ from hst.log id hopen, hd]
  · rw [DB.Mirrored, hd, h'.log]
    exact h'.memtable
  · rwa [hc.eq_seen hopen, ← hrestored.answers.eq_seen hopen]

/-- Where no call fails, and no process dies in an append to the log, the
memtable of an open database is what a replay of the log makes, at any time.
If the process is killed then, `Open` rebuilds the object. -/
theorem killed_rebuilt (hblank : Blank d w) (hpath : d.getLast? ≠ some separator)
    (hr : Run mortal FailsTending d ⟨w, none⟩ es t m) (hregular : ∀ e ∈ es, e.Regular)
    (hdb : m.db = some db) (hopen : db.closed = false) (b : Nat) (ht : t + b + 1 < 2 ^ 64) :
    db.Mirrored m.world ∧ ∀ options, ¬Refused options m.world →
      wp Env.calm (openObject d options)
        (fun r w' _ => r.1.ok = true ∧ ∃ db', r.2 = some db' ∧ Rebuilds db m.world db' w')
        (fun _ _ => False) m.world b := by
  have hst := hr.stands (b := t + b) trivial trivial (fun _ => rfl) (Or.inl rfl)
    (hblank.start none (by simp) (by omega)) (by simp) (Nat.le_add_right t b)
  rw [Nat.add_sub_cancel_left, Machine.Stands, hdb] at hst
  have hm : db.Mirrored m.world := hr.mirrored (b := t + b) (fun _ h => (by cases h))
    (hblank.start (some fun _ => none) (by simp) (by omega)) hpath hregular (by omega) db hdb
  exact ⟨hm, fun options hallowed => Standing.rebuilds hst hm hopen hpath options hallowed⟩

/-- Killed with one write in a table and one in the log, the object is rebuilt. -/
theorem killed_rebuilt_twoWrites : ∃ es m db, twoWrites = some (es, 1, m) ∧ m.db = some db ∧
    db.memtable.empty = false ∧ db.Mirrored m.world ∧ ∀ options, ¬Refused options m.world →
      wp Env.calm (openObject [0x64] options)
        (fun r w' _ => r.1.ok = true ∧ ∃ db', r.2 = some db' ∧ Rebuilds db m.world db' w')
        (fun _ _ => False) m.world 7 := by
  obtain ⟨es, m, db, hr, hdb, hes, hregular⟩ := twoWrites_run
  have htest : twoWritesMeets (fun _ db => decide (db.closed = false ∧ db.memtable.empty = false)) =
      true := by decide +kernel
  rw [twoWritesMeets_iff hr hdb] at htest
  obtain ⟨hopen, hfilled⟩ := of_decide_eq_true htest
  obtain ⟨hm, hrebuilt⟩ := killed_rebuilt ⟨rfl, rfl⟩ (by decide)
    (twoWrites_reached failsTending_nil hr hes) hregular hdb hopen 7 (by decide)
  exact ⟨es, m, db, hr, hdb, hfilled, hm, hrebuilt⟩

end Recovery

end ClomDB
