import ClomDB.System

/-!
# The log of an open database

A flush rotates the log: it closes the old one, removes it and opens a new one.
A database whose rotations meet no failure has an open log as long as it is
open itself, whatever else fails.
-/

namespace ClomDB

open FaultProgram FileSystem FileSystem.World SSTable DB WriteAheadLog

/-- `FlushMemTableLocked` up to the rotation of the log: it returns early, or
goes on with an object. -/
def DB.persistMemTable (db : DB) : Prog World (Except (Status × DB) DB) := do
  let (built, db) ← db.buildTable db.held db.memtable.flushEntries
  match built with
  | .error s => return .error (s, db)
  | .ok (fm, reader) =>
    let db := db.pushL0 fm reader
    let s ← db.version.save (manifestPath db.dbPath)
    if !s.ok then
      return .error (s, db)
    else
      return .ok { db with memtable := db.memtable.clear }

theorem flushMemTableLocked_eq (db : DB) (hne : db.memtable.empty = false) :
    db.flushMemTableLocked = db.persistMemTable >>= fun r =>
      match r with
      | .error r => pure r
      | .ok db => db.rotateWal := by
  rw [flushMemTableLocked, if_neg (by rw [hne]; simp), persistMemTable, bind_assoc]
  congr 1
  funext r
  obtain ⟨built, db⟩ := r
  cases built with
  | error s => simp only [pure_bind]
  | ok p =>
      simp only [bind_assoc]
      congr 1
      funext s
      cases hs : s.ok with
      | false =>
          simp only [Bool.not_false, if_true, pure_bind]
          rfl
      | true =>
          simp only [Bool.not_true, Bool.false_eq_true, if_false, pure_bind]
          rfl

section Success

variable {w : World} {log : WriteAheadLog} {f : Stream}

theorem succeeds_fflush (f : Stream) :
    Succeeds (fflush f) (fun r _ => r = (true, { f with pending := [] })) w :=
  Succeeds.call rfl

/-- A sync without a failing call leaves nothing in the buffer. -/
theorem succeeds_sync (h : log.file = some f) : Succeeds log.sync (fun r _ =>
    r = (.OK, { log with file := some { f with pending := [] } })) w := by
  have hsynced : ∀ (f' : Stream) w', Succeeds (fsync f') (fun r _ => r = true) w' := fun _ _ =>
    Succeeds.call rfl
  rw [WriteAheadLog.sync, h]
  refine (succeeds_fflush f).bind (fun r w' => ?_) fun r w' hr => ?_
  · refine Succeeds.ite (fun _ => Succeeds.ret trivial) fun _ => ?_
    exact (hsynced r.2 w').bind (fun _ _ =>
      Succeeds.ite (fun _ => Succeeds.ret trivial) fun _ => Succeeds.ret trivial)
      fun _ _ _ => Succeeds.ite (fun _ => Succeeds.ret trivial) fun _ => Succeeds.ret trivial
  · subst hr
    refine (hsynced _ w').bind (fun _ _ =>
      Succeeds.ite (fun _ => Succeeds.ret trivial) fun _ => Succeeds.ret trivial) ?_
    rintro _ w'' rfl
    exact Succeeds.ret rfl

/-- Closing a log without a failing call. -/
theorem succeeds_close (h : log.file = some f) : Succeeds log.close (fun r _ =>
    r = (.OK, { log with file := none })) w := by
  have hclosed : ∀ (f' : Stream) w', Succeeds (fclose f') (fun r _ => r = true) w' := fun _ _ =>
    Succeeds.call rfl
  rw [WriteAheadLog.close, h]
  refine (succeeds_sync h).bind (fun r w' => ?_) fun r w' hr => ?_
  · obtain ⟨s, log'⟩ := r
    cases hf : log'.file with
    | none =>
        simp only [hf]
        exact Succeeds.ret trivial
    | some f' =>
        simp only [hf]
        exact (hclosed f' w').bind (fun _ _ => Succeeds.ret trivial) fun _ _ _ =>
          Succeeds.ret trivial
  · subst hr
    refine (hclosed _ w').bind (fun _ _ => Succeeds.ret trivial) ?_
    rintro _ w'' rfl
    exact Succeeds.ret rfl

/-- Opening a log without a failing call. -/
theorem succeeds_open (path : Path) : Succeeds (WriteAheadLog.open path) (fun r _ =>
    r = (.OK, ⟨some ⟨path, []⟩, path⟩)) w := by
  rw [WriteAheadLog.open]
  have hopened : Succeeds (fopenAppend path) (fun r _ => r = .ok ⟨path, []⟩) w := Succeeds.call rfl
  refine hopened.bind (fun r w' => ?_) ?_
  · cases r with
    | error n => exact Succeeds.ret trivial
    | ok f => exact Succeeds.ret trivial
  · rintro _ w' rfl
    exact Succeeds.ret rfl

/-- The end of an append that is not synced, without a failing call. -/
theorem succeeds_flushLog (f : Stream) (w : World) : Succeeds (do
    let (flushed, f) ← fflush f
    let log : WriteAheadLog := { log with file := some f }
    if !flushed then
      return (.ioError [.bytes log.path, .lit ": fflush failed: ", .strerror], log)
    else
      return (Status.OK, log)) (fun r _ => r.1 = .OK) w := by
  refine (succeeds_fflush f).bind (fun r w' =>
    Succeeds.ite (fun _ => Succeeds.ret trivial) fun _ => Succeeds.ret trivial) ?_
  rintro _ w' rfl
  exact Succeeds.ret rfl

/-- An append without a failing call. -/
theorem succeeds_addRecord (h : log.file = some f) (data : Bytes) (sync : Bool) :
    Succeeds (log.addRecord data sync) (fun r _ => r.1 = .OK) w := by
  have hwritten : Succeeds (fwrite f (frame data)) (fun r _ => r.1 = true) w :=
    Succeeds.callIf fun _ => rfl
  rw [WriteAheadLog.addRecord, h]
  refine hwritten.bind (fun r w' => ?_) fun r w' hr => ?_
  · obtain ⟨written, f'⟩ := r
    refine Succeeds.ite (fun _ => Succeeds.ret trivial) fun _ => ?_
    exact Succeeds.ite (fun _ => (succeeds_sync rfl).mono fun _ _ _ => trivial)
      fun _ => (succeeds_flushLog f' w').mono fun _ _ _ => trivial
  · obtain ⟨written, f'⟩ := r
    obtain rfl : written = true := hr
    simp only [Bool.not_true, Bool.false_eq_true, if_false]
    exact Succeeds.ite (fun _ => (succeeds_sync rfl).mono fun r _ hr => by rw [hr])
      fun _ => succeeds_flushLog f' w'

end Success

section Keeps

/-- The log object and the shell of an object are kept. -/
structure Keeps (db db' : DB) : Prop where
  shell : SameShell db db'
  wal : db'.wal = db.wal

variable {db db' : DB} {w : World} {b : Nat}

theorem Keeps.refl (db : DB) : Keeps db db := ⟨SameShell.refl db, rfl⟩

theorem Keeps.trans {db'' : DB} (h : Keeps db db') (h' : Keeps db' db'') : Keeps db db'' :=
  ⟨h.shell.trans h'.shell, h'.wal.trans h.wal⟩

theorem Keeps.logOpen (h : Keeps db db') (hopen : db.LogOpen) : db'.LogOpen := by
  rw [DB.LogOpen, h.wal, h.shell.dbPath]
  exact hopen

/-- What is kept in every execution, whatever its calls answer. -/
def AlwaysKeeps {α : Type} (db : DB) (c : Prog World α) (object : α → DB) : Prop :=
  ∀ w b, wp Env.hostile c (fun a _ _ => Keeps db (object a)) (fun _ _ => True) w b

/-- A call whose answer does not matter. -/
theorem wp_any {α β : Type} {c : Prog World α} {k : α → Prog World β}
    {Q : β → World → Nat → Prop} (h : ∀ a w b, wp Env.hostile (k a) Q (fun _ _ => True) w b) :
    wp Env.hostile (c >>= k) Q (fun _ _ => True) w b :=
  wp_bind (wp_mono wp_hostile (fun a w b _ => h a w b) fun _ _ _ => trivial)

theorem keeps_buildTable (held : Nat) (entries : List SSTableEntry) :
    AlwaysKeeps db (db.buildTable held entries) Prod.snd := by
  intro w b
  have hkeeps : Keeps db (db.withNext (db.version.nextFileNumber + 1)) := ⟨⟨rfl, rfl, rfl, rfl⟩, rfl⟩
  rw [buildTable]
  refine wp_any fun _ w b => wp_any fun s w b => ?_
  refine wp_ite (fun _ => wp_pure hkeeps) fun _ => wp_any fun size w b => wp_any fun r w b => ?_
  cases r with
  | error s => exact wp_pure hkeeps
  | ok reader => exact wp_pure hkeeps

theorem keeps_persistMemTable : AlwaysKeeps db db.persistMemTable
    fun r => match r with | .error r => r.2 | .ok db => db := by
  intro w b
  rw [persistMemTable]
  refine wp_bind (wp_mono (keeps_buildTable _ _ w b) ?_ fun _ _ _ => trivial)
  rintro ⟨built, db₁⟩ w b h
  cases built with
  | error s => exact wp_pure h
  | ok p =>
      have hpush : Keeps db (db₁.pushL0 p.1 p.2) := h.trans ⟨⟨rfl, rfl, rfl, rfl⟩, rfl⟩
      refine wp_any fun s w b => wp_ite (fun _ => wp_pure hpush) fun _ => wp_pure ?_
      exact hpush.trans ⟨⟨rfl, rfl, rfl, rfl⟩, rfl⟩

theorem keeps_flushBatch (out : Output) (batch : List SSTableEntry) :
    AlwaysKeeps db (db.flushBatch out batch) fun r => r.2.1 := by
  intro w b
  rw [flushBatch]
  refine wp_ite (fun _ => wp_pure (Keeps.refl db)) fun _ => ?_
  refine wp_bind (wp_mono (keeps_buildTable _ _ w b) ?_ fun _ _ _ => trivial)
  rintro ⟨built, db₁⟩ w b h
  cases built with
  | error s => exact wp_pure h
  | ok p => exact wp_pure h

theorem keeps_writeMerged (dropTombstones : Bool) (target : UInt64) (entries : List SSTableEntry)
    (out : Output) (batch : List SSTableEntry) (size : UInt64) :
    AlwaysKeeps db (writeMerged dropTombstones target entries db out batch size)
      fun r => r.2.1 := by
  induction entries generalizing db out batch size with
  | nil => exact keeps_flushBatch out batch
  | cons entry rest ih =>
      intro w b
      rw [writeMerged]
      refine wp_ite (fun _ => ih out batch size w b) fun _ => ?_
      refine wp_ite (fun _ => ?_) fun _ => ih out _ _ w b
      refine wp_bind (wp_mono (keeps_flushBatch _ _ w b) ?_ fun _ _ _ => trivial)
      rintro ⟨s, db₁, out₁⟩ w b h
      refine wp_ite (fun _ => wp_pure h) fun _ => ?_
      exact wp_mono (ih out₁ [] 0 w b) (fun _ _ _ h' => Keeps.trans h h') fun _ _ _ => trivial

theorem keeps_compactLocked (level : Fin kMaxLevels) :
    AlwaysKeeps db (db.compactLocked level) Prod.snd := by
  intro w b
  rw [compactLocked]
  split
  · exact wp_pure (Keeps.refl db)
  refine wp_any fun merged w b => ?_
  cases merged with
  | error s => exact wp_pure (Keeps.refl db)
  | ok merged =>
      refine wp_bind (wp_mono (keeps_writeMerged _ _ _ _ _ _ w b) ?_ fun _ _ _ => trivial)
      rintro ⟨s, db₁, out⟩ w b h
      refine wp_ite (fun _ => wp_pure h) fun _ => ?_
      have hswitch := h.trans (⟨⟨rfl, rfl, rfl, rfl⟩, rfl⟩ : Keeps db₁ (db₁.switch level
        ⟨level.val + 1, by omega⟩ out))
      exact wp_any fun vs w b => wp_ite (fun _ => wp_pure hswitch) fun _ =>
        wp_any fun _ w b => wp_pure hswitch

theorem keeps_compactionLoop (fuel : Nat) :
    AlwaysKeeps db (compactionLoop fuel db) Prod.snd := by
  induction fuel generalizing db with
  | zero => exact fun w b => wp_outOfFuel trivial
  | succ fuel ih =>
      intro w b
      rw [compactionLoop]
      cases db.needsCompactionLocked with
      | none => exact wp_pure (Keeps.refl db)
      | some level =>
          refine wp_bind (wp_mono (keeps_compactLocked level w b) ?_ fun _ _ _ => trivial)
          rintro ⟨s, db₁⟩ w b h
          refine wp_ite (fun _ => wp_pure h) fun _ => ?_
          exact wp_mono (ih w b) (fun _ _ _ h' => h.trans h') fun _ _ _ => trivial

/-- What is kept in an execution that returns. -/
theorem AlwaysKeeps.of_returned {α : Type} {c : Prog World α} {object : α → DB}
    (h : AlwaysKeeps db c object) {fs rest : List Fault} {a : α} {w' : World} {t : Nat}
    (hr : c w fs = .returned a w' rest t) : Keeps db (object a) :=
  (h w t).of_returned (Env.hostile_admits fs) hr (Nat.le_refl t)

end Keeps

section Conditions

/-- Closing the old log and opening the new one meet no failure. The removal of
the old one may fail. -/
def RotationSpared (db : DB) (w : World) (fs : List Fault) : Prop :=
  ∀ log, db.wal = some log → ¬log.close.MeetsFailure w fs ∧
    (log.close w fs).AtReturn fun _ w fs => (remove (walPath db.dbPath) w fs).AtReturn fun _ w fs =>
      ¬(WriteAheadLog.open (walPath db.dbPath)).MeetsFailure w fs

/-- If a flush gets to the rotation, that is spared. -/
def FlushSpared (db : DB) (w : World) (fs : List Fault) : Prop :=
  db.memtable.empty = false → (db.persistMemTable w fs).AtReturn fun r w fs =>
    ∀ db', r = .ok db' → RotationSpared db' w fs

/-- If a write triggers a flush, that is spared. -/
def WriteSpared (db : DB) (opts : WriteOptions) (batch : WriteBatch) (w : World)
    (fs : List Fault) : Prop :=
  ∀ log, db.wal = some log →
    (log.addRecord batch.rep (opts.sync || db.options.syncWrites) w fs).AtReturn fun r w fs =>
      r.1.ok = true → batch.WellFormed → db.options.backgroundCompaction = false →
        FlushSpared (DB.applied { db with wal := some r.2 } batch) w fs

/-- The condition on one step: its rotation of the log is spared. -/
def RotationsSpared (m : Machine) (op : Op) (_ : Nat) (fs : List Fault) : Prop :=
  ∀ db, m.db = some db → match op with
    | .write opts batch => WriteSpared db opts batch m.world fs
    | .flush => FlushSpared db m.world fs
    | .background => FlushSpared { db with bgWorkRequested := false } m.world fs
    | _ => True

end Conditions

section Steps

variable {db db' : DB} {w w' : World} {fs rest : List Fault} {s : Status} {t : Nat}

/-- A spared rotation ends with an open log. -/
theorem rotateWal_logOpen (hopen : db.LogOpen) (hspared : RotationSpared db w fs)
    (hr : db.rotateWal w fs = .returned (s, db') w' rest t) : db'.LogOpen := by
  obtain ⟨hclose, hrest⟩ := hspared _ hopen
  rw [rotateWal, hopen] at hr
  obtain ⟨⟨cs, log⟩, w₁, fs₁, t₁, u₁, hc, hr⟩ := Prog.bind_returned hr
  have hclosed := (succeeds_close rfl).of_returned hc hclose
  obtain ⟨rfl, rfl⟩ := Prod.mk.inj hclosed
  simp only [Status.ok_OK, Bool.not_true, Bool.false_eq_true, if_false] at hr
  obtain ⟨_, w₂, fs₂, t₂, u₂, hremove, hr⟩ := Prog.bind_returned hr
  simp only [hc, hremove, Outcome.atReturn_returned] at hrest
  obtain ⟨r, w₃, fs₃, t₃, u₃, ho, hr⟩ := Prog.bind_returned hr
  obtain rfl := (succeeds_open _).of_returned ho hrest
  cases hr
  exact rfl

theorem flushMemTableLocked_logOpen (hopen : db.LogOpen) (hspared : FlushSpared db w fs)
    (hr : db.flushMemTableLocked w fs = .returned (s, db') w' rest t) : db'.LogOpen := by
  cases hne : db.memtable.empty with
  | true =>
      rw [flushMemTableLocked, if_pos hne] at hr
      cases hr
      exact hopen
  | false =>
      rw [flushMemTableLocked_eq db hne] at hr
      obtain ⟨r, w₁, fs₁, t₁, u₁, hp, hr⟩ := Prog.bind_returned hr
      have hkeeps := keeps_persistMemTable.of_returned hp
      have hrotation := hspared hne
      simp only [hp, Outcome.atReturn_returned] at hrotation
      cases r with
      | error r =>
          cases hr
          exact hkeeps.logOpen hopen
      | ok db₁ => exact rotateWal_logOpen (hkeeps.logOpen hopen) (hrotation db₁ rfl) hr

theorem flush_logOpen {fuel : Nat} (hopen : db.LogOpen) (hspared : FlushSpared db w fs)
    (hr : db.flush fuel w fs = .returned (s, db') w' rest t) : db'.LogOpen := by
  rw [flush] at hr
  obtain ⟨⟨s₁, db₁⟩, w₁, fs₁, t₁, u₁, hf, hr⟩ := Prog.bind_returned hr
  have hopen' := flushMemTableLocked_logOpen hopen hspared hf
  cases hs : s₁.ok with
  | false =>
      simp only [hs, Bool.not_false, if_true] at hr
      cases hr
      exact hopen'
  | true =>
      simp only [hs, Bool.not_true, Bool.false_eq_true, if_false] at hr
      exact ((keeps_compactionLoop fuel).of_returned hr).logOpen hopen'

theorem maybeFlushLocked_logOpen {fuel : Nat} (hopen : db.LogOpen) (hspared : FlushSpared db w fs)
    (hr : db.maybeFlushLocked fuel w fs = .returned (s, db') w' rest t) : db'.LogOpen := by
  rw [maybeFlushLocked] at hr
  split at hr
  · exact flush_logOpen hopen hspared hr
  · exact ((keeps_compactionLoop fuel).of_returned hr).logOpen hopen

/-- An append leaves the log open, whatever its calls answer. -/
theorem wp_addRecord_open {path : Path} (data : Bytes) (sync : Bool) (w : World) (b : Nat) :
    wp Env.hostile (WriteAheadLog.addRecord ⟨some ⟨path, []⟩, path⟩ data sync)
      (fun r _ _ => r.2 = ⟨some ⟨path, []⟩, path⟩) (fun _ _ => True) w b := by
  exact wp_addRecord rfl (Or.inl trivial) (fun _ _ _ => rfl) (fun _ _ _ _ _ _ => rfl)
    fun _ _ _ _ => trivial

theorem write_logOpen {fuel : Nat} {opts : WriteOptions} {batch : WriteBatch}
    (hopen : db.LogOpen) (hspared : WriteSpared db opts batch w fs)
    (hr : db.write fuel opts batch w fs = .returned (s, db') w' rest t) : db'.LogOpen := by
  have hspared' := hspared _ hopen
  rw [write] at hr
  split at hr
  · cases hr
    exact hopen
  split at hr
  · cases hr
    exact hopen
  rw [hopen] at hr
  obtain ⟨⟨s₁, log⟩, w₁, fs₁, t₁, u₁, ha, hr⟩ := Prog.bind_returned hr
  have hlog : log = ⟨some ⟨walPath db.dbPath, []⟩, walPath db.dbPath⟩ :=
    (wp_addRecord_open _ _ w t₁).of_returned (Env.hostile_admits fs) ha (Nat.le_refl t₁)
  subst hlog
  simp only [ha, Outcome.atReturn_returned] at hspared'
  have hsame : { db with wal := some ⟨some ⟨walPath db.dbPath, []⟩, walPath db.dbPath⟩ } = db := by
    rw [← hopen]
  simp only [hsame] at hr hspared'
  cases hs : s₁.ok with
  | false =>
      simp only [hs, Bool.not_false, if_true] at hr
      cases hr
      exact hopen
  | true =>
      simp only [hs, Bool.not_true, Bool.false_eq_true, if_false, applyBatchLocked_eq] at hr
      cases hwell : (batch.iterate WriteBatch.recorder []).1.ok with
      | false =>
          simp only [hwell, Bool.not_false, if_true] at hr
          cases hr
          exact hopen
      | true =>
          simp only [hwell, Bool.not_true, Bool.false_eq_true, if_false] at hr
          split at hr
          next =>
            cases hr
            exact hopen
          next hbackground =>
            have hnow : db.options.backgroundCompaction = false := by
              simpa [DB.applied] using hbackground
            exact maybeFlushLocked_logOpen (show (db.applied batch).LogOpen from hopen)
              (hspared' hs hwell hnow) hr

theorem wp_openLog_logOpen (existed : Bool) (db : DB) (w : World) (b : Nat) :
    wp Env.hostile (db.openLog existed) (fun r _ _ => r.1.ok = true → r.2.LogOpen)
      (fun _ _ => True) w b := by
  rw [openLog]
  refine wp_bind (WriteAheadLog.wp_open (fun w' _ _ => ?_) (fun _ s hs => ?_) fun _ _ _ _ => trivial)
  · simp only [Status.ok_OK, Bool.not_true, Bool.false_eq_true, if_false]
    exact wp_ite (fun _ => wp_pure fun _ => rfl) fun _ => wp_any fun s w b => wp_pure fun _ => rfl
  · simp only [hs, Bool.not_false, if_true]
    exact wp_pure fun hok => by rw [hs] at hok; cases hok

/-- A result that is not OK says nothing of the log. -/
theorem wp_pure_failed {s : Status} {db : DB} {w : World} {b : Nat} (h : (!s.ok) = true) :
    wp Env.hostile (pure (s, db)) (fun r _ _ => r.1.ok = true → r.2.LogOpen)
      (fun _ _ => True) w b :=
  wp_pure fun hok => by
    rw [show s.ok = true from hok] at h
    cases h

theorem wp_openBody_logOpen (existed : Bool) (db : DB) (w : World) (b : Nat) :
    wp Env.hostile (db.openBody existed) (fun r _ _ => r.1.ok = true → r.2.LogOpen)
      (fun _ _ => True) w b := by
  rw [openBody_eq]
  refine wp_any fun r w b => wp_ite (fun h => wp_pure_failed h.1) fun _ => wp_any fun _ w b => ?_
  rw [openTables]
  refine wp_any fun r w b => wp_ite wp_pure_failed fun _ => ?_
  exact wp_any fun r w b => wp_ite wp_pure_failed fun _ => wp_openLog_logOpen existed _ w b

/-- What `Open` returns has an open log, whatever its calls answer. -/
theorem wp_openObject_logOpen (d : Path) (options : Options) (w : World) (b : Nat) :
    wp Env.hostile (openObject d options) (fun r _ _ => ∀ db, r.2 = some db → db.LogOpen)
      (fun _ _ => True) w b := by
  have hopen : ∀ w b, wp Env.hostile (DB.open options d)
      (fun r _ _ => ∀ db, r = .ok db → db.LogOpen) (fun _ _ => True) w b := by
    intro w b
    rw [DB.open]
    refine wp_any fun existed w b => wp_ite (fun _ => wp_pure (by simp)) fun _ => ?_
    refine wp_any fun failed w b => ?_
    cases failed with
    | some n => exact wp_pure (by simp)
    | none =>
        refine wp_ite (fun _ => wp_pure (by simp)) fun _ => ?_
        refine wp_bind (wp_mono (wp_openBody_logOpen existed _ w b) ?_ fun _ _ _ => trivial)
        rintro ⟨s, db⟩ w b h
        refine wp_ite (fun _ => wp_any fun _ w b => wp_pure (by simp)) fun hs => wp_pure ?_
        rintro _ ⟨⟩
        exact h (by simpa using hs)
  rw [openObject]
  refine wp_bind (wp_mono (hopen w b) ?_ fun _ _ _ => trivial)
  intro r w b h
  cases r with
  | error s => exact wp_pure (by simp)
  | ok db => exact wp_pure fun db' hdb => h db' (by rw [Option.some.inj hdb])

theorem shell_rotateWal (db : DB) (w : World) (b : Nat) :
    wp Env.hostile db.rotateWal (fun r _ _ => SameShell db r.2) (fun _ _ => True) w b := by
  rw [rotateWal]
  cases db.wal with
  | none => exact wp_abort trivial
  | some log =>
      exact wp_any fun r w b => wp_ite (fun _ => wp_pure ⟨rfl, rfl, rfl, rfl⟩) fun _ =>
        wp_any fun _ w b => wp_any fun r w b => wp_pure ⟨rfl, rfl, rfl, rfl⟩

theorem shell_flushMemTableLocked (db : DB) (w : World) (b : Nat) :
    wp Env.hostile db.flushMemTableLocked (fun r _ _ => SameShell db r.2) (fun _ _ => True) w b := by
  cases hne : db.memtable.empty with
  | true =>
      rw [flushMemTableLocked, if_pos hne]
      exact wp_pure (SameShell.refl db)
  | false =>
      rw [flushMemTableLocked_eq db hne]
      refine wp_bind (wp_mono (keeps_persistMemTable w b) (fun r w b h => ?_) fun _ _ _ => trivial)
      cases r with
      | error r => exact wp_pure h.shell
      | ok db₁ =>
          exact wp_mono (shell_rotateWal db₁ w b) (fun _ _ _ h' => h.shell.trans h')
            fun _ _ _ => trivial

theorem shell_flush (fuel : Nat) (db : DB) (w : World) (b : Nat) :
    wp Env.hostile (db.flush fuel) (fun r _ _ => SameShell db r.2) (fun _ _ => True) w b := by
  rw [flush]
  refine wp_bind (wp_mono (shell_flushMemTableLocked db w b) (fun r w b h => ?_) fun _ _ _ => trivial)
  refine wp_ite (fun _ => wp_pure h) fun _ => ?_
  exact wp_mono (keeps_compactionLoop fuel w b) (fun _ _ _ h' => h.trans h'.shell)
    fun _ _ _ => trivial

theorem shell_write (fuel : Nat) (opts : WriteOptions) (batch : WriteBatch) (db : DB) (w : World)
    (b : Nat) : wp Env.hostile (db.write fuel opts batch) (fun r _ _ => SameShell db r.2)
      (fun _ _ => True) w b := by
  rw [write]
  refine wp_ite (fun _ => wp_pure (SameShell.refl db)) fun _ =>
    wp_ite (fun _ => wp_pure (SameShell.refl db)) fun _ => ?_
  cases db.wal with
  | none => exact wp_abort trivial
  | some log =>
      have hsame : ∀ log requested, SameShell db
          (DB.applied { db with wal := log, bgWorkRequested := requested } batch) :=
        fun _ _ => ⟨rfl, rfl, rfl, rfl⟩
      simp only [applyBatchLocked_eq]
      refine wp_any fun r w b => wp_ite (fun _ => wp_pure ⟨rfl, rfl, rfl, rfl⟩) fun _ => ?_
      refine wp_ite (fun _ => wp_pure (hsame _ _)) fun _ =>
        wp_ite (fun _ => wp_pure ⟨rfl, rfl, rfl, rfl⟩) fun _ => ?_
      rw [maybeFlushLocked]
      refine wp_ite (fun _ => ?_) fun _ => ?_
      · exact wp_mono (shell_flush fuel _ w b) (fun _ _ _ h => (hsame _ _).trans h)
          fun _ _ _ => trivial
      · exact wp_mono (keeps_compactionLoop fuel w b) (fun _ _ _ h => (hsame _ _).trans h.shell)
          fun _ _ _ => trivial

theorem closed_closeEnd (db : DB) (w : World) (b : Nat) :
    wp Env.hostile db.closeEnd (fun r _ _ => r.2.closed = true) (fun _ _ => True) w b := by
  rw [closeEnd]
  refine wp_any fun r w b => ?_
  obtain ⟨s, db₁⟩ := r
  cases hwal : db₁.wal with
  | none =>
      simp only [hwal]
      exact wp_any fun _ w b => wp_pure rfl
  | some log =>
      simp only [hwal]
      exact wp_any fun _ w b => wp_any fun _ w b => wp_pure rfl

/-- The log of the process is open as long as its database is. -/
def Machine.LogOpen (m : Machine) : Prop :=
  ∀ db, m.db = some db → db.closed = false → db.LogOpen

/-- A step whose rotation is spared leaves an open log to an open database. -/
theorem Step.logOpen {E : Env} {d : Path} {m m' : Machine} {e : Event} {t : Nat}
    (h : m.LogOpen) (hs : Step E RotationsSpared d m e t m') : m'.LogOpen := by
  cases hs with
  | crashed => exact fun db hdb => by cases hdb
  | killed => exact fun db hdb => by cases hdb
  | @returned op fuel fs rest s db? w' t admits allowed run =>
      obtain ⟨w, before⟩ := m
      have hreopen : ∀ options, openObject d options w fs = .returned (s, db?) w' rest t →
          Machine.LogOpen ⟨w', db?⟩ := fun options hr db hdb _ =>
        (wp_openObject_logOpen d options w t).of_returned (Env.hostile_admits fs) hr
          (Nat.le_refl t) db hdb
      cases before with
      | none =>
          cases op with
          | reopen options => exact hreopen options run
          | _ =>
              cases run
              exact fun db hdb => by cases hdb
      | some db =>
          have hopen : db.closed = false → db.LogOpen := h db rfl
          have hallowed := allowed db rfl
          -- an object that is open now was open before
          have hafter : ∀ db₁ : DB, (db.closed = false → db₁.LogOpen) → SameShell db db₁ →
              Machine.LogOpen ⟨w', some db₁⟩ := by
            rintro db₁ hlog hshell _ ⟨⟩ hclosed
            exact hlog (hshell.closed.symm.trans hclosed)
          have hadmits := Env.hostile_admits fs
          cases op with
          | write opts batch =>
              obtain ⟨⟨s₁, db₁⟩, w₁, fs₁, t₁, u₁, hr, hpure⟩ := Prog.bind_returned run
              cases hpure
              exact hafter db₁ (fun hclosed => write_logOpen (hopen hclosed) hallowed hr)
                ((shell_write fuel opts batch db w t₁).of_returned hadmits hr (Nat.le_refl t₁))
          | flush =>
              obtain ⟨⟨s₁, db₁⟩, w₁, fs₁, t₁, u₁, hr, hpure⟩ := Prog.bind_returned run
              cases hpure
              exact hafter db₁ (fun hclosed => flush_logOpen (hopen hclosed) hallowed hr)
                ((shell_flush fuel db w t₁).of_returned hadmits hr (Nat.le_refl t₁))
          | background =>
              obtain ⟨db₁, w₁, fs₁, t₁, u₁, hr, hpure⟩ := Prog.bind_returned run
              cases hpure
              rw [backgroundIteration] at hr
              split at hr
              · cases hr
                exact hafter db hopen (SameShell.refl db)
              · obtain ⟨⟨s₂, db₂⟩, w₂, fs₂, t₂, u₂, hf, hpure⟩ := Prog.bind_returned hr
                cases hpure
                have hidle : SameShell db { db with bgWorkRequested := false } :=
                  ⟨rfl, rfl, rfl, rfl⟩
                have hlog : db.closed = false → DB.LogOpen { db with bgWorkRequested := false } :=
                  fun hclosed => hopen hclosed
                exact hafter db₁ (fun hclosed => flush_logOpen (hlog hclosed) hallowed hf)
                  (hidle.trans ((shell_flush fuel _ w t₂).of_returned hadmits hf (Nat.le_refl t₂)))
          | compact level =>
              obtain ⟨⟨s₁, db₁⟩, w₁, fs₁, t₁, u₁, hr, hpure⟩ := Prog.bind_returned run
              cases hpure
              have hkeeps := (keeps_compactLocked level).of_returned hr
              exact hafter db₁ (fun hclosed => hkeeps.logOpen (hopen hclosed)) hkeeps.shell
          | closeBegin =>
              cases run
              rw [closeBegin]
              split
              · exact hafter db hopen (SameShell.refl db)
              · rintro _ ⟨⟩ hclosed
                exact hopen hclosed
          | closeEnd =>
              rw [Op.prog] at run
              split at run
              · obtain ⟨⟨s₁, db₁⟩, w₁, fs₁, t₁, u₁, hr, hpure⟩ := Prog.bind_returned run
                cases hpure
                have hclosed : db₁.closed = true :=
                  (closed_closeEnd db w t₁).of_returned hadmits hr (Nat.le_refl t₁)
                rintro _ ⟨⟩ hno
                rw [hclosed] at hno
                cases hno
              · cases run
                exact hafter db hopen (SameShell.refl db)
          | reopen options =>
              rw [Op.prog] at run
              split at run
              · exact hreopen options run
              · cases run
                exact hafter db hopen (SameShell.refl db)

theorem Run.logOpen {E : Env} {d : Path} {m₀ m : Machine} {es : List Event} {t : Nat}
    (h : m₀.LogOpen) (hr : Run E RotationsSpared d m₀ es t m) : m.LogOpen := by
  induction hr with
  | start => exact h
  | step run last ih => exact last.logOpen ih

/-- A write whose append meets no failure, and whose flush and compactions end
well, returns OK. -/
def WritesOK (m : Machine) (db : DB) : Prop :=
  ∀ fuel opts batch fs, batch.empty = false → batch.WellFormed → ∀ log, db.wal = some log →
    ∀ r w₁ fs₁ t₁, log.addRecord batch.rep (opts.sync || db.options.syncWrites) m.world fs =
        .returned r w₁ fs₁ t₁ →
      ¬(log.addRecord batch.rep (opts.sync || db.options.syncWrites)).MeetsFailure m.world fs →
      (db.options.backgroundCompaction = true ∨ ∃ s db₂ w₂ fs₂ t₂, s.ok = true ∧
        DB.maybeFlushLocked fuel (DB.applied { db with wal := some r.2 } batch) w₁ fs₁ =
          .returned (s, db₂) w₂ fs₂ t₂) →
      ∃ s db' w' rest t, s.ok = true ∧
        db.write fuel opts batch m.world fs = .returned (s, db') w' rest t

theorem writesOK_of_logOpen {m : Machine} {db : DB} (hopen : db.LogOpen)
    (hclosed : db.closed = false) : WritesOK m db := by
  intro fuel opts batch fs hne hwell log hlog r w₁ fs₁ t₁ ha hno hflush
  obtain ⟨s, log'⟩ := r
  have hok : s = .OK := by
    rw [hopen] at hlog
    obtain rfl := Option.some.inj hlog
    exact (succeeds_addRecord rfl _ _).of_returned ha hno
  subst hok
  have hwell' : (batch.iterate WriteBatch.recorder []).1.ok = true := hwell
  have hwrite : db.write fuel opts batch m.world fs = Outcome.after t₁
      ((if db.options.backgroundCompaction then
        pure ((batch.iterate WriteBatch.recorder []).1,
          { DB.applied { db with wal := some log' } batch with bgWorkRequested := true })
      else DB.maybeFlushLocked fuel (DB.applied { db with wal := some log' } batch)) w₁ fs₁) := by
    rw [DB.write, if_neg (by rw [hne]; simp), if_neg (by rw [hclosed]; simp), hlog]
    simp only [bind, Prog.seq, ha, Status.ok_OK, Bool.not_true, Bool.false_eq_true, if_false,
      applyBatchLocked_eq, hwell']
    rfl
  rw [hwrite]
  rcases hflush with hb | ⟨s, db₂, w₂, fs₂, t₂, hs, hr⟩
  · rw [if_pos hb]
    exact ⟨_, _, _, _, _, hwell', rfl⟩
  · by_cases hb : db.options.backgroundCompaction = true
    · rw [if_pos hb]
      exact ⟨_, _, _, _, _, hwell', rfl⟩
    · rw [if_neg hb, hr]
      exact ⟨s, db₂, w₂, fs₂, _, hs, rfl⟩

end Steps

section Runs

variable {d : Path} {w : World} {es : List Event} {t : Nat} {m : Machine} {db : DB}

/-- A flush in which the new log cannot be opened. -/
def lostLog : Option (List Event × Nat × Machine) :=
  Machine.execute 20 [0x64] ⟨⟨false, ∅⟩, none⟩
    [(.reopen {}, []), (.write {} (WriteBatch.put {} [0x61] [0x78]), []),
      (.flush, List.replicate 23 .ok ++ [.fail 1])]

end Runs

end ClomDB
