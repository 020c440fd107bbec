import ClomDB.Reachable

/-!
# When the memtable is flushed

`options.h` says that the memtable is flushed once it reaches
`memtable_flush_bytes`, and that `background_compaction` only moves the work to
a thread. An inline write goes by the size; a round of the background thread
flushes whatever the memtable holds.

## Implementation notes

Whether a section flushes the memtable is read off its executions: it does
where the section with the flush left out would have ended differently.
-/

namespace ClomDB

open FaultProgram FileSystem FileSystem.World DB

namespace DB

/-- `Write` with the flush left out of `MaybeFlushLocked`. -/
def writeUnflushed (fuel : Nat) (db : DB) (opts : WriteOptions) (batch : WriteBatch) :
    Prog World (Status × DB) := do
  if batch.empty then
    return (.OK, db)
  else if db.closed then
    return (.invalidArgument [.lit "DB is closed"], db)
  else
    match db.wal with
    | none => Prog.abort
    | some log =>
      let (s, log) ← log.addRecord batch.rep (opts.sync || db.options.syncWrites)
      let db := { db with wal := some log }
      if !s.ok then
        return (s, db)
      else
        let (s, db) := db.applyBatchLocked batch
        if !s.ok then
          return (s, db)
        else if db.options.backgroundCompaction then
          return (s, { db with bgWorkRequested := true })
        else
          compactionLoop fuel db

/-- A round of the background thread with the flush left out. -/
def backgroundUnflushed (fuel : Nat) (db : DB) : Prog World DB := do
  if db.shuttingDown ∨ db.bgWorkRequested = false then
    return db
  else
    let (_, db) ← compactionLoop fuel { db with bgWorkRequested := false }
    return db

/-- The memtable has reached the size at which it is flushed. -/
def Full (db : DB) : Prop := db.options.memtableFlushBytes ≤ db.memtable.approximateBytes

instance (db : DB) : Decidable db.Full :=
  inferInstanceAs (Decidable (db.options.memtableFlushBytes ≤ db.memtable.approximateBytes))

theorem write_eq_unflushed {db : DB} {batch : WriteBatch} (h : ¬(db.applied batch).Full)
    (fuel : Nat) (opts : WriteOptions) :
    db.write fuel opts batch = db.writeUnflushed fuel opts batch := by
  have hmaybe : ∀ log, (DB.applied { db with wal := log } batch).maybeFlushLocked fuel =
      compactionLoop fuel (DB.applied { db with wal := log } batch) := fun log => by
    rw [maybeFlushLocked]
    exact if_neg h
  rw [write, writeUnflushed]
  cases db.wal with
  | none => rfl
  | some log => simp only [applyBatchLocked_eq, hmaybe]

end DB

/-- A section that flushes on its own account, with the flush left out. -/
def Op.unflushed (fuel : Nat) (d : Path) : Op → DB → Prog World (Status × Option DB)
  | .write opts batch, db => do
      let (s, db) ← db.writeUnflushed fuel opts batch
      return (s, some db)
  | .background, db => do
      let db ← db.backgroundUnflushed fuel
      return (.OK, some db)
  | op, db => op.prog fuel d (some db)

/-- The object that a section which flushes on its own account flushes. -/
def Op.flushed : Op → DB → DB
  | .write _ batch, db => db.applied batch
  | _, db => db

/-- If a section that is not an explicit flush flushes the memtable, that is full. -/
def FlushesBySize (d : Path) (m : Machine) (op : Op) (fuel : Nat) (fs : List Fault) : Prop :=
  ∀ db, m.db = some db →
    op.prog fuel d (some db) m.world fs ≠ op.unflushed fuel d db m.world fs → (op.flushed db).Full

/-- The background thread takes up a request only when there is nothing in the
memtable or the memtable is full. -/
def RoundsSized (m : Machine) (op : Op) (_ : Nat) (_ : List Fault) : Prop :=
  ∀ db, m.db = some db → op = .background → db.shuttingDown = false → db.bgWorkRequested = true →
    db.memtable.empty = true ∨ db.Full

section Policy

variable {E : Env} {d : Path} {m m₀ : Machine} {op : Op} {fuel : Nat} {fs : List Fault}
  {es : List Event} {t : Nat}

theorem backgroundIteration_eq_unflushed {db : DB} (h : db.shuttingDown = false →
    db.bgWorkRequested = true → db.memtable.empty = true) (fuel : Nat) :
    db.backgroundIteration fuel = db.backgroundUnflushed fuel := by
  rw [backgroundIteration, backgroundUnflushed]
  by_cases hquiet : db.shuttingDown = true ∨ db.bgWorkRequested = false
  · rw [if_pos hquiet, if_pos hquiet]
  · obtain ⟨hopen, hrequested⟩ := not_or.mp hquiet
    have hempty := h (by simpa using hopen) (by simpa using hrequested)
    rw [if_neg hquiet, if_neg hquiet, flush, flushMemTableLocked, if_pos hempty, pure_bind]
    rfl

/-- A sized step flushes by size. -/
theorem RoundsSized.flushesBySize (h : RoundsSized m op fuel fs) : FlushesBySize d m op fuel fs := by
  intro db hdb hdiffers
  by_contra hsmall
  refine hdiffers ?_
  cases op with
  | write opts batch =>
      have heq := write_eq_unflushed hsmall fuel opts
      simp only [Op.prog, Op.unflushed, heq]
  | background =>
      have heq := backgroundIteration_eq_unflushed (fun hopen hrequested =>
        (h db hdb rfl hopen hrequested).resolve_right hsmall) fuel
      simp only [Op.prog, Op.unflushed, heq]
  | _ => rfl

/-- A round that takes up a request for a memtable that holds something flushes
it: this shows where the creation of the table fails. -/
theorem background_differs {db : DB} (hopen : db.shuttingDown = false)
    (hrequested : db.bgWorkRequested = true) (hne : db.memtable.empty = false) (w : World) :
    Op.prog 0 d .background (some db) w [.fail 0] ≠ Op.unflushed 0 d .background db w [.fail 0] := by
  have htaken : ¬(db.shuttingDown = true ∨ db.bgWorkRequested = false) := by
    rw [hopen, hrequested]
    simp
  have hne' : ({ db with bgWorkRequested := false } : DB).memtable.empty = false := hne
  obtain ⟨s, hs⟩ := flush_fails hne' w 0 0
  have hreturned : Op.prog 0 d .background (some db) w [.fail 0] =
      .returned (.OK, some (DB.withNext { db with bgWorkRequested := false }
        (db.version.nextFileNumber + 1))) w [] 1 := by
    simp only [Op.prog, backgroundIteration, if_neg htaken, bind, Prog.seq, hs, Outcome.after]
    rfl
  have hrunning : Op.unflushed 0 d .background db w [.fail 0] = .running 0 := by
    simp only [Op.unflushed, backgroundUnflushed, if_neg htaken]
    rfl
  rw [hreturned, hrunning]
  intro h
  cases h

/-- Where the flushes of every execution of a step go by size, the step is sized. -/
theorem flushesBySize_iff : (∀ fuel fs, FlushesBySize d m op fuel fs) ↔
    ∀ fuel fs, RoundsSized m op fuel fs := by
  constructor
  · rintro h fuel fs db hdb rfl hopen hrequested
    by_contra hnot
    obtain ⟨hne, hsmall⟩ := not_or.mp hnot
    exact hsmall (h 0 [.fail 0] db hdb
      (background_differs hopen hrequested (by simpa using hne) m.world))
  · exact fun h fuel fs => (h fuel fs).flushesBySize

/-- In a run whose rounds are sized every flush that is not an explicit one goes
by the size of the memtable. For a single step, in any state, this is exactly
the condition. -/
theorem flushes_by_size (E : Env) (d : Path) (m₀ : Machine) (es : List Event) (t : Nat)
    (m : Machine) :
    (Run E RoundsSized d m₀ es t m → Run E (FlushesBySize d) d m₀ es t m) ∧
      ∀ op, (∀ fuel fs, FlushesBySize d m op fuel fs) ↔ ∀ fuel fs, RoundsSized m op fuel fs := by
  constructor
  · exact fun hr => hr.mono id id fun _ _ _ _ h => h.flushesBySize
  · exact fun op => flushesBySize_iff

/-- A new database with one small write that waits for the background thread. -/
def oneWrite : Option (List Event × Nat × Machine) :=
  Machine.execute 20 [0x64] ⟨⟨false, ∅⟩, none⟩
    [(.reopen {}, []), (.write {} (WriteBatch.put {} [0x61] [0x78]), [])]

theorem oneWrite_run {es : List Event} {t : Nat} {m : Machine} (h : oneWrite = some (es, t, m))
    (hes : es.all Event.survived = true) :
    Run Env.calm Free [0x64] ⟨⟨false, ∅⟩, none⟩ es t m := by
  refine Machine.run_of_execute (fun p hp => ?_) (fun _ _ _ => trivial)
    (Or.inr (ne_crashed_of_survived hes)) h
  rcases List.mem_cons.mp hp with rfl | hp
  · exact Env.admits_nil _
  · rw [List.mem_singleton.mp hp]
    exact Env.admits_nil _

/-- Whether an execution ends with an empty memtable. -/
def endsEmpty (o : Outcome World (Status × Option DB)) : Option Bool :=
  o.value.bind fun r => r.2.map fun db => db.memtable.empty

/-- Two bytes of four MiB are enough for the background thread to flush. -/
theorem oneWrite_flushed : ¬∀ (d : Path) (w : World) (es : List Event) (t : Nat) (m : Machine)
    (op : Op) (fuel : Nat) (fs : List Fault), Blank d w → Run Env.calm Free d ⟨w, none⟩ es t m →
      Env.calm.Admits fs → FlushesBySize d m op fuel fs := by
  intro hclaim
  have hrun : (oneWrite.any fun r => r.1.all Event.survived
      && r.2.2.db.any fun db => !decide db.Full &&
        endsEmpty (Op.prog 20 [0x64] .background (some db) r.2.2.world []) !=
          endsEmpty (Op.unflushed 20 [0x64] .background db r.2.2.world [])) = true := by
    decide +kernel
  obtain ⟨⟨es, t, m⟩, hr, hm⟩ := (Option.any_eq_true ..).mp hrun
  obtain ⟨hes, hdb⟩ := (Bool.and_eq_true ..).mp hm
  obtain ⟨db, hdb, hchecks⟩ := (Option.any_eq_true ..).mp hdb
  obtain ⟨hsmall, hends⟩ := (Bool.and_eq_true ..).mp hchecks
  have hreached := oneWrite_run hr hes
  have hfull : db.Full := hclaim [0x64] ⟨false, ∅⟩ es t m .background 20 [] ⟨rfl, rfl⟩ hreached
    (Env.admits_nil _) db hdb fun heq => by
      rw [heq] at hends
      exact absurd hends (by simp)
  exact absurd hfull (by simpa using hsmall)

end Policy

end ClomDB
