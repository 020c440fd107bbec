import ClomDB.Durability
import ClomDB.Library.SharedObject

/-!
# Threads

Any number of clients call the methods of one object while its background thread
runs. What a method does between locking the mutex and unlocking it is one step,
and so is every way in which a thread stops waiting. A process may die in a
section or between two of them, and after it the directory is opened again.

## Implementation notes

`Put` and `Delete` are writes of one operation. An iteration of `BackgroundLoop`
ends with the test of the next one, because the mutex is held in between. Nothing
reads `bg_idle_`, and nobody waits on `bg_idle_cv_`. Two calls of `Close` do not
overlap, because both would join one thread. A process that dies in a read leaves
what one leaves that dies before it.
-/

namespace ClomDB

open FaultProgram FileSystem FileSystem.World SSTable DB SharedObject

inductive Call where
  | write (opts : WriteOptions) (batch : WriteBatch)
  | get (key : Bytes)
  | newIterator
  | flush
  | getStats
  | close

inductive Reply where
  | status (s : Status)
  | value (r : Except Status Bytes)
  | iterator (it : Iterator)
  | stats (s : Stats)

/-- Where a thread is that calls methods: its section is to come, or it is in `Close`
and joins the background thread, or it has its reply. -/
inductive Client where
  | idle
  | calls (c : Call)
  | joins
  | returns (r : Reply)

/-- Where the background thread is: it is about to lock the mutex and to test what it
waits for, or blocked in `bg_cv_.wait`. -/
inductive Worker where
  | absent
  | tests
  | waits
  | exited
  deriving DecidableEq

def Worker.Gone : Worker → Prop
  | .absent | .exited => True
  | _ => False

instance : DecidablePred Worker.Gone
  | .absent | .exited => isTrue trivial
  | .tests | .waits => isFalse id

/-- `bg_cv_.notify_one()`, or `notify_all()`. -/
def Worker.notified : Worker → Worker
  | .waits => .tests
  | k => k

/-- The section of a client that works on the object. -/
def Client.op : Client → Option Op
  | .calls (.write opts batch) => some (.write opts batch)
  | .calls .flush => some .flush
  | .joins => some .closeEnd
  | _ => none

/-- The section of a call that only looks at the object. -/
def Call.look : Call → DB → Option (Prog World Reply)
  | .get key, db => some do return .value (← db.get key)
  | .newIterator, db => some do return .iterator (← db.newIterator)
  | .getStats, db => some (return .stats db.getStats)
  | _, _ => none

/-- A write that ends well asks the background thread for a flush. -/
def Op.notifies (background : Bool) (s : Status) : Op → Bool
  | .write _ batch => !batch.empty && s.ok && background
  | _ => false

/-- The thread that `Open` starts. -/
def Worker.started (background : Bool) : Option DB → Worker
  | some _ => if background then .tests else .absent
  | none => .absent

/-- One object and its threads. -/
structure Threads (ι : Type) where
  machine : Machine
  worker : Worker
  clients : ι → Client

abbrev History (ι : Type) := List (Mark Call Reply ι)

namespace Threads

variable {ι : Type}

/-- A directory without a process. -/
def start (w : World) : Threads ι := ⟨⟨w, none⟩, .absent, fun _ => .idle⟩

/-- Nobody uses the object, if there is one, and it is closed. -/
structure Free (m : Threads ι) : Prop where
  idle : ∀ i, m.clients i = .idle
  gone : m.worker.Gone
  closed : ∀ db, m.machine.db = some db → db.closed = true

/-- A section of some thread that has not run. -/
def Running (m : Threads ι) : Op → Prop
  | .background => m.worker = .tests
  | .reopen _ => m.Free
  | op => ∃ i, (m.clients i).op = some op ∧ (m.clients i = .joins → m.worker.Gone)

/-- The process ends in a section or between two of them. -/
def Ends (m : Threads ι) : Event → Prop
  | .returned _ _ _ => False
  | .crashed op => m.Running op
  | .killed => True

variable [DecidableEq ι]

/-- The client goes on to another place. -/
def move (m : Threads ι) (i : ι) (k : Client) : ι → Client := Function.update m.clients i k

/-- One step of one thread, and what it adds to the history. -/
inductive Step (E : Env) (A : Machine → Op → Nat → List Fault → Prop) (d : Path) (m : Threads ι) :
    History ι → Nat → Threads ι → Prop where
  | calls {i : ι} {c : Call} {db : DB} (alive : m.machine.db = some db) (idle : m.clients i = .idle)
      (alone : c = .close → ∀ j, m.clients j ≠ .calls .close ∧ m.clients j ≠ .joins) :
      Step E A d m [.call i c] 0 { m with clients := m.move i (.calls c) }
  | looks {i : ι} {c : Call} {db : DB} {look : Prog World Reply} {r : Reply} {w' : World}
      {fs rest : List Fault} {t : Nat} (alive : m.machine.db = some db)
      (pending : m.clients i = .calls c) (looking : c.look db = some look)
      (sure : Env.sure.Admits fs) (run : look m.machine.world fs = .returned r w' rest t) :
      Step E A d m [] t ⟨⟨w', some db⟩, m.worker, m.move i (.returns r)⟩
  | operates {i : ι} {op : Op} {db : DB} {s : Status} {m' : Machine} {t : Nat}
      (alive : m.machine.db = some db) (pending : (m.clients i).op = some op)
      (joined : m.clients i = .joins → m.worker.Gone)
      (run : ClomDB.Step E A d m.machine (.returned op m.machine.accepting s) t m') :
      Step E A d m [] t ⟨m', if op.notifies db.options.backgroundCompaction s
        then m.worker.notified else m.worker, m.move i (.returns (.status s))⟩
  | closes {i : ι} {db : DB} (alive : m.machine.db = some db)
      (pending : m.clients i = .calls .close) (closed : db.closed = true) :
      Step E A d m [] 0 { m with clients := m.move i (.returns (.status .OK)) }
  | begins {i : ι} {db : DB} {s : Status} {m' : Machine} {t : Nat}
      (alive : m.machine.db = some db) (pending : m.clients i = .calls .close)
      (closed : db.closed = false)
      (run : ClomDB.Step E A d m.machine (.returned .closeBegin m.machine.accepting s) t m') :
      Step E A d m [] t ⟨m', m.worker.notified, m.move i .joins⟩
  | returns {i : ι} {r : Reply} (answered : m.clients i = .returns r) :
      Step E A d m [.ret i r] 0 { m with clients := m.move i .idle }
  | exits {db : DB} (alive : m.machine.db = some db) (testing : m.worker = .tests)
      (shut : db.shuttingDown = true) : Step E A d m [] 0 { m with worker := .exited }
  | sleeps {db : DB} (alive : m.machine.db = some db) (testing : m.worker = .tests)
      (running : db.shuttingDown = false) (quiet : db.bgWorkRequested = false) :
      Step E A d m [] 0 { m with worker := .waits }
  | works {db : DB} {s : Status} {m' : Machine} {t : Nat} (alive : m.machine.db = some db)
      (testing : m.worker = .tests) (running : db.shuttingDown = false)
      (requested : db.bgWorkRequested = true)
      (run : ClomDB.Step E A d m.machine (.returned .background m.machine.accepting s) t m') :
      Step E A d m [] t ⟨m', .waits, m.clients⟩
  | wakes (waiting : m.worker = .waits) : Step E A d m [] 0 { m with worker := .tests }
  | opens {options : Options} {s : Status} {m' : Machine} {t : Nat} (free : m.Free)
      (run : ClomDB.Step E A d m.machine (.returned (.reopen options) m.machine.accepting s) t m') :
      Step E A d m [.restart] t
        ⟨m', Worker.started options.backgroundCompaction m'.db, m.clients⟩
  | dies {e : Event} {m' : Machine} {t : Nat} (ends : m.Ends e)
      (run : ClomDB.Step E A d m.machine e t m') :
      Step E A d m [.restart] t ⟨m', .absent, fun _ => .idle⟩

/-- Steps one after the other, with the ticks they have spent. -/
inductive Run (E : Env) (A : Machine → Op → Nat → List Fault → Prop) (d : Path) (m₀ : Threads ι) :
    History ι → Nat → Threads ι → Prop where
  | start : Run E A d m₀ [] 0 m₀
  | step {ks ks' : History ι} {t t' : Nat} {m m' : Threads ι} (run : Run E A d m₀ ks t m)
      (last : Step E A d m ks' t' m') : Run E A d m₀ (ks ++ ks') (t + t') m'

end Threads

section Switches

variable {db db' db'' : DB} {w : World} {b : Nat}

/-- Nothing that another thread reads of the object has changed. -/
structure Still (db db' : DB) : Prop where
  shell : SameShell db db'
  requested : db'.bgWorkRequested = db.bgWorkRequested

theorem Still.refl (db : DB) : Still db db := ⟨SameShell.refl db, rfl⟩

theorem Still.trans (h : Still db db') (h' : Still db' db'') : Still db db'' :=
  ⟨h.shell.trans h'.shell, h'.requested.trans h.requested⟩

theorem Stays.still (h : Stays db db') : Still db db' := ⟨h.keeps.shell, h.requested⟩

theorem still_rotateWal (db : DB) (w : World) (b : Nat) :
    wp Env.hostile db.rotateWal (fun r _ _ => Still db r.2) (fun _ _ => True) w b := by
  rw [rotateWal]
  cases db.wal with
  | none => exact wp_abort trivial
  | some log =>
      have hwal : ∀ wal, Still db { db with wal := wal } := fun _ => ⟨⟨rfl, rfl, rfl, rfl⟩, rfl⟩
      exact wp_any fun r w b => wp_ite (fun _ => wp_pure (hwal _)) fun _ =>
        wp_any fun _ w b => wp_any fun r w b => wp_pure (hwal _)

theorem still_flushMemTableLocked (db : DB) (w : World) (b : Nat) :
    wp Env.hostile db.flushMemTableLocked (fun r _ _ => Still db r.2) (fun _ _ => True) w b := by
  rw [flushMemTableLocked]
  refine wp_ite (fun _ => wp_pure (Still.refl db)) fun _ => ?_
  refine wp_then (effects_buildTable rfl _ _ w b) ?_ fun _ _ _ => trivial
  rintro ⟨built, db₁⟩ w₁ b₁ ⟨-, hbuilt⟩
  have h₁ : Still db db₁ := hbuilt.still
  cases built with
  | error s => exact wp_pure h₁
  | ok p =>
      obtain ⟨fm, reader⟩ := p
      have hadded : ∀ memtable version readers, Still db
          { db₁ with memtable := memtable, version := version, openReaders := readers } :=
        fun _ _ _ => h₁.trans ⟨⟨rfl, rfl, rfl, rfl⟩, rfl⟩
      refine wp_any fun s w b => wp_ite (fun _ => wp_pure (hadded _ _ _)) fun _ => ?_
      exact wp_mono (still_rotateWal _ w b) (fun _ _ _ h => (hadded _ _ _).trans h) fun _ _ => id

theorem still_compactionLoop (fuel : Nat) (db : DB) (w : World) (b : Nat) :
    wp Env.hostile (compactionLoop fuel db) (fun r _ _ => Still db r.2) (fun _ _ => True) w b :=
  wp_mono (effects_compactionLoop rfl fuel w b) (fun _ _ _ h => h.2.still) fun _ _ _ => trivial

theorem still_flush (fuel : Nat) (db : DB) (w : World) (b : Nat) :
    wp Env.hostile (db.flush fuel) (fun r _ _ => Still db r.2) (fun _ _ => True) w b := by
  rw [DB.flush]
  refine wp_then (still_flushMemTableLocked db w b) (fun r w b h => ?_) fun _ _ => id
  exact wp_ite (fun _ => wp_pure h) fun _ =>
    wp_mono (still_compactionLoop fuel _ w b) (fun _ _ _ h' => h.trans h') fun _ _ => id

/-- A background iteration takes the request, if it finds one. -/
theorem still_backgroundIteration (fuel : Nat) (w : World) (b : Nat)
    (hrunning : db.shuttingDown = false) (hrequested : db.bgWorkRequested = true) :
    wp Env.hostile (db.backgroundIteration fuel)
      (fun db' _ _ => Still { db with bgWorkRequested := false } db') (fun _ _ => True) w b := by
  rw [backgroundIteration, if_neg (by simp [hrunning, hrequested])]
  exact wp_then (still_flush fuel _ w b) (fun _ _ _ h => wp_pure h) fun _ _ => id

/-- What a section of a client leaves of the object. -/
structure Turns (op : Op) (s : Status) (db db' : DB) : Prop where
  options : db'.options = db.options
  shuttingDown : db'.shuttingDown = db.shuttingDown
  closed : db'.closed = db.closed ∨ op = .closeEnd
  requested : db'.bgWorkRequested = db.bgWorkRequested ∨
    op.notifies db.options.backgroundCompaction s = true

theorem Still.turns (h : Still db db') (op : Op) (s : Status) : Turns op s db db' :=
  ⟨h.shell.options, h.shell.shuttingDown, Or.inl h.shell.closed, Or.inl h.requested⟩

theorem turns_write (fuel : Nat) (opts : WriteOptions) (batch : WriteBatch) (db : DB) (w : World)
    (b : Nat) : wp Env.hostile (db.write fuel opts batch)
      (fun r _ _ => Turns (.write opts batch) r.1 db r.2) (fun _ _ => True) w b := by
  have hstill : ∀ {s} db', Still db db' → Turns (.write opts batch) s db db' := fun _ h => h.turns _ _
  rw [DB.write]
  refine wp_ite (fun _ => wp_pure (hstill _ (Still.refl db))) fun hne =>
    wp_ite (fun _ => wp_pure (hstill _ (Still.refl db))) fun _ => ?_
  cases db.wal with
  | none => exact wp_abort trivial
  | some log =>
      have happlied : ∀ log, Still db (DB.applied { db with wal := log } batch) :=
        fun _ => ⟨⟨rfl, rfl, rfl, rfl⟩, rfl⟩
      simp only [applyBatchLocked_eq]
      refine wp_any fun r w b => wp_ite (fun _ => wp_pure ?_) fun _ => ?_
      · exact hstill _ ⟨⟨rfl, rfl, rfl, rfl⟩, rfl⟩
      refine wp_ite (fun _ => wp_pure (hstill _ (happlied _))) fun hok =>
        wp_ite (fun hbackground => wp_pure ?_) fun _ => ?_
      · refine ⟨rfl, rfl, Or.inl rfl, Or.inr ?_⟩
        have hbg : db.options.backgroundCompaction = true := hbackground
        simp only [Bool.not_eq_true', Bool.not_eq_false] at hok
        simp only [Op.notifies, hbg, Bool.and_true, Bool.and_eq_true, Bool.not_eq_true']
        exact ⟨by simpa using hne, hok⟩
      · rw [maybeFlushLocked]
        refine wp_ite (fun _ => ?_) fun _ => ?_
        · exact wp_mono (still_flush fuel _ w b) (fun _ _ _ h => hstill _ ((happlied _).trans h))
            fun _ _ => id
        · exact wp_mono (still_compactionLoop fuel _ w b)
            (fun _ _ _ h => hstill _ ((happlied _).trans h)) fun _ _ => id

theorem turns_closeEnd (db : DB) (s : Status) (w : World) (b : Nat) :
    wp Env.hostile db.closeEnd (fun r _ _ => Turns .closeEnd s db r.2) (fun _ _ => True) w b := by
  rw [closeEnd]
  refine wp_then (still_flushMemTableLocked db w b) ?_ fun _ _ => id
  rintro ⟨s₁, db₁⟩ w₁ b₁ h
  have hclosed : ∀ wal, Turns .closeEnd s db { db₁ with wal := wal, closed := true } := fun _ =>
    ⟨h.shell.options, h.shell.shuttingDown, Or.inr rfl, Or.inl h.requested⟩
  cases hwal : db₁.wal with
  | none =>
      simp only [hwal]
      refine wp_any fun _ w b => wp_pure ?_
      rw [← hwal]
      exact hclosed db₁.wal
  | some log =>
      simp only [hwal]
      exact wp_any fun _ w b => wp_any fun _ w b => wp_pure (hclosed _)

variable {E : Env} {A : Machine → Op → Nat → List Fault → Prop} {d : Path} {m m' : Machine}
  {op : Op} {s : Status} {accepting : Bool} {t : Nat}

/-- A section of a client that has returned. -/
theorem Step.turns (hs : Step E A d m (.returned op accepting s) t m') (hdb : m.db = some db)
    {k : Client} (hk : k.op = some op) : ∃ db', m'.db = some db' ∧ Turns op s db db' := by
  cases hs with
  | @returned op fuel fs rest s db? w' t admits allowed run =>
  have hof : ∀ {c : Prog World (Status × DB)} {r : Status × Option DB},
      wp Env.hostile c (fun r _ _ => Turns op r.1 db r.2) (fun _ _ => True) m.world t →
      (c >>= fun r => pure (r.1, some r.2)) m.world fs = .returned r w' rest t →
      ∃ db', r.2 = some db' ∧ Turns op r.1 db db' := by
    intro c r hc hr
    have hsome : wp Env.hostile (c >>= fun r => pure (r.1, some r.2))
        (fun r _ _ => ∃ db', r.2 = some db' ∧ Turns op r.1 db db') (fun _ _ => True) m.world t :=
      wp_then hc (fun r _ _ h => wp_pure ⟨r.2, rfl, h⟩) fun _ _ => id
    exact hsome.of_returned (Env.hostile_admits fs) hr (Nat.le_refl t)
  rw [hdb] at run
  cases k with
  | idle => cases hk
  | returns => cases hk
  | joins =>
      obtain rfl := Option.some.inj hk
      rw [Op.prog] at run
      split at run
      · exact hof (wp_mono (turns_closeEnd db s _ _) (fun r _ _ h => ⟨h.options, h.shuttingDown,
          h.closed, Or.inl (h.requested.resolve_right (by simp [Op.notifies]))⟩) fun _ _ => id) run
      · cases run
        exact ⟨db, rfl, (Still.refl db).turns _ _⟩
  | calls c =>
      cases c with
      | write opts batch =>
          obtain rfl := Option.some.inj hk
          exact hof (turns_write fuel opts batch db _ _) run
      | flush =>
          obtain rfl := Option.some.inj hk
          exact hof (wp_mono (still_flush fuel db _ _) (fun _ _ _ h => h.turns _ _) fun _ _ => id) run
      | _ => cases hk

/-- An iteration of the background thread that has returned. -/
theorem Step.worked (hs : Step E A d m (.returned .background accepting s) t m')
    (hdb : m.db = some db) (hrunning : db.shuttingDown = false)
    (hrequested : db.bgWorkRequested = true) :
    ∃ db', m'.db = some db' ∧ Still { db with bgWorkRequested := false } db' := by
  cases hs with
  | @returned op fuel fs rest s db? w' t admits allowed run =>
  rw [hdb] at run
  have hwp : wp Env.hostile (Op.prog fuel d .background (some db))
      (fun r _ _ => ∃ db', r.2 = some db' ∧ Still { db with bgWorkRequested := false } db')
      (fun _ _ => True) m.world t :=
    wp_then (still_backgroundIteration fuel _ _ hrunning hrequested)
      (fun db' _ _ h => wp_pure ⟨db', rfl, h⟩) fun _ _ => id
  exact hwp.of_returned (Env.hostile_admits fs) run (Nat.le_refl t)

/-- The first section of `Close` only sets the switch. -/
theorem Step.begun (hs : Step E A d m (.returned .closeBegin accepting s) t m')
    (hdb : m.db = some db) (hopen : db.closed = false) :
    m' = ⟨m.world, some { db with shuttingDown := true }⟩ := by
  cases hs with
  | @returned op fuel fs rest s db? w' t admits allowed run =>
  rw [hdb, Op.prog, closeBegin, if_neg (by rw [hopen]; simp)] at run
  cases run
  rfl

/-- What `Open` has returned. -/
theorem Step.opened {options : Options}
    (hs : Step E A d m (.returned (.reopen options) accepting s) t m')
    (hfree : ∀ db, m.db = some db → db.closed = true) (hdb : m'.db = some db) :
    db.Opened d options := by
  cases hs with
  | @returned op fuel fs rest s db? w' t admits allowed run =>
  have hrun : openObject d options m.world fs = .returned (s, db?) w' rest t := by
    cases hm : m.db with
    | none => rwa [hm] at run
    | some db₀ => rwa [hm, Op.prog, if_pos (hfree db₀ hm)] at run
  exact ((@wp_openObject_carries m.world t d options).of_returned (Env.hostile_admits fs) hrun
    (Nat.le_refl t)).2 db hdb |>.2.1

end Switches

section Order

variable {db db' : DB} {k : Worker}

/-- The background thread and the switches of its object. -/
structure Worker.Minds (k : Worker) (db : DB) : Prop where
  asleep : k = .waits → db.shuttingDown = false ∧ db.bgWorkRequested = false
  exited : k = .exited → db.shuttingDown = true
  staffed : k = .absent ↔ db.options.backgroundCompaction = false
  asked : db.bgWorkRequested = true → db.options.backgroundCompaction = true
  closed : db.closed = true → k.Gone

theorem Worker.Gone.notified (h : k.Gone) : k.notified = k := by
  cases k with
  | absent | exited => rfl
  | tests | waits => exact h.elim

theorem Worker.notified_eq_absent : k.notified = .absent ↔ k = .absent := by
  cases k <;> simp [Worker.notified]

theorem Worker.notified_eq_exited : k.notified = .exited ↔ k = .exited := by
  cases k <;> simp [Worker.notified]

theorem Worker.notified_ne_waits : k.notified ≠ .waits := by
  cases k <;> simp [Worker.notified]

/-- A section of a client wakes the thread up if it asks for something. -/
theorem Worker.Minds.turns {op : Op} {s : Status} (h : k.Minds db) (hturns : Turns op s db db')
    (hgone : op = .closeEnd → k.Gone) :
    (if op.notifies db.options.backgroundCompaction s then k.notified else k).Minds db' := by
  have hasked : op.notifies db.options.backgroundCompaction s = true →
      db.options.backgroundCompaction = true := by
    cases op with
    | write opts batch => exact fun h => (Bool.and_eq_true _ _ ▸ h).2
    | _ => exact fun h => by cases h
  have hclosed : db'.closed = true → k.Gone := fun hc => by
    rcases hturns.closed with heq | hend
    · exact h.closed (heq ▸ hc)
    · exact hgone hend
  split
  next hnotifies =>
    refine ⟨fun hw => absurd hw Worker.notified_ne_waits, fun he => ?_, ?_, fun _ => ?_, fun hc => ?_⟩
    · rw [hturns.shuttingDown]
      exact h.exited (Worker.notified_eq_exited.mp he)
    · rw [Worker.notified_eq_absent, hturns.options]
      exact h.staffed
    · rw [hturns.options]
      exact hasked hnotifies
    · rw [(hclosed hc).notified]
      exact hclosed hc
  next hquiet =>
    have hrequested := hturns.requested.resolve_right hquiet
    refine ⟨?_, ?_, ?_, ?_, hclosed⟩
    · rw [hturns.shuttingDown, hrequested]
      exact h.asleep
    · rw [hturns.shuttingDown]
      exact h.exited
    · rw [hturns.options]
      exact h.staffed
    · rw [hturns.options, hrequested]
      exact h.asked

/-- The first section of `Close` wakes the thread up. -/
theorem Worker.Minds.begin (h : k.Minds db) (hopen : db.closed = false) :
    k.notified.Minds { db with shuttingDown := true } :=
  ⟨fun hw => absurd hw Worker.notified_ne_waits, fun _ => rfl,
    Worker.notified_eq_absent.trans h.staffed, h.asked, fun hc => by
      rw [show db.closed = true from hc] at hopen
      cases hopen⟩

/-- A thread that is there may be anywhere that the switches let it be. -/
theorem Worker.Minds.goes {k' : Worker} (h : k.Minds db) (hthere : k ≠ .absent)
    (hthere' : k' ≠ .absent) (hasleep : k' = .waits → db.shuttingDown = false ∧
      db.bgWorkRequested = false) (hexited : k' = .exited → db.shuttingDown = true)
    (hclosed : db.closed = true → k'.Gone) : k'.Minds db :=
  ⟨hasleep, hexited, ⟨fun h' => absurd h' hthere', fun hb => absurd (h.staffed.mpr hb) hthere⟩,
    h.asked, hclosed⟩

/-- After an iteration nothing is requested. -/
theorem Worker.Minds.works (h : k.Minds db) (htests : k = .tests) (hrunning : db.shuttingDown = false)
    (hstill : Still { db with bgWorkRequested := false } db') : Worker.waits.Minds db' := by
  have hrequested : db'.bgWorkRequested = false := hstill.requested
  have hthere : db.options.backgroundCompaction ≠ false := fun hb => by
    have habsent := h.staffed.mpr hb
    rw [htests] at habsent
    cases habsent
  refine ⟨fun _ => ⟨hstill.shell.shuttingDown.trans hrunning, hrequested⟩, fun he => (by cases he),
    ⟨fun ha => (by cases ha), fun hb => ?_⟩, fun hr => ?_, fun hc => ?_⟩
  · rw [hstill.shell.options] at hb
    exact absurd hb hthere
  · rw [hrequested] at hr
    cases hr
  · have hgone := h.closed (hstill.shell.closed ▸ hc)
    rw [htests] at hgone
    exact hgone.elim

theorem Worker.Minds.started {d : Path} {options : Options} (h : db.Opened d options) :
    (Worker.started options.backgroundCompaction (some db)).Minds db := by
  rw [Worker.started, ← h.options]
  have hopen : db.closed ≠ true := by rw [h.closed]; simp
  have hquiet : db.bgWorkRequested ≠ true := by rw [h.requested]; simp
  cases hb : db.options.backgroundCompaction with
  | true =>
      exact ⟨fun hw => (by cases hw), fun he => (by cases he), by simp [hb], fun _ => hb,
        fun hc => absurd hc hopen⟩
  | false =>
      exact ⟨fun hw => (by cases hw), fun he => (by cases he), by simp [hb],
        fun hr => absurd hr hquiet, fun _ => trivial⟩

end Order

namespace Threads

variable {ι : Type}

/-- A call of `Close` that has not returned. -/
def Closing (k : Client) : Prop := k = .calls .close ∨ k = .joins

/-- The invariant of the threads: the background thread minds the switches, a `Close`
that joins has set one, and no two of them overlap. -/
structure Orderly (m : Threads ι) : Prop where
  minds : ∀ db, m.machine.db = some db → m.worker.Minds db
  dead : m.machine.db = none → m.worker = .absent ∧ ∀ i, m.clients i = .idle
  joining : ∀ i db, m.clients i = .joins → m.machine.db = some db →
    db.shuttingDown = true ∧ db.closed = false
  alone : ∀ i j, Closing (m.clients i) → Closing (m.clients j) → i = j

theorem orderly_start (w : World) : (start w : Threads ι).Orderly :=
  ⟨fun _ h => (by cases h), fun _ => ⟨rfl, fun _ => rfl⟩, fun _ _ h => (by cases h),
    fun _ _ h => (by rcases h with h | h <;> cases h)⟩

/-- Only the background thread moves. -/
theorem Orderly.worker {m : Threads ι} {worker : Worker} {db : DB} (h : m.Orderly) (hdb : m.machine.db = some db)
    (hminds : worker.Minds db) : Orderly { m with worker := worker } := by
  refine ⟨fun db₁ h₁ => ?_, fun hnone => ?_, h.joining, h.alone⟩
  · obtain rfl := Option.some.inj (hdb.symm.trans h₁)
    exact hminds
  · rw [show m.machine.db = none from hnone] at hdb
    cases hdb

variable [DecidableEq ι] {m m' : Threads ι} {i j : ι} {k : Client}

theorem move_self : m.move i k i = k := Function.update_self ..

theorem move_of_ne (h : j ≠ i) : m.move i k j = m.clients j := Function.update_of_ne h ..

/-- A client that is found somewhere has gone there, or it was there. -/
theorem move_cases (m : Threads ι) (i j : ι) (k : Client) :
    j = i ∧ m.move i k j = k ∨ j ≠ i ∧ m.move i k j = m.clients j := by
  by_cases h : j = i
  · subst h
    exact Or.inl ⟨rfl, move_self⟩
  · exact Or.inr ⟨h, move_of_ne h⟩

/-- Closing calls stay alone when a client moves that is one of them or does not
become one. -/
theorem Orderly.alone_move (h : m.Orderly) (hk : Closing k → Closing (m.clients i)) (a b : ι)
    (ha : Closing (m.move i k a)) (hb : Closing (m.move i k b)) : a = b := by
  have hwas : ∀ j, Closing (m.move i k j) → Closing (m.clients j) := by
    intro j hj
    rcases move_cases m i j k with ⟨rfl, heq⟩ | ⟨-, heq⟩
    · exact hk (heq ▸ hj)
    · exact heq ▸ hj
  exact h.alone a b (hwas a ha) (hwas b hb)

theorem not_closing_returns {r : Reply} : ¬Closing (.returns r) := by
  rintro (h | h) <;> cases h

/-- A client moves and the object may turn, but not under a `Close` that joins. -/
theorem Orderly.moved {machine : Machine} {worker : Worker} {db db' : DB} (h : m.Orderly)
    (hdb : m.machine.db = some db) (hdb' : machine.db = some db') (hminds : worker.Minds db')
    (hk : Closing k → Closing (m.clients i)) (hjoins : k ≠ .joins)
    (hothers : ∀ j, j ≠ i → m.clients j = .joins →
      db'.shuttingDown = db.shuttingDown ∧ db'.closed = db.closed) :
    Orderly ⟨machine, worker, m.move i k⟩ := by
  refine ⟨fun db₁ h₁ => ?_, fun hnone => ?_, fun j db₁ hj h₁ => ?_, h.alone_move hk⟩
  · obtain rfl := Option.some.inj (hdb'.symm.trans h₁)
    exact hminds
  · rw [show machine.db = none from hnone] at hdb'
    cases hdb'
  · obtain rfl := Option.some.inj (hdb'.symm.trans h₁)
    rcases move_cases m i j k with ⟨rfl, heq⟩ | ⟨hne, heq⟩
    · exact absurd (heq.symm.trans hj) hjoins
    · have hj' := heq.symm.trans hj
      obtain ⟨hshut, hclosed⟩ := hothers j hne hj'
      rw [hshut, hclosed]
      exact h.joining j db hj' hdb

variable {E : Env} {A : Machine → Op → Nat → List Fault → Prop} {d : Path} {ks : History ι} {t : Nat}

theorem Step.orderly (hs : Step E A d m ks t m') (h : m.Orderly) : m'.Orderly := by
  cases hs with
  | @calls i c db alive idle alone =>
      refine ⟨h.minds, fun hnone => ?_, fun j db hj hdb => ?_, fun a b ha hb => ?_⟩
      · rw [show m.machine.db = none from hnone] at alive
        cases alive
      · rcases move_cases m i j (.calls c) with ⟨rfl, heq⟩ | ⟨-, heq⟩
        · cases heq.symm.trans hj
        · exact h.joining j db (heq.symm.trans hj) hdb
      · -- a `Close` is called only where nobody else is in one
        have hcase : ∀ j, Closing (m.move i (.calls c) j) →
            j = i ∧ c = .close ∨ j ≠ i ∧ Closing (m.clients j) := by
          intro j hj
          rcases move_cases m i j (.calls c) with ⟨rfl, heq⟩ | ⟨hne, heq⟩
          · rw [heq] at hj
            rcases hj with hj | hj
            · exact Or.inl ⟨rfl, Client.calls.inj hj⟩
            · cases hj
          · exact Or.inr ⟨hne, heq ▸ hj⟩
        have hno : ∀ j, c = .close → ¬Closing (m.clients j) := fun j hc hj =>
          hj.elim (alone hc j).1 (alone hc j).2
        rcases hcase a ha with ⟨rfl, hc⟩ | ⟨-, ha'⟩
        · rcases hcase b hb with ⟨rfl, -⟩ | ⟨-, hb'⟩
          · rfl
          · exact absurd hb' (hno b hc)
        · rcases hcase b hb with ⟨rfl, hc⟩ | ⟨-, hb'⟩
          · exact absurd ha' (hno a hc)
          · exact h.alone a b ha' hb'
  | looks alive pending looking sure run =>
      exact h.moved alive rfl (h.minds _ alive) (fun hk => absurd hk not_closing_returns)
        (by simp) fun _ _ _ => ⟨rfl, rfl⟩
  | @operates i op db s m' t alive pending joined run =>
      obtain ⟨db', hdb', hturns⟩ := run.turns alive pending
      have hend : op = .closeEnd → m.clients i = .joins := by
        rintro rfl
        cases hk : m.clients i with
        | joins => rfl
        | calls c =>
            rw [hk] at pending
            cases c <;> cases pending
        | idle | returns =>
            rw [hk] at pending
            cases pending
      refine h.moved alive hdb' ((h.minds _ alive).turns hturns fun hop => joined (hend hop))
        (fun hk => absurd hk not_closing_returns) (by simp) fun j hne hj => ⟨hturns.shuttingDown, ?_⟩
      exact hturns.closed.resolve_right fun hop =>
        hne (h.alone j i (Or.inr hj) (Or.inr (hend hop)))
  | closes alive pending closed =>
      exact h.moved alive alive (h.minds _ alive) (fun hk => absurd hk not_closing_returns)
        (by simp) fun _ _ _ => ⟨rfl, rfl⟩
  | @begins i db s m' t alive pending closed run =>
      obtain rfl := run.begun alive closed
      refine ⟨fun db₁ h₁ => ?_, fun hnone => (by cases hnone), fun j db₁ hj h₁ => ?_,
        h.alone_move fun _ => Or.inl pending⟩
      · cases h₁
        exact (h.minds _ alive).begin closed
      · cases h₁
        exact ⟨rfl, closed⟩
  | @returns i r answered =>
      refine ⟨h.minds, fun hnone => ⟨(h.dead hnone).1, fun j => ?_⟩, fun j db hj hdb => ?_,
        h.alone_move fun hk => ?_⟩
      · rcases move_cases m i j .idle with ⟨-, heq⟩ | ⟨-, heq⟩
        · exact heq
        · exact heq.trans ((h.dead hnone).2 j)
      · rcases move_cases m i j .idle with ⟨-, heq⟩ | ⟨-, heq⟩
        · cases heq.symm.trans hj
        · exact h.joining j db (heq.symm.trans hj) hdb
      · rcases hk with hk | hk <;> cases hk
  | @exits db alive testing shut =>
      have hthere : m.worker ≠ .absent := by rw [testing]; simp
      exact h.worker alive ((h.minds _ alive).goes hthere (by simp) (by simp) (fun _ => shut)
        fun _ => trivial)
  | @sleeps db alive testing running quiet =>
      have hthere : m.worker ≠ .absent := by rw [testing]; simp
      refine h.worker alive ((h.minds _ alive).goes hthere (by simp) (fun _ => ⟨running, quiet⟩)
        (by simp) fun hc => ?_)
      have hgone := (h.minds _ alive).closed hc
      rw [testing] at hgone
      exact hgone.elim
  | @works db s m' t alive testing running requested run =>
      obtain ⟨db', hdb', hstill⟩ := run.worked alive running requested
      refine ⟨fun db₁ h₁ => ?_, fun hnone => ?_, fun j db₁ hj h₁ => ?_, h.alone⟩
      · obtain rfl := Option.some.inj (hdb'.symm.trans h₁)
        exact (h.minds _ alive).works testing running hstill
      · rw [show m'.db = none from hnone] at hdb'
        cases hdb'
      · obtain rfl := Option.some.inj (hdb'.symm.trans h₁)
        rw [hstill.shell.shuttingDown, hstill.shell.closed]
        exact h.joining j db hj alive
  | wakes waiting =>
      cases hdb : m.machine.db with
      | none =>
          rw [(h.dead hdb).1] at waiting
          cases waiting
      | some db =>
          have hthere : m.worker ≠ .absent := by rw [waiting]; simp
          refine h.worker hdb ((h.minds _ hdb).goes hthere (by simp) (by simp) (by simp) fun hc => ?_)
          have hgone := (h.minds _ hdb).closed hc
          rw [waiting] at hgone
          exact hgone.elim
  | @opens options s m' t free run =>
      have hidle : ∀ i, m.clients i = .idle := free.idle
      refine ⟨fun db hdb => ?_, fun hnone => ?_, fun i db hi _ => ?_, fun i j hi _ => ?_⟩
      · rw [show m'.db = some db from hdb]
        exact Worker.Minds.started (run.opened free.closed hdb)
      · rw [show m'.db = none from hnone]
        exact ⟨rfl, hidle⟩
      · cases (hidle i).symm.trans hi
      · rcases hi with hi | hi <;> cases (hidle i).symm.trans hi
  | @dies e m' t ends run =>
      have hnone : m'.db = none := by
        cases run with
        | returned => exact ends.elim
        | crashed => rfl
        | killed => rfl
      refine ⟨fun db hdb => ?_, fun _ => ⟨rfl, fun _ => rfl⟩, fun _ _ hi => (by cases hi),
        fun _ _ hi => (by rcases hi with hi | hi <;> cases hi)⟩
      rw [show m'.db = some db from hdb] at hnone
      cases hnone

theorem Run.orderly {m₀ : Threads ι} (hr : Run E A d m₀ ks t m) (h : m₀.Orderly) : m.Orderly := by
  induction hr with
  | start => exact h
  | step run last ih => exact last.orderly ih

/-- In every state that threads reach, whatever has failed and whoever has died, the
invariant holds. The background thread never sleeps through a request. -/
theorem no_lost_wakeup {w : World} (hr : Run E A d (start w) ks t m) : m.Orderly ∧
    ∀ db, m.machine.db = some db → db.shuttingDown = false → db.bgWorkRequested = true →
      m.worker = .tests := by
  have horderly := hr.orderly (orderly_start w)
  refine ⟨horderly, fun db hdb hrunning hrequested => ?_⟩
  have hminds := horderly.minds db hdb
  cases hw : m.worker with
  | tests => rfl
  | waits =>
      have hquiet := (hminds.asleep hw).2
      rw [hrequested] at hquiet
      cases hquiet
  | exited =>
      have hshut := hminds.exited hw
      rw [hrunning] at hshut
      cases hshut
  | absent =>
      have hbackground := hminds.asked hrequested
      rw [hminds.staffed.mp hw] at hbackground
      cases hbackground

/-- A new database and the thread that `Open` has started. -/
theorem opened_run {A : Machine → Op → Nat → List Fault → Prop}
    (hA : A ⟨⟨false, ∅⟩, none⟩ (.reopen {}) 16 []) : ∃ t w db, Run Env.hostile A [0x64]
      (start ⟨false, ∅⟩ : Threads ι) [.restart] t ⟨⟨w, some db⟩, .tests, fun _ => .idle⟩ ∧
        db.Opened [0x64] {} := by
  have h : ((Op.prog 16 [0x64] (.reopen {}) none ⟨false, ∅⟩ []).value.any fun r => r.2.isSome) =
      true := by decide +kernel
  obtain ⟨⟨s, db?⟩, hvalue, hsome⟩ := (Option.any_eq_true ..).mp h
  obtain ⟨db, rfl⟩ := Option.isSome_iff_exists.mp hsome
  obtain ⟨w, rest, t, hrun⟩ := Outcome.value_eq_some hvalue
  have hstep : ClomDB.Step Env.hostile A [0x64] ⟨⟨false, ∅⟩, none⟩
      (.returned (.reopen {}) false s) t ⟨w, some db⟩ := .returned (Env.admits_nil _) hA hrun
  have hfree : (start ⟨false, ∅⟩ : Threads ι).Free :=
    ⟨fun _ => rfl, trivial, fun db hdb => (by cases hdb)⟩
  have hfirst := Run.start.step (Step.opens hfree hstep)
  exact ⟨_, w, db, hfirst, hstep.opened (fun db hdb => (by cases hdb)) rfl⟩

/-- A `Close` has set the switch and joins the background thread. -/
theorem joining_run : ∃ ks t m db, Run Env.hostile ClomDB.Free [0x64]
    (start ⟨false, ∅⟩ : Threads Bool) ks t m ∧ m.machine.db = some db ∧ db.shuttingDown = true ∧
      m.worker = .tests ∧ m.clients true = .joins := by
  obtain ⟨t, w, db, hopened, hdb⟩ := @opened_run Bool _ ClomDB.Free trivial
  have hcalled := hopened.step (@Step.calls _ _ _ _ _ _ true .close _ rfl rfl fun _ _ => by simp)
  have hrun : Op.prog 16 [0x64] .closeBegin (some db) w [] =
      .returned (.OK, some db.closeBegin) w [] 0 := rfl
  have hbegun := hcalled.step (Step.begins rfl move_self hdb.closed
    (.returned (Env.admits_nil _) trivial hrun))
  refine ⟨_, _, _, db.closeBegin, hbegun, rfl, ?_, rfl, ?_⟩
  · rw [closeBegin, if_neg (by rw [hdb.closed]; simp)]
  · simp only [move, Function.update_self]

theorem no_lost_wakeup_joining : ∃ ks t m, Run Env.hostile ClomDB.Free [0x64]
    (start ⟨false, ∅⟩ : Threads Bool) ks t m ∧ m.clients true = .joins ∧ m.Orderly := by
  obtain ⟨ks, t, m, db, hr, -, -, -, hjoins⟩ := joining_run
  exact ⟨ks, t, m, hr, hjoins, (no_lost_wakeup hr).1⟩

end Threads

end ClomDB
