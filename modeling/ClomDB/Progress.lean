import ClomDB.Endings
import ClomDB.Threads
import Mathlib.Algebra.BigOperators.Group.Finset.Basic
import Mathlib.Algebra.Order.BigOperators.Group.Finset
import Mathlib.Data.Fintype.BigOperators

/-!
# Calls return

No thread waits for another one without end. As long as nobody calls a method
anew and the background thread is not woken up without a cause, the threads take
a bounded number of steps, and the last of them leaves every client with its
reply, unless a section ends the process.

## Implementation notes

Each step lowers a weight. A call weighs more than its section may put on the
background thread.
-/

namespace ClomDB

open FaultProgram FileSystem FileSystem.World SSTable DB WriteAheadLog SharedObject Prog

section Sections

variable {db : DB} {d : Path} {w : World} {op : Op} {k : Client}

theorem ends_addRecord (log : WriteAheadLog) (data : Bytes) (sync : Bool) :
    Ends (log.addRecord data sync) := by
  rw [WriteAheadLog.addRecord]
  split
  · exact ends_pure _
  · refine ends_callIf.bind fun r => Ends.ite (ends_pure _) (Ends.ite ?_
      (ends_callIf.bind fun _ => Ends.ite (ends_pure _) (ends_pure _)))
    rw [WriteAheadLog.sync]
    split
    · exact ends_pure _
    · exact ends_callIf.bind fun _ => Ends.ite (ends_pure _) (ends_callIf.bind fun _ =>
        Ends.ite (ends_pure _) (ends_pure _))

/-- With a positive trigger a write ends, with 15 compactions at most. -/
theorem ends_write (htrigger : 1 ≤ db.options.l0CompactionTrigger) (opts : WriteOptions)
    (batch : WriteBatch) : Ends (db.write 16 opts batch) := by
  rw [DB.write]
  refine Ends.ite (ends_pure _) (Ends.ite (ends_pure _) ?_)
  cases db.wal with
  | none => exact ends_abort
  | some log =>
      simp only [applyBatchLocked_eq]
      refine (ends_addRecord log _ _).bind fun r => Ends.ite (ends_pure _) (Ends.ite (ends_pure _)
        (Ends.ite (ends_pure _) ?_))
      rw [maybeFlushLocked]
      exact Ends.ite (ends_flush htrigger (by omega))
        (ends_compactionLoop htrigger (Nat.lt_of_le_of_lt (emptyWeight_le _) (by omega)))

theorem ends_closeEnd (db : DB) : Ends db.closeEnd := by
  rw [closeEnd]
  refine (ends_flushMemTableLocked db).bind fun r => ?_
  obtain ⟨s, db₁⟩ := r
  cases hwal : db₁.wal with
  | none =>
      simp only [hwal]
      exact (ends_saveVersion _ _).bind fun _ => ends_pure _
  | some log =>
      simp only [hwal]
      exact (ends_closeWal log).bind fun _ => (ends_saveVersion _ _).bind fun _ => ends_pure _

/-- The section of a client ends. -/
theorem Client.ends_op (hk : k.op = some op) (htrigger : 1 ≤ db.options.l0CompactionTrigger) :
    Ends (op.prog 16 d (some db)) := by
  cases k with
  | idle => cases hk
  | returns => cases hk
  | joins =>
      obtain rfl := Option.some.inj hk
      exact Ends.ite ((ends_closeEnd db).bind fun _ => ends_pure _) (ends_pure _)
  | calls c =>
      cases c with
      | write opts batch =>
          obtain rfl := Option.some.inj hk
          exact (ends_write htrigger opts batch).bind fun _ => ends_pure _
      | flush =>
          obtain rfl := Option.some.inj hk
          exact (ends_flush htrigger (by omega)).bind fun _ => ends_pure _
      | _ => cases hk

/-- A section that only looks returns, and it leaves the files alone. -/
theorem Call.look_returns {c : Call} {look : Prog World Reply} (hlook : c.look db = some look)
    (w : World) {fs : List Fault} (hfs : ∀ n, Fault.crash n ∉ fs) :
    ∃ r rest, look w fs = .returned r w rest 0 := by
  cases c with
  | get key =>
      obtain rfl := Option.some.inj hlook
      cases hclosed : db.closed with
      | true =>
          refine ⟨.value (.error (.invalidArgument [.lit "DB is closed"])), fs, ?_⟩
          rw [DB.get, if_pos hclosed]
          rfl
      | false =>
          obtain ⟨rest, -, hr⟩ := get_returns (w := w) hclosed hfs key
          exact ⟨_, rest, Prog.bind_of_returned hr⟩
  | newIterator =>
      obtain rfl := Option.some.inj hlook
      obtain ⟨snapshot, rest, -, hr, -⟩ := newIterator_returns db w hfs
      exact ⟨_, rest, Prog.bind_of_returned hr⟩
  | getStats =>
      obtain rfl := Option.some.inj hlook
      exact ⟨_, fs, rfl⟩
  | _ => cases hlook

end Sections

def Client.weight : Client → Nat
  | .idle => 0
  | .calls _ => 4
  | .joins => 2
  | .returns _ => 1

def Worker.weight (k : Worker) : Nat := if k = .tests then 1 else 0

theorem Worker.weight_le (k : Worker) : k.weight ≤ 1 := by
  rw [Worker.weight]
  split <;> omega

namespace Threads

variable {ι : Type} [DecidableEq ι]

/-- A thread goes on. The step is no call, no restart and no wake-up that nobody
has caused. -/
structure Advances (E : Env) (A : Machine → Op → Nat → List Fault → Prop) (d : Path)
    (m m' : Threads ι) : Prop where
  step : ∃ ks t, Step E A d m ks t m' ∧ ∀ k ∈ ks, ∃ i r, k = .ret i r
  caused : m.worker = .waits → m'.clients ≠ m.clients

/-- Some threads go on, one after the other. -/
inductive Advancing (E : Env) (A : Machine → Op → Nat → List Fault → Prop) (d : Path)
    (m : Threads ι) : Nat → Threads ι → Prop where
  | start : Advancing E A d m 0 m
  | step {n : Nat} {m' m'' : Threads ι} (advancing : Advancing E A d m n m')
      (last : Advances E A d m' m'') : Advancing E A d m (n + 1) m''

/-- Some section without a fault ends the process: it reads through a null pointer,
divides by zero or has no memory. -/
def Doomed (d : Path) (m : Threads ι) : Prop :=
  ∃ op w t, m.Running op ∧ op.prog 16 d m.machine.db m.machine.world [] = .crashed w t

/-- Some section without a fault makes a file larger than files get. -/
def Outgrown (d : Path) (m : Threads ι) : Prop :=
  ∃ op t, m.Running op ∧ op.prog 16 d m.machine.db m.machine.world [] = .impossible t

section Weight

variable [Fintype ι] {E : Env} {A : Machine → Op → Nat → List Fault → Prop} {d : Path}
  {m m' : Threads ι} {i : ι} {k : Client} {n : Nat}

def weight (m : Threads ι) : Nat := m.worker.weight + ∑ i, (m.clients i).weight

theorem sum_move (m : Threads ι) (i : ι) (k : Client) :
    ∑ j, (m.move i k j).weight + (m.clients i).weight =
      ∑ j, (m.clients j).weight + k.weight := by
  have hrest : ∑ j ∈ Finset.univ.erase i, (m.move i k j).weight =
      ∑ j ∈ Finset.univ.erase i, (m.clients j).weight :=
    Finset.sum_congr rfl fun j hj => by rw [move_of_ne (Finset.ne_of_mem_erase hj)]
  rw [← Finset.add_sum_erase Finset.univ _ (Finset.mem_univ i),
    ← Finset.add_sum_erase Finset.univ (fun j => (m.clients j).weight) (Finset.mem_univ i),
    move_self, hrest]
  omega

/-- A client that gets lighter by more than the background thread gets heavier. -/
theorem weight_move_lt {machine : Machine} {worker : Worker}
    (h : k.weight + worker.weight < (m.clients i).weight + m.worker.weight) :
    weight ⟨machine, worker, m.move i k⟩ < m.weight := by
  have hsum := sum_move m i k
  rw [weight, weight]
  dsimp only
  omega

omit [DecidableEq ι] in
theorem weight_le (m : Threads ι) : m.weight ≤ 4 * Fintype.card ι + 1 := by
  have hsum : ∑ i, (m.clients i).weight ≤ ∑ _i : ι, 4 :=
    Finset.sum_le_sum fun i _ => by cases m.clients i <;> simp [Client.weight]
  rw [Finset.sum_const, Finset.card_univ, smul_eq_mul] at hsum
  have := m.worker.weight_le
  rw [weight]
  omega

theorem Advances.weight_lt (h : Advances E A d m m') : m'.weight < m.weight := by
  obtain ⟨⟨ks, t, hs, hks⟩, hcaused⟩ := h
  have hworker := m.worker.weight_le
  have hnotified : m.worker.notified.weight ≤ 1 := Worker.weight_le _
  have htests : m.worker = .tests → m.worker.weight = 1 := fun h => by rw [h]; rfl
  cases hs with
  | calls => obtain ⟨i, r, hk⟩ := hks _ List.mem_cons_self; cases hk
  | opens => obtain ⟨i, r, hk⟩ := hks _ List.mem_cons_self; cases hk
  | dies => obtain ⟨i, r, hk⟩ := hks _ List.mem_cons_self; cases hk
  | wakes waiting => exact absurd rfl (hcaused waiting)
  | looks alive pending looking sure run =>
      exact weight_move_lt (by rw [pending]; simp only [Client.weight]; omega)
  | closes alive pending closed =>
      exact weight_move_lt (by rw [pending]; simp only [Client.weight]; omega)
  | begins alive pending closed run =>
      exact weight_move_lt (by rw [pending]; simp only [Client.weight]; omega)
  | returns answered =>
      exact weight_move_lt (by rw [answered]; simp only [Client.weight]; omega)
  | exits alive testing shut =>
      have h1 := htests testing
      simp only [weight, Worker.weight] at h1 ⊢
      simp [testing]
  | sleeps alive testing running quiet => simp [weight, Worker.weight, testing]
  | works alive testing running requested run => simp [weight, Worker.weight, testing]
  | @operates i op db s m' t alive pending joined run =>
      refine weight_move_lt ?_
      cases hk : m.clients i with
      | idle => rw [hk] at pending; cases pending
      | returns => rw [hk] at pending; cases pending
      | joins =>
          rw [hk] at pending
          obtain rfl := Option.some.inj pending
          simp only [Op.notifies, Client.weight]
          simp
      | calls c =>
          simp only [Client.weight]
          split <;> omega

theorem Advancing.weight_le (h : Advancing E A d m n m') : n + m'.weight ≤ m.weight := by
  induction h with
  | start => omega
  | step advancing last ih =>
      have := last.weight_lt
      omega

end Weight

section Waiting

variable {d : Path} {m m' : Threads ι} {i : ι} {k : Client} {n : Nat} {db : DB} {w : World}
  {ks : History ι} {t : Nat}

theorem move_ne (h : m.clients i ≠ k) : m.move i k ≠ m.clients := fun heq =>
  h (by rw [← heq, move_self])

/-- A section of a client that may run does run, or it ends the process. -/
theorem operates_or_doomed (op : Op) (alive : m.machine.db = some db) (pending : (m.clients i).op = some op)
    (joined : m.clients i = .joins → m.worker.Gone)
    (htrigger : 1 ≤ db.options.l0CompactionTrigger) :
    (∃ m', Advances Env.hostile ClomDB.Free d m m') ∨ Doomed d m ∨ Outgrown d m := by
  have hrunning : m.Running op := by
    cases op with
    | background => cases hk : m.clients i with
      | calls c => rw [hk] at pending; cases c <;> cases pending
      | _ => rw [hk] at pending; cases pending
    | reopen => cases hk : m.clients i with
      | calls c => rw [hk] at pending; cases c <;> cases pending
      | _ => rw [hk] at pending; cases pending
    | _ => exact ⟨i, pending, joined⟩
  cases hr : op.prog 16 d m.machine.db m.machine.world [] with
  | returned r w' rest t =>
      obtain ⟨s, db'⟩ := r
      refine Or.inl ⟨_, ⟨_, _, .operates alive pending joined
        (.returned (Env.admits_nil _) trivial hr), by simp⟩, fun _ => move_ne fun h => ?_⟩
      rw [h] at pending
      cases pending
  | crashed w' t => exact Or.inr (Or.inl ⟨op, w', t, hrunning, hr⟩)
  | running t =>
      rw [alive] at hr
      exact absurd hr (Client.ends_op pending htrigger m.machine.world [] t)
  | impossible t => exact Or.inr (Or.inr ⟨op, t, hrunning, hr⟩)

/-- Where a client is in a call some thread can go on. -/
theorem Orderly.advances (h : m.Orderly) (hbusy : m.clients i ≠ .idle)
    (htrigger : ∀ db, m.machine.db = some db → 1 ≤ db.options.l0CompactionTrigger) :
    (∃ m', Advances Env.hostile ClomDB.Free d m m') ∨ Doomed d m ∨ Outgrown d m := by
  obtain ⟨db, alive⟩ : ∃ db, m.machine.db = some db :=
    Option.ne_none_iff_exists'.mp fun hnone => hbusy ((h.dead hnone).2 i)
  cases hk : m.clients i with
  | idle => exact absurd hk hbusy
  | returns r =>
      exact Or.inl ⟨_, ⟨_, _, .returns hk, by simp⟩, fun _ => move_ne (by rw [hk]; simp)⟩
  | joins =>
      by_cases hgone : m.worker.Gone
      · exact operates_or_doomed .closeEnd alive (by rw [hk]; rfl) (fun _ => hgone)
          (htrigger db alive)
      · -- the background thread has been told, so it is awake and exits
        have hshut := (h.joining i db hk alive).1
        have htests : m.worker = .tests := by
          cases hw : m.worker with
          | tests => rfl
          | waits =>
              have hrunning := ((h.minds db alive).asleep hw).1
              rw [hshut] at hrunning
              cases hrunning
          | absent | exited =>
              rw [hw] at hgone
              exact absurd trivial hgone
        exact Or.inl ⟨_, ⟨_, _, .exits alive htests hshut, by simp⟩, fun hw => by
          rw [htests] at hw; cases hw⟩
  | calls c =>
      have hlook : ∀ look, c.look db = some look →
          ∃ m', Advances Env.hostile ClomDB.Free d m m' := by
        intro look hlook
        obtain ⟨r, rest, hr⟩ := @Call.look_returns db c look hlook m.machine.world [] (by simp)
        exact ⟨_, ⟨_, _, .looks alive hk hlook (Env.admits_nil _) hr, by simp⟩,
          fun _ => move_ne (by rw [hk]; simp)⟩
      cases c with
      | write opts batch =>
          exact operates_or_doomed (.write opts batch) alive (by rw [hk]; rfl)
            (fun h => by rw [hk] at h; cases h) (htrigger db alive)
      | flush =>
          exact operates_or_doomed .flush alive (by rw [hk]; rfl)
            (fun h => by rw [hk] at h; cases h) (htrigger db alive)
      | get key => exact Or.inl (hlook _ rfl)
      | newIterator => exact Or.inl (hlook _ rfl)
      | getStats => exact Or.inl (hlook _ rfl)
      | close =>
          cases hclosed : db.closed with
          | true =>
              exact Or.inl ⟨_, ⟨_, _, .closes alive hk hclosed, by simp⟩,
                fun _ => move_ne (by rw [hk]; simp)⟩
          | false =>
              have hrun : Op.prog 16 d .closeBegin m.machine.db m.machine.world [] =
                  .returned (.OK, some db.closeBegin) m.machine.world [] 0 := by
                rw [alive]
                rfl
              exact Or.inl ⟨_, ⟨_, _, .begins alive hk hclosed
                (.returned (Env.admits_nil _) trivial hrun), by simp⟩,
                fun _ => move_ne (by rw [hk]; simp)⟩

theorem Advancing.orderly {E : Env} {A : Machine → Op → Nat → List Fault → Prop}
    (h : Advancing E A d m n m') (hm : m.Orderly) : m'.Orderly := by
  induction h with
  | start => exact hm
  | step advancing last ih =>
      obtain ⟨⟨_, _, hs, -⟩, -⟩ := last
      exact hs.orderly ih

/-- From every state that threads reach, whatever has failed and whoever has died,
they go on for a bounded number of steps. Where no thread can go on every client has
its reply, unless a section ends the process. -/
theorem calls_return [Fintype ι] (hr : Run Env.hostile ClomDB.Free d (start w) ks t m)
    (ha : Advancing Env.hostile ClomDB.Free d m n m') :
    n ≤ 4 * Fintype.card ι + 1 ∧
      ((∀ db, m'.machine.db = some db → 1 ≤ db.options.l0CompactionTrigger) →
        (∀ m'', ¬Advances Env.hostile ClomDB.Free d m' m'') →
          (∀ i, m'.clients i = .idle) ∨ Doomed d m' ∨ Outgrown d m') := by
  refine ⟨?_, fun htrigger hstuck => ?_⟩
  · have hspent := ha.weight_le
    have hweight := m.weight_le
    omega
  · by_cases hidle : ∀ i, m'.clients i = .idle
    · exact Or.inl hidle
    · obtain ⟨i, hbusy⟩ := not_forall.mp hidle
      have horderly := ha.orderly (hr.orderly (orderly_start w))
      exact Or.inr ((horderly.advances hbusy htrigger).resolve_left (not_exists.mpr hstuck))

/-- A `Close` has set the switch and joins the background thread. -/
theorem calls_return_joining : ∃ ks t m m', Run Env.hostile ClomDB.Free [0x64]
    (start ⟨false, ∅⟩ : Threads Bool) ks t m ∧ m.clients true = .joins ∧
      Advancing Env.hostile ClomDB.Free [0x64] m 1 m' ∧
        1 ≤ 4 * Fintype.card Bool + 1 ∧
          ((∀ db, m'.machine.db = some db → 1 ≤ db.options.l0CompactionTrigger) →
            (∀ m'', ¬Advances Env.hostile ClomDB.Free [0x64] m' m'') →
              (∀ i, m'.clients i = .idle) ∨ Doomed [0x64] m' ∨ Outgrown [0x64] m') := by
  obtain ⟨ks, t, m, db, hr, hdb, hshut, hworker, hjoins⟩ := joining_run
  have ha : Advancing Env.hostile ClomDB.Free [0x64] m 1 { m with worker := .exited } :=
    .step .start ⟨⟨_, _, .exits hdb hworker hshut, by simp⟩, fun hw => by rw [hworker] at hw; cases hw⟩
  exact ⟨ks, t, m, _, hr, hjoins, ha, calls_return hr ha⟩

end Waiting

end Threads

end ClomDB
