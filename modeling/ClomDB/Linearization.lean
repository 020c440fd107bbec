import ClomDB.AtomicWrites
import ClomDB.Restarts
import ClomDB.Threads

/-!
# Linearizability

Whatever the order is in which the threads of a process run, and however many
processes work on the directory one after the other, the replies are those of one
map that serves one call at a time. A call takes effect in its section. A write in
which the process dies takes effect before the restart or not at all.

## Implementation notes

The sections that write are under the condition that makes a write happen as a
whole, and no call fails in a section that reads.
-/

namespace ClomDB

open FaultProgram FileSystem FileSystem.World SSTable DB WriteAheadLog SharedObject

/-- A map that serves one call at a time. -/
structure Store where
  content : Content
  closed : Bool

/-- What a call does when it is served alone. -/
def Store.Does (c : Store) : Call → Reply → Store → Prop
  | .write _ batch, .status s, c' =>
      if batch.empty then s = .OK ∧ c' = c
      else if c.closed then s = .invalidArgument [.lit "DB is closed"] ∧ c' = c
      else c' = { c with content := if s.ok then batch.after c.content else c.content }
  | .get key, .value r, c' => c' = c ∧
      r = if c.closed then .error (.invalidArgument [.lit "DB is closed"])
        else answer key (c.content key)
  | .newIterator, .iterator it, c' => c' = c ∧
      ∃ snapshot, it = .ofSnapshot snapshot ∧ ∀ k, snapshot[k]? = c.content k
  | .flush, .status _, c' => c' = c
  | .getStats, .stats _, c' => c' = c
  | .close, .status s, c' => c' = { c with closed := true } ∧ (c.closed = true → s = .OK)
  | _, _, _ => False

/-- The map as an object: a restart opens it again and keeps what is in it. -/
def store : Object Store Call Reply := ⟨Store.Does, fun c c' => c' = { c with closed := false }⟩

def Client.phase : Client → Phase Call Reply
  | .idle => .idle
  | .calls c => .pending c
  | .joins => .pending .close
  | .returns r => .answered r

theorem Client.op_write {k : Client} {opts : WriteOptions} {batch : WriteBatch}
    (h : k.op = some (.write opts batch)) : k = .calls (.write opts batch) := by
  cases k with
  | calls call =>
      cases call with
      | write opts' batch' =>
          cases h
          rfl
      | _ => cases h
  | _ => cases h

section Looks

variable {c : Content} {d : Path} {w w' : World} {db : DB} {b t : Nat} {calm : Prop}

/-- An object that stands for a map shows it, also when it is closed. -/
theorem Standing.shown (h : Standing (some c) calm d w db b) :
    ∃ tree : Tree, Aligned tree.levels w db ∧ ClomDB.shown db tree = c := by
  obtain ⟨tree, disk, hinv, -⟩ := h.inv
  obtain ⟨recs, -, hsound⟩ := hinv.recovers c rfl
  exact ⟨tree, hinv.holds.aligned, hsound.content⟩

/-- What a section that only looks returns. -/
theorem Standing.look (h : Standing (some c) calm d w db b) {call : Call} {look : Prog World Reply}
    (hlook : call.look db = some look) : Observes Env.sure look
      (fun r => Store.Does ⟨c, db.closed⟩ call r ⟨c, db.closed⟩) w := by
  cases call with
  | get key =>
      obtain rfl := Option.some.inj hlook
      have hget : Observes Env.sure (db.get key) (fun r => r =
          if db.closed then .error (.invalidArgument [.lit "DB is closed"])
          else answer key (c key)) w := by
        cases hclosed : db.closed with
        | true =>
            rw [DB.get, if_pos hclosed]
            exact Observes.ret rfl
        | false => exact h.answers hclosed key
      exact hget.bind fun r hr => Observes.ret ⟨rfl, hr⟩
  | newIterator =>
      obtain rfl := Option.some.inj hlook
      obtain ⟨tree, haligned, rfl⟩ := h.shown
      have hlists : Observes Env.sure db.newIterator (fun it =>
          ∃ snapshot, it = .ofSnapshot snapshot ∧ ∀ k, snapshot[k]? = ClomDB.shown db tree k) w := by
        refine Observes.of_returns fun fs hfs => ?_
        obtain ⟨snapshot, rest, hsub, hrun, hshows⟩ := newIterator_returns db w fun n hn => hfs.2 n hn
        rw [haligned.scanned fun n hn => hfs.1 n hn] at hshows
        exact ⟨_, rest, hsub, hrun, snapshot, rfl, hshows⟩
      exact hlists.bind fun it hit => Observes.ret ⟨rfl, hit⟩
  | getStats =>
      obtain rfl := Option.some.inj hlook
      exact Observes.ret rfl
  | _ => cases hlook

/-- An execution of a program that only looks. -/
theorem looked {α : Type} {E : Env} {p : Prog World α} {R : α → Prop} {fs rest : List Fault} {a : α}
    (h : Observes E p R w) (hfs : E.Admits fs) (hr : p w fs = .returned a w' rest t) :
    R a ∧ w' = w ∧ t = 0 := by
  obtain ⟨ha, hw, ht⟩ := (h t).of_returned hfs hr (Nat.le_refl t)
  exact ⟨ha, hw, by omega⟩

end Looks

section Writes

variable {d : Path} {db : DB} {m m' : Machine} {opts : WriteOptions} {batch : WriteBatch}
  {E : Env} {A : Machine → Op → Nat → List Fault → Prop} {accepting : Bool} {s : Status} {t : Nat}

/-- A write of nothing, or to a closed database, leaves everything alone. -/
theorem Step.unwritten (hs : Step E A d m (.returned (.write opts batch) accepting s) t m')
    (hdb : m.db = some db) (hnot : batch.empty = true ∨ db.closed = true) :
    m' = m ∧ s = if batch.empty then .OK else .invalidArgument [.lit "DB is closed"] := by
  cases hs with
  | @returned op fuel fs rest s db? w' t admits allowed run =>
  obtain ⟨w, db₀⟩ := m
  obtain rfl : db₀ = some db := hdb
  cases hne : batch.empty with
  | true =>
      rw [Op.prog, DB.write, if_pos hne] at run
      cases run
      exact ⟨rfl, rfl⟩
  | false =>
      rw [Op.prog, write_closed (hnot.resolve_left (by rw [hne]; simp)) hne] at run
      cases run
      exact ⟨rfl, rfl⟩

/-- A process that dies in a write was writing something. -/
theorem Step.writing (hs : Step E A d m (.crashed (.write opts batch)) t m')
    (hdb : m.db = some db) : batch.empty = false ∧ db.closed = false := by
  cases hs with
  | @crashed op fuel fs w' t crashes admits allowed run =>
  rw [hdb] at run
  cases hne : batch.empty with
  | true =>
      rw [Op.prog, DB.write, if_pos hne] at run
      cases run
  | false =>
      cases hclosed : db.closed with
      | false => exact ⟨rfl, rfl⟩
      | true =>
          rw [Op.prog, write_closed hclosed hne] at run
          cases run

end Writes

section Examples

/-- A machine that has a database has not died. -/
theorem returned_of_perform {d : Path} {t : Nat} {m m' : Machine} {fuel : Nat} {op : Op} {fs : List Fault} {e : Event}
    {db : DB} (h : m.perform fuel d op fs = some (e, t, m')) (hdb : m'.db = some db) :
    ∃ s, e = .returned op m.accepting s := by
  rw [Machine.perform] at h
  split at h
  next =>
    cases h
    exact ⟨_, rfl⟩
  next =>
    cases h
    cases hdb
  next => cases h

/-- A write in which no call fails happens as a whole. -/
def Machine.writesWhole (m : Machine) (batch : WriteBatch) : Bool :=
  m.db.any fun db => db.wal.all fun log =>
    decide ((log.addRecord batch.rep (false || db.options.syncWrites) m.world []).AtReturn
      fun _ w' fs' => batch.WellFormed ∧ (db.options.backgroundCompaction = false →
        ((db.applied batch).maybeFlushLocked 20 w' fs').AtReturn fun r _ _ => r.1.ok = true)) &&
    (log.addRecord batch.rep (false || db.options.syncWrites) m.world []).state.all fun w' =>
      decide (w'.bytes (walPath db.dbPath) =
        (m.world.bytes (walPath db.dbPath)).map (· ++ frame batch.rep))

theorem atomicWhole_of_writesWhole {m : Machine} {batch : WriteBatch} (hempty : batch.empty = false)
    (hlength : batch.rep.length < 2 ^ 32) (h : m.writesWhole batch = true) :
    AtomicWhole m (.write {} batch) 20 [] := by
  obtain ⟨db, hdb, hwal⟩ := (Option.any_eq_true ..).mp h
  have hchecked : ∀ {log : WriteAheadLog}, db.Writes batch log → _ := fun hwrites =>
    (Bool.and_eq_true ..).mp ((Option.all_some ..).symm.trans (hwrites.wal ▸ hwal))
  constructor
  · intro db₁ hdb₁
    obtain rfl := Option.some.inj (hdb.symm.trans hdb₁)
    exact ⟨fun he => absurd he (by simp [hempty]), fun _ _ _ _ => Or.inl hlength,
      fun log _ hmeets => absurd hmeets (Prog.not_meetsFailure fun _ => List.not_mem_nil),
      fun log hwrites _ => of_decide_eq_true (hchecked hwrites).1⟩
  · intro db₁ log w' hdb₁ hwrites hstate
    obtain rfl := Option.some.inj (hdb.symm.trans hdb₁)
    have hbytes := (hchecked hwrites).2
    rw [show (log.addRecord batch.rep (false || db.options.syncWrites) m.world []).state = some w'
      from hstate] at hbytes
    exact Or.inr (of_decide_eq_true hbytes)

/-- A new database, the first write to it, and the end of `Close`. -/
def firstSession : Option (Machine × Machine × Machine) := do
  let (_, t, m, e', t', m') ← firstWrite (WriteBatch.put {} [0x61] [0x78])
  let db ← m'.db
  let (_, t'', m'') ← Machine.perform 20 [0x64] ⟨m'.world, some db.closeBegin⟩ .closeEnd []
  if t = 0 ∧ t' = 0 ∧ t'' ≤ 1 ∧ e'.refused = false ∧ db.closed = false ∧
      db.closeBegin.shuttingDown = true ∧ m.writesWhole (WriteBatch.put {} [0x61] [0x78]) ∧
      m''.db.isSome = true then
    return (m, m', m'')
  else none

theorem firstSession_steps : ∃ m db s m' db' s' t m'' s'',
    Step Env.hostile AtomicWhole [0x64] ⟨⟨false, ∅⟩, none⟩ (.returned (.reopen {}) false s) 0
      m ∧ m.db = some db ∧
    AtomicWhole m (.write {} (WriteBatch.put {} [0x61] [0x78])) 20 [] ∧
    (∀ A : Machine → Op → Nat → List Fault → Prop,
      A m (.write {} (WriteBatch.put {} [0x61] [0x78])) 20 [] → Step Env.hostile A [0x64] m
        (.returned (.write {} (WriteBatch.put {} [0x61] [0x78])) m.accepting s') 0 m') ∧
      m'.db = some db' ∧ s'.ok = true ∧ db'.closed = false ∧
    Step Env.hostile AtomicWhole [0x64] ⟨m'.world, some db'.closeBegin⟩
      (.returned .closeEnd (Machine.accepting ⟨m'.world, some db'.closeBegin⟩) s'') t m'' ∧
      db'.closeBegin.shuttingDown = true ∧ t ≤ 1 := by
  have h : firstSession.isSome = true := by decide +kernel
  obtain ⟨⟨m, m', m''⟩, h⟩ := Option.isSome_iff_exists.mp h
  simp only [firstSession, firstWrite, Option.bind_eq_bind, Option.bind_eq_some_iff,
    Option.pure_def, Option.some.injEq] at h
  obtain ⟨_, ⟨⟨e, t, m₁⟩, hopened, ⟨e', t', m₁'⟩, hwritten, rfl⟩, db', hdb', ⟨e'', t'', m₁''⟩, hclosed,
    hif⟩ := h
  simp only [Option.ite_none_right_eq_some, Option.some.injEq, Prod.mk.injEq] at hif
  obtain ⟨⟨rfl, rfl, ht, hrefused, hopen, hshut, hwhole, halive⟩, rfl, rfl, rfl⟩ := hif
  obtain ⟨db'', hdb''⟩ := Option.isSome_iff_exists.mp halive
  obtain ⟨db, hdb, -⟩ := (Option.any_eq_true ..).mp hwhole
  obtain ⟨s, rfl⟩ := returned_of_perform hopened hdb
  obtain ⟨s', rfl⟩ := returned_of_perform hwritten hdb'
  obtain ⟨s'', rfl⟩ := returned_of_perform hclosed hdb''
  have hreopen : AtomicWhole ⟨⟨false, ∅⟩, none⟩ (.reopen {}) 20 [] :=
    ⟨fun _ => List.not_mem_nil, trivial⟩
  have hset : AtomicWhole m₁ (.write {} (WriteBatch.put {} [0x61] [0x78])) 20 [] :=
    atomicWhole_of_writesWhole (by decide) (by decide) hwhole
  have hclose : AtomicWhole ⟨m₁'.world, some db'.closeBegin⟩ .closeEnd 20 [] := ⟨trivial, trivial⟩
  exact ⟨m₁, db, s, m₁', db', s', t'', m₁'', s'',
    Machine.step_of_perform (Env.hostile_admits _) hreopen (Or.inl trivial) hopened, hdb, hset,
    fun A hA => Machine.step_of_perform (Env.hostile_admits _) hA (Or.inl trivial) hwritten, hdb',
    by simpa [Event.refused] using hrefused, hopen,
    Machine.step_of_perform (Env.hostile_admits _) hclose (Or.inl trivial) hclosed, hshut, ht⟩

end Examples

namespace Threads

variable {ι : Type} {c c' : Store} {d : Path} {m m' : Threads ι} {i : ι} {k : Client}
  {b t t' : Nat} {ks ks' : History ι} {A : Machine → Op → Nat → List Fault → Prop}

/-- A write that is not carried out. -/
theorem does_unwritten {opts : WriteOptions} {batch : WriteBatch}
    (hnot : batch.empty = true ∨ c.closed = true) : c.Does (.write opts batch)
      (.status (if batch.empty then .OK else .invalidArgument [.lit "DB is closed"])) c := by
  rw [Store.Does]
  cases hne : batch.empty with
  | true => exact ⟨rfl, rfl⟩
  | false =>
      have hclosed := hnot.resolve_left (by rw [hne]; simp)
      rw [hclosed]
      exact ⟨rfl, rfl⟩

/-- A write that is carried out. -/
theorem does_written {opts : WriteOptions} {batch : WriteBatch} {s : Status} {content : Content}
    (hne : batch.empty = false) (hopen : c.closed = false)
    (hcontent : content = if s.ok then batch.after c.content else c.content) :
    c.Does (.write opts batch) (.status s) ⟨content, c.closed⟩ := by
  rw [Store.Does, hne, hopen]
  exact congrArg (Store.mk · false) hcontent

/-- The calls of the clients as the map sees them. -/
def phases (m : Threads ι) : ι → Phase Call Reply := Client.phase ∘ m.clients

theorem phases_at (h : m.clients i = k) : m.phases i = k.phase := congrArg Client.phase h

/-- The threads work for a map. The machine stands for it, but for a torn frame where
appends are not whole. -/
structure Serves (whole : Prop) (c : Store) (d : Path) (b : Nat) (m : Threads ι) : Prop where
  left : m.machine.Left whole c.content d b
  closed : ∀ db, m.machine.db = some db → db.closed = c.closed

theorem serves_start {w : World} (hblank : Blank d w) (hb : b + 1 < 2 ^ 64) :
    (start w : Threads ι).Serves True ⟨fun _ => none, false⟩ d b :=
  ⟨(hblank.start (some fun _ => none) (by simp) hb).left, fun db hdb => (by cases hdb)⟩

theorem Serves.same {whole : Prop} (h : m.Serves True c d b) (hmachine : m'.machine = m.machine) :
    m'.Serves whole c d b := by
  have hstands := h.left.2 trivial
  rw [← hmachine] at hstands
  exact ⟨hstands.left, by rw [hmachine]; exact h.closed⟩

/-- A section of the machine that keeps the map. -/
theorem Serves.kept {whole : Prop} {machine : Machine} {worker : Worker} {clients : ι → Client}
    {content : Content} (hleft : machine.Left whole content d b) (hcontent : content = c.content)
    (hclosed : ∀ db, machine.db = some db → db.closed = c.closed) :
    Serves whole c d b ⟨machine, worker, clients⟩ :=
  ⟨hcontent ▸ hleft, hclosed⟩

variable [DecidableEq ι]

/-- A step of the threads as a few marks of the map. -/
def Matched (whole : Prop) (c : Store) (d : Path) (b : Nat) (m : Threads ι) (ks : History ι)
    (m' : Threads ι) : Prop :=
  ∃ c' all, all.filter Mark.seen = ks ∧ store.Moves c m.phases all c' m'.phases ∧
    m'.Serves whole c' d b

theorem phases_move (m : Threads ι) (machine : Machine) (worker : Worker) (i : ι) (k : Client) :
    phases ⟨machine, worker, m.move i k⟩ = Function.update m.phases i k.phase :=
  Function.comp_update ..

/-- A client gets its reply. -/
theorem Matched.point {whole : Prop} {machine : Machine} {worker : Worker} {call : Call}
    {r : Reply} (hpending : (m.clients i).phase = .pending call) (hdoes : c.Does call r c')
    (hserves : Serves whole c' d b ⟨machine, worker, m.move i (.returns r)⟩) :
    Matched whole c d b m [] ⟨machine, worker, m.move i (.returns r)⟩ := by
  refine ⟨c', [.point i r], rfl, ?_, hserves⟩
  have htakes : store.Takes c m.phases (.point i r) c' (Function.update m.phases i (.answered r)) :=
    .point hpending hdoes
  rw [phases_move]
  exact htakes.moves

/-- No client gets anywhere that the map could see. -/
theorem Matched.quiet {whole : Prop} (hphases : m'.phases = m.phases)
    (hserves : m'.Serves whole c d b) : Matched whole c d b m [] m' := by
  refine ⟨c, [], rfl, ?_, hserves⟩
  rw [hphases]
  exact .start

/-- The process is gone, or it opens the directory. -/
theorem Matched.restart {whole : Prop} {content : Content} (hidle : ∀ i, m'.clients i = .idle)
    (hcontent : content = c.content) (hserves : m'.Serves whole ⟨content, false⟩ d b) :
    Matched whole c d b m [.restart] m' := by
  refine ⟨_, [.restart], rfl, ?_, hserves⟩
  have hphases : m'.phases = fun _ => .idle := funext fun i => phases_at (hidle i)
  rw [hphases, hcontent]
  exact (Object.Takes.restart rfl).moves

/-- A step is matched by marks of the map. -/
theorem Step.matched (hA : ∀ m op fuel fs, A m op fuel fs → Atomic m op fuel fs)
    (hs : Step Env.hostile A d m ks t m') (h : m.Serves True c d b) (horderly : m.Orderly)
    (hpath : d.getLast? ≠ some separator) (ht : t ≤ b) :
    Matched (∀ m op fuel fs, A m op fuel fs → Whole m op fuel fs) c d (b - t) m ks m' := by
  have hstands := h.left.2 trivial
  cases hs with
  | @calls i call db alive idle alone =>
      refine ⟨c, [.call i call], rfl, ?_, h.same rfl⟩
      have htakes : store.Takes c m.phases (.call i call) c
          (Function.update m.phases i (.pending call)) := .call (phases_at idle)
      rw [phases_move]
      exact htakes.moves
  | @looks i call db look r w' fs rest t alive pending looking sure run =>
      have hdb : Standing (some c.content) False d m.machine.world db b := by
        rw [Machine.Stands, alive] at hstands
        exact hstands
      obtain ⟨hdoes, rfl, rfl⟩ := looked (hdb.look looking) sure run
      rw [h.closed db alive] at hdoes
      exact Matched.point (congrArg Client.phase pending) hdoes (h.same (by rw [← alive]))
  | @operates i op db s m' t alive pending joined run =>
      obtain ⟨content, hleads, hleft⟩ := run.atomic hA hstands hpath ht
      obtain ⟨db', hdb', hturns⟩ := run.turns alive pending
      have hkeeps : op ≠ .closeEnd → ∀ db₁, m'.db = some db₁ → db₁.closed = c.closed := by
        intro hop db₁ h₁
        obtain rfl := Option.some.inj (hdb'.symm.trans h₁)
        exact (hturns.closed.resolve_right hop).trans (h.closed db alive)
      cases hk : m.clients i with
      | idle => rw [hk] at pending; cases pending
      | returns r => rw [hk] at pending; cases pending
      | joins =>
          rw [hk] at pending
          obtain rfl := Option.some.inj pending
          obtain ⟨hshut, hopen⟩ := horderly.joining i db hk alive
          obtain ⟨db₁, h₁, hclosed₁⟩ := closed_of_closeEnd run alive hshut
          have hphase : (m.clients i).phase = .pending .close := congrArg Client.phase hk
          have hcontent : content = c.content := hleads
          have hdoes : c.Does .close (.status s) { c with closed := true } := ⟨rfl, fun hc => by
            rw [← h.closed db alive, hopen] at hc
            cases hc⟩
          refine Matched.point hphase hdoes ⟨hcontent ▸ hleft, fun db₂ h₂ => ?_⟩
          obtain rfl := Option.some.inj (h₁.symm.trans h₂)
          exact hclosed₁
      | calls call =>
          have hphase : (m.clients i).phase = .pending call := congrArg Client.phase hk
          rw [hk] at pending
          cases call with
          | flush =>
              obtain rfl := Option.some.inj pending
              have hdoes : c.Does .flush (.status s) c := rfl
              exact Matched.point hphase hdoes (.kept hleft hleads (hkeeps (by simp)))
          | write opts batch =>
              obtain rfl := Option.some.inj pending
              have hkept := hkeeps (by simp)
              by_cases hnot : batch.empty = true ∨ db.closed = true
              · obtain ⟨rfl, rfl⟩ := run.unwritten alive hnot
                refine Matched.point hphase (does_unwritten (by rwa [← h.closed db alive])) ?_
                exact ⟨(hstands.spend (Nat.sub_le b t)).left, hkept⟩
              · rw [not_or, Bool.not_eq_true, Bool.not_eq_true] at hnot
                have hopen : c.closed = false := (h.closed db alive).symm.trans hnot.2
                rw [Machine.accepting, alive] at hleads
                simp only [hnot.2, Bool.not_false] at hleads
                exact Matched.point hphase (does_written hnot.1 hopen hleads) ⟨hleft, hkept⟩
          | _ => cases pending
  | @closes i db alive pending closed =>
      have hclosed : c.closed = true := (h.closed db alive).symm.trans closed
      have hphase : (m.clients i).phase = .pending .close := congrArg Client.phase pending
      have hdoes : c.Does .close (.status .OK) c := ⟨by rw [← hclosed], fun _ => rfl⟩
      exact Matched.point hphase hdoes (h.same rfl)
  | @begins i db s m' t alive pending closed run =>
      obtain ⟨content, hleads, hleft⟩ := run.atomic hA hstands hpath ht
      obtain rfl := run.begun alive closed
      refine Matched.quiet ?_ (.kept hleft hleads fun db₁ h₁ => ?_)
      · rw [phases_move]
        have hpending : m.phases i = .pending .close := congrArg Client.phase pending
        rw [show Client.phase .joins = m.phases i from hpending.symm, Function.update_eq_self]
      · cases h₁
        exact h.closed db alive
  | @returns i r answered =>
      refine ⟨c, [.ret i r], rfl, ?_, h.same rfl⟩
      have htakes : store.Takes c m.phases (.ret i r) c (Function.update m.phases i .idle) :=
        .ret (phases_at answered)
      rw [phases_move]
      exact htakes.moves
  | exits => exact Matched.quiet rfl (h.same rfl)
  | sleeps => exact Matched.quiet rfl (h.same rfl)
  | wakes => exact Matched.quiet rfl (h.same rfl)
  | @works db s m' t alive testing running requested run =>
      obtain ⟨content, hleads, hleft⟩ := run.atomic hA hstands hpath ht
      obtain ⟨db', hdb', hstill⟩ := run.worked alive running requested
      refine Matched.quiet rfl (.kept hleft hleads fun db₁ h₁ => ?_)
      obtain rfl := Option.some.inj (hdb'.symm.trans h₁)
      exact hstill.shell.closed.trans (h.closed db alive)
  | @opens options s m' t free run =>
      obtain ⟨content, hleads, hleft⟩ := run.atomic hA hstands hpath ht
      exact Matched.restart free.idle hleads ⟨hleft, fun db hdb => (run.opened free.closed hdb).closed⟩
  | @dies e m' t ends run =>
      obtain ⟨content, hleads, hleft⟩ := run.atomic hA hstands hpath ht
      have hnone : m'.db = none := by
        cases run with
        | returned => exact ends.elim
        | crashed => rfl
        | killed => rfl
      have hserves : Serves (ι := ι) _ ⟨content, false⟩ d (b - t) ⟨m', .absent, fun _ => .idle⟩ :=
        ⟨hleft, fun db hdb => by
          rw [show m'.db = some db from hdb] at hnone
          cases hnone⟩
      cases e with
      | returned => exact ends.elim
      | killed => exact Matched.restart (fun _ => rfl) hleads hserves
      | crashed op =>
          by_cases hop : ∀ opts batch, op ≠ .write opts batch
          · have hsame : content = c.content := by
              cases op with
              | write opts batch => exact absurd rfl (hop opts batch)
              | _ => exact hleads
            exact Matched.restart (fun _ => rfl) hsame hserves
          · simp only [not_forall, not_not] at hop
            obtain ⟨opts, batch, rfl⟩ := hop
            rcases hleads with hsame | hafter
            · exact Matched.restart (fun _ => rfl) hsame hserves
            · -- the batch is in the log, and the write has taken effect
              obtain ⟨i, hi, -⟩ := ends
              obtain ⟨db, alive⟩ : ∃ db, m.machine.db = some db :=
                Option.ne_none_iff_exists'.mp fun hno => by
                  rw [(horderly.dead hno).2 i] at hi
                  cases hi
              obtain ⟨hne, hclosed⟩ := run.writing alive
              have hopen : c.closed = false := (h.closed db alive).symm.trans hclosed
              have hphase : m.phases i = .pending (.write opts batch) :=
                congrArg Client.phase (Client.op_write hi)
              have hdoes : c.Does (.write opts batch) (.status .OK) ⟨content, c.closed⟩ :=
                does_written hne hopen hafter
              have htakes : store.Takes c m.phases (.point i (.status .OK)) ⟨content, c.closed⟩ _ :=
                .point hphase hdoes
              exact ⟨_, [.point i (.status .OK), .restart], rfl,
                htakes.moves.take (.restart rfl), hserves⟩

/-- Threads whose writes happen as a whole, and which leave no torn frame, serve a map. -/
theorem Run.serves {m₀ : Threads ι} {c₀ : Store} (hr : Run Env.hostile AtomicWhole d m₀ ks t m)
    (h : m₀.Serves True c₀ d b) (horderly : m₀.Orderly) (hpath : d.getLast? ≠ some separator)
    (ht : t ≤ b) : ∃ c all, all.filter Mark.seen = ks ∧
      store.Moves c₀ m₀.phases all c m.phases ∧ m.Serves True c d (b - t) := by
  induction hr with
  | start => exact ⟨c₀, [], rfl, .start, h⟩
  | @step ks ks' t t' m m' run last ih =>
      obtain ⟨c, before, rfl, hbefore, hserves⟩ := ih (by omega)
      obtain ⟨c', all, rfl, hmoves, hserves'⟩ := last.matched (fun _ _ _ _ => And.left) hserves
        (run.orderly horderly) hpath (by omega)
      have hstands := hserves'.left.2 fun _ _ _ _ => And.right
      rw [← Nat.sub_sub]
      exact ⟨c', before ++ all, List.filter_append .., hbefore.trans hmoves, hstands.left,
        hserves'.closed⟩

/-- Every history of any number of threads and of any processes one after the other is
linearizable, and the map it leads to is the one that the next `Open` gets. -/
theorem linearizable {w : World} (hblank : Blank d w) (hpath : d.getLast? ≠ some separator)
    (hr : Run Env.hostile AtomicWhole d (start w) ks t m)
    (hs : Step Env.hostile Atomic d m ks' t' m') (b : Nat) (ht : t + t' + b + 1 < 2 ^ 64) :
    ∃ c, store.Linearizes ⟨fun _ => none, false⟩ (ks ++ ks') c m'.phases ∧
      Reopens d m'.machine.world c.content b := by
  obtain ⟨c, before, rfl, hbefore, hserves⟩ :=
    hr.serves (serves_start hblank ht) (orderly_start w) hpath (by omega)
  obtain ⟨c', all, rfl, hmoves, hserves'⟩ := hs.matched (fun _ _ _ _ => id) hserves
    (hr.orderly (orderly_start w)) hpath (by omega)
  have hshows := hserves'.left.1.shows hpath
  rw [show t + t' + b - t - t' = b by omega] at hshows
  exact ⟨c', ⟨before ++ all, List.filter_append .., hbefore.trans hmoves⟩, hshows.2⟩

/-- One of two clients writes to a new database. -/
theorem linearizable_firstWrite : ∃ ks m m', Run Env.hostile AtomicWhole [0x64]
    (start ⟨false, ∅⟩ : Threads Bool) ks 0 m ∧ Step Env.hostile Atomic [0x64] m [] 0 m' ∧
      m'.clients true ≠ m.clients true ∧ ∃ c, store.Linearizes ⟨fun _ => none, false⟩ (ks ++ []) c
        m'.phases ∧ Reopens [0x64] m'.machine.world c.content 0 := by
  obtain ⟨m, db, s, m', db', s', -, -, -, hopened, hdb, hset, hwritten, -⟩ := firstSession_steps
  have hfree : (start ⟨false, ∅⟩ : Threads Bool).Free :=
    ⟨fun _ => rfl, trivial, fun db hdb => (by cases hdb)⟩
  have hfirst := Run.start.step (Step.opens hfree hopened)
  obtain ⟨m₁, hcalled, rfl, hclient⟩ : ∃ m₁ : Threads Bool, Run Env.hostile AtomicWhole [0x64]
      (start ⟨false, ∅⟩) _ 0 m₁ ∧ m₁.machine = m ∧
        m₁.clients true = .calls (.write {} (WriteBatch.put {} [0x61] [0x78])) :=
    ⟨_, hfirst.step (@Step.calls _ _ _ _ _ _ true
      (.write {} (WriteBatch.put {} [0x61] [0x78])) db hdb rfl (by simp)), rfl,
      by simp only [move, Function.update_self]⟩
  have hlast := Step.operates hdb (by rw [hclient]; rfl) (by rw [hclient]; simp)
    (hwritten Atomic hset.1)
  exact ⟨_, m₁, _, hcalled, hlast, by simp [move, hclient],
    linearizable ⟨rfl, rfl⟩ (by decide) hcalled hlast 0 (by decide)⟩

end Threads

end ClomDB
