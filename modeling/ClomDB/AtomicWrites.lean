import ClomDB.TornLog

/-!
# Writes that happen as a whole

A write that returns OK shows all of its operations, and one that does not shows
none of them, in the running database and in the one opened after a crash. This
holds of writes whose record is either not in the log or applied as a whole, and
not of others: a malformed batch is applied up to its first bad byte, a record
can be in the log after an append that failed, and a flush or a compaction fails
after the batch was applied.
-/

namespace ClomDB

open FaultProgram FileSystem FileSystem.World SSTable DB WriteAheadLog

/-- `NewIterator` lists the map, in every execution without a fault. -/
def Lists (w : World) (db : DB) (c : Content) : Prop :=
  Observes Env.sure db.newIterator (fun it => ∀ k, it.snapshot[k]? = c k) w

/-- The running database and the one opened after a crash show the map. -/
def Shows (d : Path) (m : Machine) (c : Content) (b : Nat) : Prop :=
  (∀ db, m.db = some db → db.closed = false → Answers m.world db c ∧ Lists m.world db c) ∧
    Reopens d m.world c b

/-- What a step does to the map when every write in it happens as a whole: one
that returned OK is in it, one that did not is not, and one in which the process
died may be. -/
def Event.Leads : Event → Content → Content → Prop
  | .returned (.write _ batch) true s, c, c' => c' = if s.ok then batch.after c else c
  | .crashed (.write _ batch), c, c' => c' = c ∨ c' = batch.after c
  | _, c, c' => c' = c

/-- The map that some steps lead to when their writes happen as a whole. -/
def Leads : List Event → Content → Content → Prop
  | [], c, c' => c' = c
  | e :: es, c, c' => ∃ c₁, e.Leads c c₁ ∧ Leads es c₁ c'

/-- The condition on a write. A batch of no operations has no bytes that decode
to one. A record is not longer than its length field can say, unless nothing of
it gets into the log. If a call of the append fails, less than the whole record
is in the log. A record that is in the log is well formed, and the flush and the
compactions that its write triggers end well. -/
structure DB.Atomic (db : DB) (fuel : Nat) (opts : WriteOptions) (batch : WriteBatch) (w : World)
    (fs : List Fault) : Prop where
  empty : batch.empty = true → WriteBatch.decodeOps batch.rep = []
  short : ∀ log w', db.Writes batch log →
    (log.addRecord batch.rep (opts.sync || db.options.syncWrites) w fs).state = some w' →
      batch.rep.length < 2 ^ 32 ∨
        w'.bytes (walPath db.dbPath) = w.bytes (walPath db.dbPath)
  failed : ∀ log, db.Writes batch log →
    (log.addRecord batch.rep (opts.sync || db.options.syncWrites)).MeetsFailure w fs →
      (log.addRecord batch.rep (opts.sync || db.options.syncWrites) w fs).AtReturn fun _ w' _ =>
        w'.bytes (walPath db.dbPath) ≠ (w.bytes (walPath db.dbPath)).map (· ++ frame batch.rep)
  logged : ∀ log, db.Writes batch log →
    ¬(log.addRecord batch.rep (opts.sync || db.options.syncWrites)).MeetsFailure w fs →
      (log.addRecord batch.rep (opts.sync || db.options.syncWrites) w fs).AtReturn fun _ w' fs' =>
        batch.WellFormed ∧ (db.options.backgroundCompaction = false →
          ((db.applied batch).maybeFlushLocked fuel w' fs').AtReturn fun r _ _ => r.1.ok = true)

/-- The condition on one step. Flushes and compactions that no write triggered,
and `Close`, may fail. -/
def Atomic (m : Machine) (op : Op) (fuel : Nat) (fs : List Fault) : Prop :=
  match op with
  | .write opts batch => ∀ db, m.db = some db → db.Atomic fuel opts batch m.world fs
  | .reopen _ => ∀ n, Fault.fail n ∉ fs
  | _ => True

/-- An append leaves its frame in the log as a whole, or nothing of it. -/
def Whole (m : Machine) (op : Op) (_ : Nat) (fs : List Fault) : Prop :=
  match op with
  | .write opts batch => ∀ db log w', m.db = some db → db.Writes batch log →
      (log.addRecord batch.rep (opts.sync || db.options.syncWrites) m.world fs).state = some w' →
        w'.bytes (walPath db.dbPath) = m.world.bytes (walPath db.dbPath) ∨
          w'.bytes (walPath db.dbPath) =
            (m.world.bytes (walPath db.dbPath)).map (· ++ frame batch.rep)
  | _ => True

/-- The condition on the steps that others follow. -/
def AtomicWhole (m : Machine) (op : Op) (fuel : Nat) (fs : List Fault) : Prop :=
  Atomic m op fuel fs ∧ Whole m op fuel fs

/-- A machine that stands for a map, but for the beginning of a frame at the end
of its log. -/
def Machine.Torn (c : Content) (d : Path) (b : Nat) (m : Machine) : Prop :=
  ∃ w rep n, rep.length < 2 ^ 32 ∧ n < (frame rep).length ∧
    Grew (walPath d) ((frame rep).take n) w m.world ∧ Machine.Stands (some c) False d b ⟨w, m.db⟩

section Showing

variable {c : Content} {d : Path} {w w' : World} {db : DB} {b : Nat} {m : Machine}

theorem Aligned.lists {tree : Tree} (ha : Aligned tree.levels w db) :
    Lists w db (shown db tree) := by
  refine Observes.of_returns fun fs hfs => ?_
  obtain ⟨snapshot, rest, hsub, hrun, hshows⟩ := newIterator_returns db w fun n hn => hfs.2 n hn
  refine ⟨_, rest, hsub, hrun, fun k => ?_⟩
  rw [← ha.scanned fun n hn => hfs.1 n hn]
  exact hshows k

/-- Bytes at the end of the log do not change what an open database shows. -/
theorem Standing.shows_grew {calm : Prop} {x : Bytes} (h : Standing (some c) calm d w db b)
    (hw : Grew (walPath d) x w w') (hopen : db.closed = false) :
    Answers w' db c ∧ Lists w' db c := by
  obtain ⟨tree, disk, hinv, -⟩ := h.inv
  obtain ⟨recs, -, hsound⟩ := hinv.recovers c rfl
  have hcontent : shown db tree = c := hsound.content
  have hpath := h.dbPath
  subst hpath
  have hwal : WalOf db w' := hinv.holds.wal.imp_right fun ⟨hlog, hfile⟩ => ⟨hlog, by
    rw [hw.bytes]
    simpa using hfile⟩
  have hnone : InvOn none tree disk w db b := ⟨hinv.holds, by simp⟩
  have ha := (hnone.onlyAt_wal hw.only hwal (by simp)).holds.aligned
  rw [← hcontent]
  exact ⟨ha.answers hopen, ha.lists⟩

theorem Machine.Torn.shows (h : m.Torn c d b) (hpath : d.getLast? ≠ some separator) :
    Shows d m c b := by
  obtain ⟨w, rep, n, hlen, hn, hw, hm⟩ := h
  refine ⟨fun db hdb hopen => ?_, hm.crashed.reopens_torn hpath hlen hn hw⟩
  rw [Machine.Stands, hdb] at hm
  exact Standing.shows_grew hm hw hopen

theorem Machine.Stands.torn (h : m.Stands (some c) False d b) : m.Torn c d b :=
  ⟨m.world, [], 0, by simp, by simp, Grew.refl _ _, h⟩

end Showing

section Steps

variable {c : Content} {d : Path} {w w' : World} {db : DB} {b t : Nat} {m m' : Machine}
  {fs rest : List Fault} {fuel : Nat}

/-- The machine stands for a map, at least but for a torn frame, and there is no
such frame where the appends are whole. -/
abbrev Machine.Left (whole : Prop) (c : Content) (d : Path) (b : Nat) (m : Machine) : Prop :=
  m.Torn c d b ∧ (whole → m.Stands (some c) False d b)

theorem Machine.Stands.left {whole : Prop} (h : m.Stands (some c) False d b) :
    m.Left whole c d b :=
  ⟨h.torn, fun _ => h⟩

/-- An append that leaves less than its frame in the log leaves the map alone. -/
theorem Standing.append_left {opts : WriteOptions} {batch : WriteBatch} {log : WriteAheadLog}
    {n : Nat} {db? : Option DB} (h : Standing (some c) False d w db b)
    (hset : db.Atomic fuel opts batch w fs) (hwrites : db.Writes batch log)
    (hend : (log.addRecord batch.rep (opts.sync || db.options.syncWrites) w fs).state = some w')
    (hw : Grew (walPath db.dbPath) ((frame batch.rep).take n) w w')
    (hless : w'.bytes (walPath db.dbPath) ≠
      (w.bytes (walPath db.dbPath)).map (· ++ frame batch.rep))
    (hdb : db? = some db ∨ db? = none) :
    Machine.Left (Whole ⟨w, some db⟩ (.write opts batch) fuel fs) c d (b - t) ⟨w', db?⟩ := by
  obtain ⟨tree, disk, hinv, -⟩ := h.inv
  obtain ⟨hopen, hfile⟩ := hwrites.logOpen hinv.holds.wal
  have hpath := h.dbPath
  have hinv' := hinv.mono (Nat.sub_le b t)
  have hstands : ∀ w, InvOn (some c) tree disk w db (b - t) →
      Machine.Stands (some c) False d (b - t) ⟨w, db?⟩ := by
    intro w hw
    have hst : Machine.Stands (some c) False d (b - t) ⟨w, some db⟩ :=
      ⟨hpath, ⟨tree, disk, hw, False.elim⟩, False.elim⟩
    rcases hdb with rfl | rfl
    · exact hst
    · exact hst.crashed
  have hsame : w'.bytes (walPath db.dbPath) = w.bytes (walPath db.dbPath) →
      Machine.Stands (some c) False d (b - t) ⟨w', db?⟩ := by
    intro hbytes
    refine hstands w' (hinv'.onlyAt_wal hw.only (Or.inr ⟨hopen, ?_⟩) ?_)
    · rwa [hbytes]
    · rw [hbytes]
      exact hinv'.recovers
  rcases hset.short log w' hwrites hend with hlen | hbytes
  · refine ⟨⟨w, batch.rep, n, hlen, ?_, ?_, hstands w hinv'⟩, fun hwhole => ?_⟩
    · by_contra hn
      rw [List.take_of_length_le (by omega)] at hw
      exact hless hw.bytes
    · rwa [← hpath]
    · exact hsame ((hwhole db log w' rfl hwrites hend).resolve_right hless)
  · exact (hsame hbytes).left

/-- A write whose record is well formed, and whose flush and compactions end
well, returns OK. -/
theorem finishWrite_ok {batch : WriteBatch} (hwell : batch.WellFormed)
    (hflush : db.options.backgroundCompaction = false →
      ((db.applied batch).maybeFlushLocked fuel w fs).AtReturn fun r _ _ => r.1.ok = true) :
    (db.finishWrite fuel batch w fs).AtReturn fun r _ _ => r.1.ok = true := by
  have hok : (batch.iterate WriteBatch.recorder []).1.ok = true := hwell
  simp only [finishWrite, applyBatchLocked_eq, hok, Bool.not_true, Bool.false_eq_true, if_false]
  cases hb : db.options.backgroundCompaction with
  | true =>
      rw [if_pos (show (db.applied batch).options.backgroundCompaction = true from hb)]
      exact hok
  | false =>
      rw [if_neg (by rw [show (db.applied batch).options.backgroundCompaction = false from hb]; simp)]
      exact hflush hb

/-- A write that meets the condition happens as a whole. -/
theorem Standing.atomic_write {opts : WriteOptions} {batch : WriteBatch}
    (h : Standing (some c) False d w db b) (hset : db.Atomic fuel opts batch w fs) :
    (db.write fuel opts batch w fs).Meets Env.hostile
      (fun r w' b' => ∃ c', (Event.returned (.write opts batch) (!db.closed) r.1).Leads c c' ∧
        Machine.Left (Whole ⟨w, some db⟩ (.write opts batch) fuel fs) c' d b' ⟨w', some r.2⟩)
      (fun w' b' => ∃ c', (Event.crashed (.write opts batch)).Leads c c' ∧
        Machine.Left (Whole ⟨w, some db⟩ (.write opts batch) fuel fs) c' d b' ⟨w', none⟩) b := by
  obtain ⟨tree, disk, hinv, -⟩ := h.inv
  have hpath := h.dbPath
  have happlied : ∀ {log w' t}, db.Writes batch log →
      (log.addRecord batch.rep (opts.sync || db.options.syncWrites) w fs).state = some w' →
      Grew (walPath db.dbPath) (frame batch.rep) w w' →
      InvOn (some (batch.after c)) tree disk w' (db.applied batch) (b - t) := by
    intro log w' t hwrites hend hw'
    obtain ⟨hopen, hfile⟩ := hwrites.logOpen hinv.holds.wal
    obtain ⟨data, hdata⟩ := Option.ne_none_iff_exists'.mp hfile
    have hlen : batch.rep.length < 2 ^ 32 := by
      refine (hset.short log w' hwrites hend).resolve_right fun hsame => ?_
      rw [hw'.bytes, hdata, Option.map_some, Option.some.injEq] at hsame
      have hlength := congrArg List.length hsame
      rw [List.length_append, frame_length] at hlength
      omega
    exact (hinv.applied hopen (fun _ _ => hlen) hw').mono (Nat.sub_le b t)
  refine meets_write hinv.holds.wal (fun s hs => ?_) (fun log w' t n hwrites _ hr hw' => ?_)
    (fun log s w' rest t n hwrites _ hr hs hw' => ?_) fun log w' rest t hwrites _ hr hw' => ?_
  · -- nothing is done
    have hst : Machine.Stands (some c) False d b ⟨w, some db⟩ := h
    refine ⟨c, ?_, hst.left⟩
    cases hclosed : db.closed with
    | true => rfl
    | false =>
        cases hempty : batch.empty with
        | true =>
            have hafter : batch.after c = c := by
              rw [WriteBatch.after, hset.empty hempty]
              rfl
            simp [Event.Leads, hafter]
        | false => simp [Event.Leads, hs, hempty]
  · -- the process dies in the append
    have hend : (log.addRecord batch.rep (opts.sync || db.options.syncWrites) w fs).state =
        some w' := by
      rw [hr]
      rfl
    by_cases hwhole : w'.bytes (walPath db.dbPath) =
        (w.bytes (walPath db.dbPath)).map (· ++ frame batch.rep)
    · have hfile := (hwrites.logOpen hinv.holds.wal).2
      have hcrashed := (happlied hwrites hend (grew_whole hfile hw' hwhole) (t := t)).crashed
      rw [show (db.applied batch).dbPath = d from hpath] at hcrashed
      have hst : Machine.Stands (some (batch.after c)) False d (b - t) ⟨w', none⟩ := hcrashed
      exact ⟨batch.after c, Or.inr rfl, hst.left⟩
    · exact ⟨c, Or.inl rfl, h.append_left hset hwrites hend hw' hwhole (Or.inr rfl)⟩
  · -- the append fails
    have hend : (log.addRecord batch.rep (opts.sync || db.options.syncWrites) w fs).state =
        some w' := by
      rw [hr]
      rfl
    have hmeets : (log.addRecord batch.rep (opts.sync || db.options.syncWrites)).MeetsFailure w fs := by
      by_contra hno
      obtain ⟨f, hfile⟩ := Option.ne_none_iff_exists'.mp hwrites.file
      have hok := (succeeds_addRecord hfile _ _).of_returned hr hno
      rw [show s = .OK from hok] at hs
      cases hs
    have hless := hset.failed log hwrites hmeets
    rw [hr] at hless
    refine ⟨c, ?_, h.append_left hset hwrites hend hw' hless (Or.inl rfl)⟩
    simp [Event.Leads, hwrites.running, hs]
  · -- the record is in the log
    have hend : (log.addRecord batch.rep (opts.sync || db.options.syncWrites) w fs).state =
        some w' := by
      rw [hr]
      rfl
    have hno : ¬(log.addRecord batch.rep (opts.sync || db.options.syncWrites)).MeetsFailure w fs := by
      intro hmeets
      have hless := hset.failed log hwrites hmeets
      rw [hr] at hless
      exact hless hw'.bytes
    have hlogged := hset.logged log hwrites hno
    rw [hr] at hlogged
    refine ((finishWrite_kept hpath (happlied hwrites hend hw') rest
      (Env.hostile_admits rest)).and_atReturn (finishWrite_ok hlogged.1 hlogged.2)).mono ?_ ?_
    · rintro r w'' b' ⟨hr, -, hok⟩
      have hst : Machine.Stands (some (batch.after c)) False d b' ⟨w'', some r.2⟩ := hr
      refine ⟨batch.after c, ?_, hst.left⟩
      simp [Event.Leads, hwrites.running, hok]
    · intro w'' b' hcrashed
      have hst : Machine.Stands (some (batch.after c)) False d b' ⟨w'', none⟩ := hcrashed
      exact ⟨batch.after c, Or.inr rfl, hst.left⟩

theorem leads_of_not_write {op : Op} (hop : ∀ opts batch, op ≠ .write opts batch)
    (accepting : Bool) (s : Status) (c : Content) :
    (Event.returned op accepting s).Leads c c ∧ (Event.crashed op).Leads c c := by
  cases op with
  | write opts batch => exact absurd rfl (hop opts batch)
  | _ => exact ⟨rfl, rfl⟩

/-- A section that meets the condition leads from one map to another. -/
theorem Machine.Stands.atomic {op : Op} (h : m.Stands (some c) False d b)
    (hpath : d.getLast? ≠ some separator) (hset : Atomic m op fuel fs) :
    (op.prog fuel d m.db m.world fs).Meets Env.hostile
      (fun r w' b' => ∃ c', (Event.returned op m.accepting r.1).Leads c c' ∧
        Machine.Left (Whole m op fuel fs) c' d b' ⟨w', r.2⟩)
      (fun w' b' => ∃ c', (Event.crashed op).Leads c c' ∧
        Machine.Left (Whole m op fuel fs) c' d b' ⟨w', none⟩) b := by
  by_cases hwrite : ∀ opts batch, op ≠ .write opts batch
  · refine (h.meets_kept hwrite hpath ?_).mono (fun r w' b' hr => ?_) fun w' b' hw => ?_
    · rintro options rfl
      exact hset
    · exact ⟨c, (leads_of_not_write hwrite _ _ c).1, Machine.Stands.left hr⟩
    · have hst : Machine.Stands (some c) False d b' ⟨w', none⟩ := hw
      exact ⟨c, (leads_of_not_write hwrite false .OK c).2, hst.left⟩
  · simp only [not_forall, not_not] at hwrite
    obtain ⟨opts, batch, rfl⟩ := hwrite
    obtain ⟨w, db?⟩ := m
    cases db? with
    | none => exact wp_pure ⟨c, rfl, h.left⟩ fs (Env.hostile_admits fs)
    | some db =>
        have hmeets := Standing.atomic_write h (hset db rfl)
        refine Outcome.Meets.bind trivial trivial (fun w' t hr => ?_) fun r w' rest t hr ht => ?_
        · rw [hr] at hmeets
          exact hmeets
        · rw [hr] at hmeets
          exact wp_pure (hmeets ht).2 rest (Env.hostile_admits rest)

/-- A step that meets the condition leads from one map to another. -/
theorem Step.atomic {A : Machine → Op → Nat → List Fault → Prop} {e : Event}
    (hA : ∀ m op fuel fs, A m op fuel fs → Atomic m op fuel fs)
    (hs : Step Env.hostile A d m e t m') (h : m.Stands (some c) False d b)
    (hpath : d.getLast? ≠ some separator) (ht : t ≤ b) :
    ∃ c', e.Leads c c' ∧
      Machine.Left (∀ m op fuel fs, A m op fuel fs → Whole m op fuel fs) c' d (b - t) m' := by
  cases hs with
  | @returned op fuel fs rest s db' w' t admits allowed run =>
      have hmeets := h.atomic hpath (hA _ _ _ _ allowed)
      rw [run] at hmeets
      obtain ⟨-, c', hleads, htorn, hstands⟩ := hmeets ht
      exact ⟨c', hleads, htorn, fun hwhole => hstands (hwhole _ _ _ _ allowed)⟩
  | @crashed op fuel fs w' t crashes admits allowed run =>
      have hmeets := h.atomic hpath (hA _ _ _ _ allowed)
      rw [run] at hmeets
      obtain ⟨c', hleads, htorn, hstands⟩ := hmeets ht
      exact ⟨c', hleads, htorn, fun hwhole => hstands (hwhole _ _ _ _ allowed)⟩
  | killed crashes =>
      have hst : Machine.Stands (some c) False d b ⟨m.world, none⟩ := h.crashed
      exact ⟨c, rfl, hst.left⟩

theorem leads_snoc {es : List Event} {e : Event} {c c' c'' : Content} (h : Leads es c c')
    (he : e.Leads c' c'') : Leads (es ++ [e]) c c'' := by
  induction es generalizing c with
  | nil =>
      obtain rfl : c' = c := h
      exact ⟨c'', he, rfl⟩
  | cons e' es ih =>
      obtain ⟨c₁, h₁, hrest⟩ := h
      exact ⟨c₁, h₁, ih hrest⟩

/-- A run whose steps meet the condition and leave no torn frame leads from one
map to another. -/
theorem Run.atomic {m₀ : Machine} {es : List Event} (hr : Run Env.hostile AtomicWhole d m₀ es t m)
    (h : m₀.Stands (some c) False d b) (hpath : d.getLast? ≠ some separator) (ht : t ≤ b) :
    ∃ c', Leads es c c' ∧ m.Stands (some c') False d (b - t) := by
  induction hr with
  | start => exact ⟨c, rfl, h⟩
  | step run last ih =>
      obtain ⟨c', hleads, hm⟩ := ih (by omega)
      obtain ⟨c'', hlast, -, hstands⟩ :=
        last.atomic (fun _ _ _ _ => And.left) hm hpath (by omega)
      rw [← Nat.sub_sub]
      exact ⟨c'', leads_snoc hleads hlast, hstands fun _ _ _ _ => And.right⟩

end Steps

section Runs

variable {d : Path} {w : World} {es : List Event} {e : Event} {t t' : Nat} {m m' : Machine}
  {db : DB}

instance : DecidablePred WriteBatch.WellFormed := fun batch =>
  inferInstanceAs (Decidable ((batch.iterate WriteBatch.recorder []).1.ok = true))

/-- The first write to a new database. -/
def firstWrite (batch : WriteBatch) :
    Option (Event × Nat × Machine × Event × Nat × Machine) := do
  let (e, t, m) ← Machine.perform 20 [0x64] ⟨⟨false, ∅⟩, none⟩ (.reopen {}) []
  let (e', t', m') ← m.perform 20 [0x64] (.write {} batch) []
  return (e, t, m, e', t', m')

theorem firstWrite_steps {A : Machine → Op → Nat → List Fault → Prop} {batch : WriteBatch}
    {e' : Event} (h : firstWrite batch = some (e, t, m, e', t', m'))
    (hA : A m (.write {} batch) 20 []) :
    Run Env.hostile AtomicWhole [0x64] ⟨⟨false, ∅⟩, none⟩ [e] t m ∧
      Step Env.hostile A [0x64] m e' t' m' := by
  simp only [firstWrite, Option.bind_eq_bind, Option.bind_eq_some_iff, Option.pure_def,
    Option.some.injEq, Prod.mk.injEq] at h
  obtain ⟨⟨e, t, m⟩, hopened, ⟨e', t', m'⟩, hwritten, rfl, rfl, rfl, rfl, rfl, rfl⟩ := h
  have hreopen : AtomicWhole ⟨⟨false, ∅⟩, none⟩ (.reopen {}) 20 [] :=
    ⟨fun _ => List.not_mem_nil, trivial⟩
  exact ⟨Step.run (Machine.step_of_perform (Env.hostile_admits _) hreopen (Or.inl trivial) hopened),
    Machine.step_of_perform (Env.hostile_admits _) hA (Or.inl trivial) hwritten⟩

/-- A write is answered with an error. -/
def Event.refused : Event → Bool
  | .returned (.write _ _) _ s => !s.ok
  | _ => false

theorem eq_of_refused {c c' : Content} (h : e.refused = true) (hleads : e.Leads c c') : c' = c := by
  unfold Event.refused at h
  split at h
  next opts batch accepting s =>
    cases accepting with
    | false => exact hleads
    | true =>
        have hs : s.ok = false := by simpa using h
        have hc' : c' = if s.ok then batch.after c else c := hleads
        rwa [hs] at hc'
  next => cases h

/-- A batch whose last operation is malformed. -/
def badBatch : WriteBatch :=
  (WriteBatch.put {} [0x61] [0x78]).setData ((WriteBatch.put {} [0x61] [0x78]).rep ++ [0x07])

end Runs

end ClomDB
