import ClomDB.FailingReads
import ClomDB.Rotation

/-!
# Flushes and compactions that fail

A flush or a compaction that fails leaves the map alone, for the running
database and for the one that an `Open` after a crash would give, and so does
any sequence of them. The map is lost elsewhere: by a write that reaches the log
in part or without being applied, by a failing `Open`, and by file numbers that
come round to a live table.
-/

namespace ClomDB

open FaultProgram FileSystem FileSystem.World SSTable DB WriteAheadLog

/-- A section that only flushes and compacts. -/
def Op.Tends : Op → Prop
  | .flush | .background | .compact _ => True
  | _ => False

/-- Such a section has returned. -/
def Event.Tends : Event → Prop
  | .returned op _ _ => op.Tends
  | _ => False

instance : DecidablePred Op.Tends
  | .flush | .background | .compact _ => isTrue trivial
  | .write _ _ | .closeBegin | .closeEnd | .reopen _ => isFalse id

instance : DecidablePred Event.Tends
  | .returned op _ _ => inferInstanceAs (Decidable op.Tends)
  | .crashed _ | .killed => isFalse id

/-- The record of a write gets into the log: the process does not die in the
append, and none of its calls fails. -/
def DB.Logs (db : DB) (opts : WriteOptions) (batch : WriteBatch) (w : World) (fs : List Fault) :
    Prop :=
  ∀ log, db.wal = some log →
    (∀ w' t, log.addRecord batch.rep (opts.sync || db.options.syncWrites) w fs ≠ .crashed w' t) ∧
      ¬(log.addRecord batch.rep (opts.sync || db.options.syncWrites)).MeetsFailure w fs

/-- The condition on one step: no call fails in an append to the log or in an
`Open`. In flushes, in compactions and in `Close` any of them may. -/
def FailsTending (m : Machine) (op : Op) (_ : Nat) (fs : List Fault) : Prop :=
  match op with
  | .write opts batch => ∀ db, m.db = some db → batch.empty = false → db.closed = false →
      db.Logs opts batch m.world fs
  | .reopen _ => ∀ n, Fault.fail n ∉ fs
  | _ => True

/-- `Open` of the directory ends well, and the database it gives answers with the map. -/
def Reopens (d : Path) (w : World) (c : Content) (b : Nat) : Prop :=
  ∀ options, ¬Refused options w → wp Env.calm (openObject d options)
    (fun r w' _ => r.1.ok = true ∧ ∃ db, r.2 = some db ∧ Answers w' db c) (fun _ _ => False) w b

section Content

variable {c : Content} {d : Path} {w : World} {db : DB} {b : Nat} {calm : Prop}

theorem Standing.mono {c? : Option Content} {calm' : Prop} (h : Standing c? calm d w db b)
    (hcalm : calm' → calm) : Standing c? calm' d w db b := by
  obtain ⟨tree, disk, hinv, hsettled⟩ := h.inv
  exact ⟨h.dbPath, ⟨tree, disk, hinv, fun hc => hsettled (hcalm hc)⟩, fun hc => h.log (hcalm hc)⟩

theorem Machine.Stands.mono {c? : Option Content} {calm' : Prop} {m : Machine}
    (h : m.Stands c? calm d b) (hcalm : calm' → calm) : m.Stands c? calm' d b := by
  obtain ⟨w, db?⟩ := m
  cases db? with
  | none => exact h
  | some db => exact Standing.mono h hcalm

/-- Less may be spent than is there. -/
theorem Crashed.spend {c? : Option Content} (h : Crashed c? d w b) {b' : Nat} (hb : b' ≤ b) :
    Crashed c? d w b' := by
  obtain ⟨disk, hrest⟩ := h
  exact ⟨disk, hrest.mono hb⟩

theorem Machine.Stands.spend {c? : Option Content} {m : Machine} (h : m.Stands c? calm d b)
    {b' : Nat} (hb : b' ≤ b) : m.Stands c? calm d b' := by
  obtain ⟨w, db?⟩ := m
  cases db? with
  | none => exact Crashed.spend h hb
  | some db =>
      have hst : Standing c? calm d w db b := h
      obtain ⟨tree, disk, hinv, hsettled⟩ := hst.inv
      exact ⟨hst.dbPath, ⟨tree, disk, hinv.mono hb, hsettled⟩, hst.log⟩

/-- An open database answers with the map it stands for. -/
theorem Standing.answers (h : Standing (some c) calm d w db b) (hopen : db.closed = false) :
    Answers w db c := by
  obtain ⟨tree, disk, hinv, -⟩ := h.inv
  obtain ⟨recs, -, hs⟩ := hinv.recovers c rfl
  have hshown : shown db tree = c := hs.content
  rw [← hshown]
  exact hinv.holds.aligned.answers hopen

/-- What a crash leaves can be opened again. -/
theorem Crashed.reopens (h : Crashed (some c) d w b) (hpath : d.getLast? ≠ some separator) :
    Reopens d w c b := by
  intro options hallowed
  refine wp_openObject trivial (fun hf : False => hf.elim) (Or.inr hpath) h options
    (fun hc => absurd hc (by simp [Env.calm])) fun s db? w' b' hs hstands _ => ?_
  obtain ⟨hok, db, rfl, hopen⟩ := hs.resolve_right (by simp [hallowed])
  exact ⟨hok, db, rfl, Standing.answers hstands hopen⟩

theorem Answers.eq_seen (h : Answers w db c) (hopen : db.closed = false) : c = db.seen w [] := by
  funext key
  obtain ⟨a, ha, ha'⟩ := (h key).both (observes_get hopen key)
  exact answer_inj (ha.symm.trans ha')

end Content

section Steps

variable {c : Content} {d : Path} {m m' : Machine} {w w' : World} {db db' : DB} {b t : Nat}
  {fs rest : List Fault} {s : Status}

/-- The database stands for a map, whatever the status is. -/
abbrev KeptBy (c : Content) (d : Path) (r : Status × DB) (w : World) (b : Nat) : Prop :=
  Standing (some c) False d w r.2 b

/-- What is left of a database when a logged write is over. -/
theorem finishWrite_kept {fuel : Nat} {batch : WriteBatch} {tree disk : Tree}
    (hpath : db.dbPath = d) (h : InvOn (some c) tree disk w (db.applied batch) b) :
    wp Env.hostile (db.finishWrite fuel batch) (KeptBy c d) (Crashed (some c) d) w b := by
  refine wp_finishWrite trivial h (Or.inl trivial) (fun w' b' _ hw' => ?_)
    fun s db' w' b' tree' disk' _ h' hshell _ _ => ?_
  · rwa [hpath] at hw'
  · exact ⟨hshell.dbPath.trans hpath, ⟨tree', disk', h', fun hno => hno.elim⟩, fun hno => hno.elim⟩

/-- A write of the batch gets to its append. -/
structure DB.Writes (db : DB) (batch : WriteBatch) (log : WriteAheadLog) : Prop where
  filled : batch.empty = false
  running : db.closed = false
  wal : db.wal = some log
  file : log.file ≠ none

theorem DB.Writes.logOpen {batch : WriteBatch} {log : WriteAheadLog} (h : db.Writes batch log)
    (hwal : WalOf db w) : db.LogOpen ∧ w.bytes (walPath db.dbPath) ≠ none := by
  refine hwal.resolve_left fun hclosed => ?_
  rw [h.wal] at hclosed
  obtain rfl := Option.some.inj hclosed
  exact h.file rfl

/-- A prefix of a frame that is as long as the frame is the frame. -/
theorem grew_whole {p : Path} {data : Bytes} {n : Nat} (hfile : w.bytes p ≠ none)
    (hw : Grew p ((frame data).take n) w w')
    (hwhole : w'.bytes p = (w.bytes p).map (· ++ frame data)) : Grew p (frame data) w w' := by
  obtain ⟨old, hold⟩ := Option.ne_none_iff_exists'.mp hfile
  rw [hw.bytes, hold] at hwhole
  rwa [List.append_cancel_left (Option.some.inj hwhole)] at hw

/-- An execution of a write: it does nothing, or the process dies in the append,
or the append fails, or the record is in the log and the write goes on. -/
theorem meets_write {opts : WriteOptions} {batch : WriteBatch} {fuel : Nat}
    {Q : Status × DB → World → Nat → Prop} {C : World → Nat → Prop} (hwal : WalOf db w)
    (hquiet : ∀ s : Status, s.ok = batch.empty → Q (s, db) w b)
    (hdies : ∀ log w' t n, db.Writes batch log → t ≤ b →
      log.addRecord batch.rep (opts.sync || db.options.syncWrites) w fs = .crashed w' t →
        Grew (walPath db.dbPath) ((frame batch.rep).take n) w w' → C w' (b - t))
    (hfail : ∀ log s w' rest t n, db.Writes batch log → t ≤ b →
      log.addRecord batch.rep (opts.sync || db.options.syncWrites) w fs =
        .returned (s, log) w' rest t → s.ok = false →
          Grew (walPath db.dbPath) ((frame batch.rep).take n) w w' → Q (s, db) w' (b - t))
    (hlogged : ∀ log w' rest t, db.Writes batch log → t ≤ b →
      log.addRecord batch.rep (opts.sync || db.options.syncWrites) w fs =
        .returned (.OK, log) w' rest t → Grew (walPath db.dbPath) (frame batch.rep) w w' →
          (db.finishWrite fuel batch w' rest).Meets Env.hostile Q C (b - t)) :
    (db.write fuel opts batch w fs).Meets Env.hostile Q C b := by
  have hpure : ∀ s : Status, s.ok = batch.empty →
      ((pure (s, db) : Prog World (Status × DB)) w fs).Meets Env.hostile Q C b := fun s hs =>
    wp_pure (hquiet s hs) fs (Env.hostile_admits fs)
  cases hne : batch.empty with
  | true =>
      rw [DB.write, if_pos hne]
      exact hpure .OK hne.symm
  | false =>
  cases hnc : db.closed with
  | true =>
      rw [DB.write, if_neg (by rw [hne]; simp), if_pos hnc]
      exact hpure _ hne.symm
  | false =>
  rcases hwal with hwal | ⟨hopen, -⟩
  · have hsame : { db with wal := some ⟨none, walPath db.dbPath⟩ } = db := by rw [← hwal]
    rw [write_eq hne hnc hwal, WriteAheadLog.addRecord, Prog.bind_of_returned rfl]
    simp only [hsame]
    exact hpure _ hne.symm
  · have hsame : { db with wal := some ⟨some ⟨walPath db.dbPath, []⟩, walPath db.dbPath⟩ } = db := by
      rw [← show db.wal = _ from hopen]
    have hwrites : db.Writes batch ⟨some ⟨walPath db.dbPath, []⟩, walPath db.dbPath⟩ :=
      ⟨hne, hnc, hopen, Option.some_ne_none _⟩
    -- how the append ends, whatever the calls in it do
    have hends : wp Env.hostile (WriteAheadLog.addRecord
        ⟨some ⟨walPath db.dbPath, []⟩, walPath db.dbPath⟩ batch.rep (opts.sync || db.options.syncWrites))
        (fun r w' _ => r.2 = ⟨some ⟨walPath db.dbPath, []⟩, walPath db.dbPath⟩ ∧
          (r.1 = .OK ∧ Grew (walPath db.dbPath) (frame batch.rep) w w' ∨ r.1.ok = false ∧
            ∃ n, Grew (walPath db.dbPath) ((frame batch.rep).take n) w w'))
        (fun w' _ => ∃ n, Grew (walPath db.dbPath) ((frame batch.rep).take n) w w') w b :=
      wp_addRecord rfl (Or.inl trivial) (fun w' hw' _ => ⟨rfl, Or.inl ⟨rfl, hw'⟩⟩)
        (fun _ s n w' hs hw' => ⟨rfl, Or.inr ⟨hs, n, hw'⟩⟩) fun _ n w' hw' => ⟨n, hw'⟩
    rw [write_eq hne hnc hopen]
    refine Outcome.Meets.bind trivial trivial (fun w' t hr ht => ?_) fun r w' rest t hr ht => ?_
    · obtain ⟨n, hw'⟩ := hends.of_crashed (Env.hostile_admits fs) hr ht
      exact hdies _ w' t n hwrites ht hr hw'
    · obtain ⟨hlog, hhow⟩ := hends.of_returned (Env.hostile_admits fs) hr ht
      obtain ⟨s, log⟩ := r
      obtain rfl : log = _ := hlog
      simp only [hsame]
      rcases hhow with ⟨rfl, hw'⟩ | ⟨hs, n, hw'⟩
      · exact hlogged _ w' rest t hwrites ht hr hw'
      · have hs' : s.ok = false := hs
        simp only [hs', Bool.not_false, if_true]
        exact wp_pure (hfail _ s w' rest t n hwrites ht hr hs hw') rest (Env.hostile_admits rest)

/-- A write whose record gets into the log leaves a database that stands for a
map, also when the flush or the compaction it triggers fails. If the process dies
in them the batch is in the map. -/
theorem Standing.write_logged {opts : WriteOptions} {batch : WriteBatch} (fuel : Nat)
    (h : Standing (some c) False d w db b) (hlen : batch.rep.length < 2 ^ 32)
    (hlogs : batch.empty = false → db.closed = false → db.Logs opts batch w fs) :
    (db.write fuel opts batch w fs).Meets Env.hostile (fun r w b => ∃ c', KeptBy c' d r w b)
      (Crashed (some (batch.after c)) d) b := by
  obtain ⟨tree, disk, hinv, -⟩ := h.inv
  refine meets_write hinv.holds.wal (fun s _ => ⟨c, h⟩) (fun log w' t n hwrites _ hr _ => ?_)
    (fun log s w' rest t n hwrites _ hr hs _ => ?_) fun log w' rest t hwrites _ hr hw' => ?_
  · exact absurd hr ((hlogs hwrites.filled hwrites.running log hwrites.wal).1 w' t)
  · obtain ⟨f, hfile⟩ := Option.ne_none_iff_exists'.mp hwrites.file
    have hok := (succeeds_addRecord hfile _ _).of_returned hr
      (hlogs hwrites.filled hwrites.running log hwrites.wal).2
    rw [show s = .OK from hok] at hs
    cases hs
  · obtain ⟨hopen, -⟩ := hwrites.logOpen hinv.holds.wal
    have happlied := (hinv.applied hopen (fun _ _ => hlen) hw').mono (Nat.sub_le b t)
    exact (finishWrite_kept h.dbPath happlied rest (Env.hostile_admits rest)).mono
      (fun _ _ _ hr => ⟨_, hr⟩) fun _ _ => id

/-- Calls succeed, and the process may die in any of them. -/
def mortal : Env := ⟨False, True, True, True⟩

/-- The machine stands for a map, whatever the status is. -/
abbrev Leaves (c : Content) (d : Path) (r : Status × Option DB) (w : World) (b : Nat) : Prop :=
  Machine.Stands (some c) False d b ⟨w, r.2⟩

/-- An `Open` in which no call fails keeps the map, also when the process dies in it. -/
theorem Machine.Stands.wp_reopen (h : m.Stands (some c) False d b)
    (hpath : d.getLast? ≠ some separator) (options : Options) (fuel : Nat) :
    wp mortal (Op.prog fuel d (.reopen options) m.db) (Leaves c d) (Crashed (some c) d) m.world b := by
  have hopened : ∀ w, Crashed (some c) d w b →
      wp mortal (openObject d options) (Leaves c d) (Crashed (some c) d) w b :=
    fun w hw => wp_openObject trivial (fun hf : False => hf.elim) (Or.inr hpath) hw options
      (fun _ _ _ => id) fun _ _ _ _ _ h' _ => h'.mono fun hno => hno.elim
  obtain ⟨w, db?⟩ := m
  cases db? with
  | none => exact hopened w h
  | some db => exact wp_ite (fun _ => hopened w (Standing.crashed h)) fun _ => wp_pure h

/-- A section other than a write and `Open` keeps the map whatever fails in it. -/
theorem Machine.Stands.wp_spared (h : m.Stands (some c) False d b) {op : Op}
    (hwrite : ∀ opts batch, op ≠ .write opts batch) (hreopen : ∀ options, op ≠ .reopen options)
    (hpath : d.getLast? ≠ some separator) (fuel : Nat) :
    wp Env.hostile (op.prog fuel d m.db) (Leaves c d) (Crashed (some c) d) m.world b := by
  have hcalm : ¬Env.hostile.fails → False := fun hno => hno trivial
  refine wp_mono ((h.mono hcalm).wp_kept trivial trivial hwrite
    (fun options hop => absurd hop (hreopen options)) (Or.inr hpath) fuel) (fun r w' b' h' => ?_)
    fun _ _ => id
  have hstands := h'.stands
  rw [effect_of_not_write hwrite] at hstands
  exact hstands.mono fun hno => hno.elim

/-- A section other than a write keeps the map if no call fails in it when it is
an `Open`. -/
theorem Machine.Stands.meets_kept (h : m.Stands (some c) False d b) {op : Op} {fuel : Nat}
    (hwrite : ∀ opts batch, op ≠ .write opts batch) (hpath : d.getLast? ≠ some separator)
    (hfs : ∀ options, op = .reopen options → ∀ n, Fault.fail n ∉ fs) :
    (op.prog fuel d m.db m.world fs).Meets Env.hostile (Leaves c d) (Crashed (some c) d) b := by
  by_cases hreopen : ∀ options, op ≠ .reopen options
  · exact h.wp_spared hwrite hreopen hpath fuel fs (Env.hostile_admits fs)
  · simp only [not_forall, not_not] at hreopen
    obtain ⟨options, rfl⟩ := hreopen
    exact (h.wp_reopen hpath options fuel fs
      ⟨fun n hn => hfs options rfl n hn, fun _ _ => trivial⟩).hostile

/-- The map that a section is working towards. -/
def Op.leaves : Op → Content → Content
  | .write _ batch, c => batch.after c
  | _, c => c

theorem Op.leaves_of_not_write {op : Op} (hop : ∀ opts batch, op ≠ .write opts batch)
    (c : Content) : op.leaves c = c := by
  cases op with
  | write opts batch => exact absurd rfl (hop opts batch)
  | _ => rfl

/-- A section that fails in nothing but flushes and compactions leaves a map, and
if the process dies in it the map it was working towards. -/
theorem Machine.Stands.meets (h : m.Stands (some c) False d b)
    (hpath : d.getLast? ≠ some separator) {op : Op} {fuel : Nat} (hop : op.Regular)
    (hallowed : FailsTending m op fuel fs) :
    (op.prog fuel d m.db m.world fs).Meets Env.hostile (fun r w b => ∃ c', Leaves c' d r w b)
      (Crashed (some (op.leaves c)) d) b := by
  by_cases hwrite : ∀ opts batch, op ≠ .write opts batch
  · rw [Op.leaves_of_not_write hwrite]
    refine (h.meets_kept hwrite hpath ?_).mono (fun _ _ _ hr => ⟨c, hr⟩) fun _ _ => id
    rintro options rfl
    exact hallowed
  · simp only [not_forall, not_not] at hwrite
    obtain ⟨opts, batch, rfl⟩ := hwrite
    obtain ⟨w, db?⟩ := m
    cases db? with
    | none => exact wp_pure ⟨c, h⟩ fs (Env.hostile_admits fs)
    | some db =>
        have hmeets := Standing.write_logged fuel h hop (hallowed db rfl)
        refine Outcome.Meets.bind trivial trivial (fun w' t hr => ?_) fun r w' rest t hr ht => ?_
        · rw [hr] at hmeets
          exact hmeets
        · rw [hr] at hmeets
          exact wp_pure (hmeets ht).2 rest (Env.hostile_admits rest)

/-- A step that fails in nothing but flushes and compactions leaves a map. -/
theorem Step.keepsMap {e : Event} (hs : Step Env.hostile FailsTending d m e t m')
    (h : m.Stands (some c) False d b) (hpath : d.getLast? ≠ some separator)
    (hregular : e.Regular) (ht : t ≤ b) : ∃ c', m'.Stands (some c') False d (b - t) := by
  cases hs with
  | @returned op fuel fs rest s db' w' t admits allowed run =>
      have hmeets := h.meets hpath hregular allowed
      rw [run] at hmeets
      exact (hmeets ht).2
  | @crashed op fuel fs w' t crashes admits allowed run =>
      have hmeets := h.meets hpath hregular allowed
      rw [run] at hmeets
      exact ⟨op.leaves c, hmeets ht⟩
  | killed crashes => exact ⟨c, h.crashed⟩

/-- A run that fails in nothing but flushes and compactions leaves a map. -/
theorem Run.keepsMap {m₀ : Machine} {es : List Event} (hr : Run Env.hostile FailsTending d m₀ es t m)
    (h : m₀.Stands (some c) False d b) (hpath : d.getLast? ≠ some separator)
    (hregular : ∀ e ∈ es, e.Regular) (ht : t ≤ b) : ∃ c', m.Stands (some c') False d (b - t) := by
  induction hr with
  | start => exact ⟨c, h⟩
  | step run last ih =>
      obtain ⟨c', hm⟩ := ih (fun e he => hregular e (List.mem_append_left _ he)) (by omega)
      rw [← Nat.sub_sub]
      exact last.keepsMap hm hpath (hregular _ (List.mem_append_right _ List.mem_cons_self))
        (by omega)

/-- A flush or a compaction leaves the shell of the object alone. -/
theorem shell_tends {op : Op} (hop : op.Tends) (fuel : Nat) (w : World) (b : Nat) :
    wp Env.hostile (op.prog fuel d (some db))
      (fun r _ _ => ∃ db', r.2 = some db' ∧ SameShell db db') (fun _ _ => True) w b := by
  cases op with
  | flush =>
      exact wp_bind (wp_mono (shell_flush fuel db w b) (fun r _ _ h => wp_pure ⟨r.2, rfl, h⟩)
        fun _ _ => id)
  | background =>
      refine wp_bind ?_
      rw [backgroundIteration]
      refine wp_ite (fun _ => wp_pure (wp_pure ⟨db, rfl, SameShell.refl db⟩)) fun _ => ?_
      have hidle : SameShell db { db with bgWorkRequested := false } := ⟨rfl, rfl, rfl, rfl⟩
      exact wp_bind (wp_mono (shell_flush fuel _ w b)
        (fun r _ _ h => wp_pure (wp_pure ⟨r.2, rfl, hidle.trans h⟩)) fun _ _ => id)
  | compact level =>
      exact wp_bind (wp_mono (keeps_compactLocked level w b)
        (fun r _ _ h => wp_pure ⟨r.2, rfl, h.shell⟩) fun _ _ => id)
  | write | closeBegin | closeEnd | reopen => exact hop.elim

/-- A flush or a compaction keeps the map whatever fails in it. -/
theorem Step.tends {A : Machine → Op → Nat → List Fault → Prop} {e : Event}
    (hs : Step Env.hostile A d m e t m') (h : m.Stands (some c) False d b)
    (hpath : d.getLast? ≠ some separator) (htends : e.Tends) (ht : t ≤ b) :
    m'.Stands (some c) False d (b - t) ∧ ∀ db, m.db = some db →
      ∃ db', m'.db = some db' ∧ SameShell db db' := by
  cases hs with
  | @returned op fuel fs rest s db' w' t admits allowed run =>
      have hop : op.Tends := htends
      have hwrite : ∀ opts batch, op ≠ .write opts batch := by
        rintro opts batch rfl
        exact hop
      have hreopen : ∀ options, op ≠ .reopen options := by
        rintro options rfl
        exact hop
      refine ⟨(h.wp_spared hwrite hreopen hpath fuel).of_returned admits run ht, fun db hdb => ?_⟩
      rw [hdb] at run
      exact (shell_tends hop fuel m.world b).of_returned admits run ht
  | crashed => exact htends.elim
  | killed => exact htends.elim

/-- Any sequence of flushes and compactions keeps the map whatever fails in it. -/
theorem Run.tends {A : Machine → Op → Nat → List Fault → Prop} {m₀ : Machine} {es : List Event}
    (hr : Run Env.hostile A d m₀ es t m) (h : m₀.Stands (some c) False d b)
    (hpath : d.getLast? ≠ some separator) (htends : ∀ e ∈ es, e.Tends) (ht : t ≤ b) :
    m.Stands (some c) False d (b - t) ∧ ∀ db, m₀.db = some db →
      ∃ db', m.db = some db' ∧ SameShell db db' := by
  induction hr with
  | start => exact ⟨h, fun db hdb => ⟨db, hdb, SameShell.refl db⟩⟩
  | step run last ih =>
      obtain ⟨hm, hshell⟩ := ih (fun e he => htends e (List.mem_append_left _ he)) (by omega)
      obtain ⟨hm', hshell'⟩ := last.tends hm hpath
        (htends _ (List.mem_append_right _ List.mem_cons_self)) (by omega)
      rw [← Nat.sub_sub]
      refine ⟨hm', fun db hdb => ?_⟩
      obtain ⟨db₁, hdb₁, h₁⟩ := hshell db hdb
      obtain ⟨db₂, hdb₂, h₂⟩ := hshell' db₁ hdb₁
      exact ⟨db₂, hdb₂, h₁.trans h₂⟩

end Steps

section Runs

variable {d : Path} {w : World} {es es' : List Event} {t t' : Nat} {m m' : Machine} {db : DB}

/-- An append to a calm file system is not the last thing the process does. -/
theorem addRecord_alive (log : WriteAheadLog) (data : Bytes) (sync : Bool) (w w' : World) (t : Nat) :
    log.addRecord data sync w [] ≠ .crashed w' t := by
  have hwp : ∀ b, wp Env.calm (log.addRecord data sync) (fun _ _ _ => True) (fun _ _ => False) w b := by
    intro b
    rw [WriteAheadLog.addRecord]
    cases hfile : log.file with
    | none => exact wp_pure trivial
    | some f =>
        refine wp_bind (wp_callIf (Or.inl trivial) (fun _ => ?_) (fun h => h.elim) fun h => h.elim)
        refine wp_ite (fun _ => wp_pure trivial) fun _ => wp_ite (fun _ => ?_) fun _ => ?_
        · rw [WriteAheadLog.sync]
          refine wp_bind (wp_call ?_ (fun h => h.elim) fun h => h.elim)
          refine wp_ite (fun _ => wp_pure trivial) fun _ =>
            wp_bind (wp_call ?_ (fun h => h.elim) fun h => h.elim)
          exact wp_ite (fun _ => wp_pure trivial) fun _ => wp_pure trivial
        · refine wp_bind (wp_call ?_ (fun h => h.elim) fun h => h.elim)
          exact wp_ite (fun _ => wp_pure trivial) fun _ => wp_pure trivial
  exact fun hr => (hwp t).of_crashed (Env.admits_nil _) hr (Nat.le_refl t)

theorem failsTending_nil (m : Machine) (op : Op) (fuel : Nat) : FailsTending m op fuel [] := by
  cases op with
  | write opts batch =>
      exact fun db _ _ _ log _ => ⟨addRecord_alive log _ _ m.world,
        Prog.not_meetsFailure fun _ => List.not_mem_nil⟩
  | reopen options => exact fun _ => List.not_mem_nil
  | _ => trivial

/-- A write whose `fsync` fails. -/
def lostSync : Option (List Event × Nat × Machine) :=
  Machine.execute 20 [0x64] ⟨⟨false, ∅⟩, none⟩
    [(.reopen {}, []), (.write ⟨true⟩ (WriteBatch.put {} [0x61] [0x78]), [.ok, .ok, .fail 1])]

/-- An open that returned a database whose lookup of `key` says `r`. -/
def opensSeeing (key : Bytes) (r : Option Bytes) : Outcome World (Status × Option DB) → Bool
  | .returned (_, some db) w _ t => decide (t = 0 ∧ db.closed = false ∧ db.seen w [] key = r)
  | _ => false

/-- The default options open a directory that exists. -/
theorem allowed_default (h : w.directory = true) : ¬Refused {} w := by
  rintro (⟨hmissing, -⟩ | ⟨-, herror⟩)
  · rw [h] at hmissing
    cases hmissing
  · cases herror

theorem Reopens.seen {c : Content} {key : Bytes} {r : Option Bytes} (h : Reopens d w c 0)
    (hdirectory : w.directory = true)
    (hopened : opensSeeing key r (openObject d {} w []) = true) : c key = r := by
  unfold opensSeeing at hopened
  split at hopened
  next s db w' rest t hr =>
    obtain ⟨rfl, hopen, hseen⟩ := of_decide_eq_true hopened
    obtain ⟨-, db', hdb', hc⟩ := (h {} (allowed_default hdirectory)).of_returned
      (Env.admits_nil _) hr (Nat.le_refl 0)
    cases hdb'
    rw [hc.eq_seen hopen]
    exact hseen
  next => cases hopened

/-- The log of one write. -/
def oneRecord (key value : UInt8) : Bytes := frame (WriteBatch.put {} [key] [value]).rep

theorem frame_logged {data : Bytes} {w : World} {p : Path} (hlen : data.length < 2 ^ 32)
    (h : w.bytes p = some (frame data)) : ∃ recs, Logged recs (w.bytes p) := by
  refine ⟨[data], ⟨fun r hr => ?_, Or.inl ?_⟩⟩
  · rwa [List.mem_singleton.mp hr]
  · rw [h]
    simp

theorem oneRecord_logged {key value : UInt8} {w : World} {p : Path}
    (h : w.bytes p = some (oneRecord key value)) : ∃ recs, Logged recs (w.bytes p) := by
  have hlength : (WriteBatch.put {} [key] [value]).rep.length = 5 := rfl
  exact frame_logged (by rw [hlength]; decide) h

/-- Flushes and compactions keep every answer after steps with `A`, as long as
the ticks that are spent have `bounded`. -/
def TendingKeeps (A : Machine → Op → Nat → List Fault → Prop) (bounded : Nat → Prop) : Prop :=
  ∀ (d : Path) (w : World) (es es' : List Event) (t t' : Nat) (m m' : Machine) (db : DB),
    Blank d w → d.getLast? ≠ some separator → Run Env.hostile A d ⟨w, none⟩ es t m →
      (∀ e ∈ es, e.Regular) → m.db = some db → db.closed = false →
      (∃ recs, Logged recs (m.world.bytes (walPath d))) → Run Env.hostile Free d m es' t' m' →
      (∀ e ∈ es', e.Tends) → bounded (t + t') → ∃ c db', m'.db = some db' ∧
        Answers m.world db c ∧ Answers m'.world db' c ∧ Reopens d m'.world c 0

/-- A flush that takes the number of a live table changes its value. -/
theorem counter_changes : ¬TendingKeeps FailsTending fun _ => True := by
  intro hclaim
  obtain ⟨es, m, db, hr, hdb, es', t, hregular, hrun⟩ :=
    run_round (A := FailsTending) failsTending_nil (fun _ _ _ => trivial) 1
  have hbefore : twoWritesMeets (fun m db => decide ((db.withNext 1).closed = false ∧
      (db.withNext 1).seen m.world [] [0x61] = some [0x78] ∧
      m.world.bytes (walPath [0x64]) = some (oneRecord 0x62 0x79))) = true := by decide +kernel
  have hafter : secondFlushMeets overwritten = true := by decide +kernel
  have htends : (twoWritesMeets fun m db => (secondFlush m db).any fun r =>
      decide (∀ e ∈ r.1, e.Tends)) = true := by decide +kernel
  rw [twoWritesMeets_iff hr hdb] at hbefore htends
  rw [secondFlushMeets, twoWritesMeets_iff hr hdb] at hafter
  obtain ⟨hopen, hx, hlog⟩ := of_decide_eq_true hbefore
  obtain ⟨⟨es'', t', m'⟩, hr', hafter⟩ := (Option.any_eq_true ..).mp hafter
  obtain ⟨db', hdb', hafter⟩ := (Option.any_eq_true ..).mp hafter
  obtain ⟨hopen', hy⟩ := overwritten_seen hafter
  rw [hr'] at htends
  have hflush : Run Env.hostile Free [0x64] ⟨m.world, some (db.withNext 1)⟩ es'' t' m' :=
    Machine.run_of_execute (fun _ _ => Env.hostile_admits _) (fun _ _ _ => trivial)
      (Or.inl trivial) hr'
  obtain ⟨c, db₁, hdb₁, hc, hc', -⟩ := hclaim [0x64] ⟨false, ∅⟩ es' es'' t t' _ m' _ ⟨rfl, rfl⟩
    (by decide) hrun hregular rfl hopen (oneRecord_logged hlog) hflush (of_decide_eq_true htends)
    trivial
  rw [hdb'] at hdb₁
  cases hdb₁
  rw [← hc.eq_seen hopen] at hx
  rw [← hc'.eq_seen hopen', hx] at hy
  cases hy

/-- A write that was logged and then refused comes back after a crash. -/
theorem lostSync_changes : ¬TendingKeeps Free fun t => t + 1 < 2 ^ 64 := by
  intro hclaim
  have hbefore : (lostSync.any fun r => decide (r.2.1 = 0 ∧ (∀ e ∈ r.1, e.Regular) ∧
      r.2.2.world.bytes (walPath [0x64]) = some (oneRecord 0x61 0x78) ∧
      r.2.2.world.directory = true) && r.2.2.db.any fun db => decide (db.closed = false ∧
        db.seen r.2.2.world [] [0x61] = none)) = true := by decide +kernel
  have hafter : (lostSync.any fun r => opensSeeing [0x61] (some [0x78])
      (openObject [0x64] {} r.2.2.world [])) = true := by decide +kernel
  obtain ⟨⟨es, t, m⟩, hr, hm⟩ := (Option.any_eq_true ..).mp hbefore
  rw [hr] at hafter
  rw [Bool.and_eq_true] at hm
  obtain ⟨ht, hregular, hlog, hdirectory⟩ := of_decide_eq_true hm.1
  obtain ⟨db, hdb, hm⟩ := (Option.any_eq_true ..).mp hm.2
  obtain ⟨hopen, hx⟩ := of_decide_eq_true hm
  have hrun : Run Env.hostile Free [0x64] ⟨⟨false, ∅⟩, none⟩ es t m :=
    Machine.run_of_execute (fun _ _ => Env.hostile_admits _) (fun _ _ _ => trivial)
      (Or.inl trivial) hr
  have hbound : t + 0 + 1 < 2 ^ 64 := by
    rw [show t = 0 from ht]
    decide
  obtain ⟨c, -, -, hc, -, hreopens⟩ := hclaim [0x64] ⟨false, ∅⟩ es [] t 0 m m db ⟨rfl, rfl⟩
    (by decide) hrun hregular hdb hopen (oneRecord_logged hlog) .start (by simp) hbound
  rw [← hc.eq_seen hopen] at hx
  rw [hreopens.seen hdirectory hafter] at hx
  cases hx

end Runs

end ClomDB
