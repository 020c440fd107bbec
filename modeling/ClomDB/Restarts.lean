import ClomDB.Tending

/-!
# Restarts

What the next `Open` finds after a shutdown, and after a process that died in a
flush, a compaction, a `Close` or an `Open`.
-/

namespace ClomDB

open FaultProgram FileSystem FileSystem.World SSTable DB WriteAheadLog

section Shutdown

variable {d : Path} {w : World} {es : List Event} {t : Nat} {m m' : Machine} {db : DB}

/-- An `Open` has returned. -/
def Event.Reopens : Event → Prop
  | .returned (.reopen _) _ _ => True
  | _ => False

/-- The process has closed its database. -/
def Machine.Closed (m : Machine) : Prop := ∃ db, m.db = some db ∧ db.closed = true

/-- Until the next `Open` every write of something is refused and leaves memory
and files as they are. -/
def Machine.Refuses (d : Path) (m : Machine) : Prop :=
  ∀ es t m', Run Env.calm Free d m es t m' → (∀ e ∈ es, ¬e.Reopens) →
    ∀ opts batch accepting s t' m'', batch.empty = false →
      Step Env.calm Free d m' (.returned (.write opts batch) accepting s) t' m'' →
        s = .invalidArgument [.lit "DB is closed"] ∧ m'' = m'

theorem write_closed (hclosed : db.closed = true) {batch : WriteBatch}
    (hne : batch.empty = false) (fuel : Nat) (opts : WriteOptions) :
    db.write fuel opts batch = pure (.invalidArgument [.lit "DB is closed"], db) := by
  rw [DB.write, if_neg (by rw [hne]; simp), if_pos hclosed]

/-- Every section but `Open` leaves a closed database closed. -/
theorem closed_prog (hclosed : db.closed = true) {op : Op} (hop : ∀ options, op ≠ .reopen options)
    (fuel : Nat) (w : World) (b : Nat) :
    wp Env.hostile (op.prog fuel d (some db)) (fun r _ _ => Machine.Closed ⟨w, r.2⟩)
      (fun _ _ => True) w b := by
  have htends : ∀ op : Op, op.Tends → wp Env.hostile (op.prog fuel d (some db))
      (fun r _ _ => Machine.Closed ⟨w, r.2⟩) (fun _ _ => True) w b := by
    intro op hop
    refine wp_mono (shell_tends hop fuel w b) ?_ fun _ _ => id
    rintro r - - ⟨db', hdb', hsame⟩
    exact ⟨db', hdb', hsame.closed.trans hclosed⟩
  cases op with
  | write opts batch =>
      exact wp_bind (wp_mono (shell_write fuel opts batch db w b)
        (fun r _ _ h => wp_pure ⟨r.2, rfl, h.closed.trans hclosed⟩) fun _ _ => id)
  | flush => exact htends .flush trivial
  | background => exact htends .background trivial
  | compact level => exact htends (.compact level) trivial
  | closeBegin =>
      rw [Op.prog, DB.closeBegin, if_pos hclosed]
      exact wp_pure ⟨db, rfl, hclosed⟩
  | closeEnd =>
      refine wp_ite (fun h => ?_) fun _ => wp_pure ⟨db, rfl, hclosed⟩
      rw [hclosed] at h
      cases h.2
  | reopen options => exact absurd rfl (hop options)

/-- The second step of `Close` closes the database. -/
theorem closed_of_closeEnd {E : Env} {A : Machine → Op → Nat → List Fault → Prop}
    {accepting : Bool} {s : Status} (hs : Step E A d m (.returned .closeEnd accepting s) t m')
    (hdb : m.db = some db) (hshut : db.shuttingDown = true) : m'.Closed := by
  cases hs with
  | @returned op fuel fs rest s db' w' t admits allowed run =>
      rw [hdb, Op.prog] at run
      split at run
      · obtain ⟨⟨s₁, db₁⟩, w₁, fs₁, t₁, u₁, hr, hpure⟩ := Prog.bind_returned run
        cases hpure
        exact ⟨db₁, rfl, (closed_closeEnd db m.world t₁).of_returned (Env.hostile_admits fs) hr
          (Nat.le_refl t₁)⟩
      next hno =>
        cases run
        exact ⟨db, rfl, by simpa [hshut] using hno⟩

theorem Step.closed {A : Machine → Op → Nat → List Fault → Prop} {e : Event}
    (hs : Step Env.calm A d m e t m') (h : m.Closed) (he : ¬e.Reopens) : m'.Closed := by
  obtain ⟨db, hdb, hclosed⟩ := h
  cases hs with
  | @returned op fuel fs rest s db' w' t admits allowed run =>
      have hop : ∀ options, op ≠ .reopen options := by
        rintro options rfl
        exact he trivial
      rw [hdb] at run
      exact (closed_prog hclosed hop fuel m.world t).of_returned (Env.hostile_admits fs) run
        (Nat.le_refl t)
  | crashed crashes => exact crashes.elim
  | killed crashes => exact crashes.elim

theorem Run.closed {A : Machine → Op → Nat → List Fault → Prop}
    (hr : Run Env.calm A d m es t m') (h : m.Closed) (he : ∀ e ∈ es, ¬e.Reopens) : m'.Closed := by
  induction hr with
  | start => exact h
  | step run last ih =>
      exact last.closed (ih fun e he' => he e (List.mem_append_left _ he'))
        (he _ (List.mem_append_right _ List.mem_cons_self))

theorem Machine.Closed.refuses (h : m.Closed) : m.Refuses d := by
  intro es t m' hr he opts batch accepting s t' m'' hne hs
  obtain ⟨db, hdb, hclosed⟩ := hr.closed h he
  cases hs with
  | @returned op fuel fs rest s db' w' t admits allowed run =>
      obtain ⟨world, db?⟩ := m'
      obtain rfl : db? = some db := hdb
      rw [Op.prog, write_closed hclosed hne, pure_bind] at run
      cases run
      exact ⟨rfl, rfl⟩

/-- In any order of writes, flushes, background iterations and the steps of
`Close` the next `Open` gets the map that the writes lead to, and after the
second step of `Close` nothing is written any more. -/
theorem shutdown_keeps (hblank : Blank d w) (hpath : d.getLast? ≠ some separator)
    (hr : Run Env.calm Free d ⟨w, none⟩ es t m) (hregular : ∀ e ∈ es, e.Regular) (b : Nat)
    (ht : t + b + 1 < 2 ^ 64) :
    Reopens d m.world (contentOf es fun _ => none) b ∧
      ∀ db accepting s t' m', m.db = some db → db.shuttingDown = true →
        Step Env.calm Free d m (.returned .closeEnd accepting s) t' m' → m'.Refuses d := by
  refine ⟨?_, fun db accepting s t' m' hdb hshut hs => (closed_of_closeEnd hs hdb hshut).refuses⟩
  have hrun : Run ⟨False, False, True, True⟩ Free d ⟨w, none⟩ es t m :=
    Run.mono (E := Env.calm) (fun h => h) (fun h => h) (fun _ _ _ _ => id) hr
  have hstands := hrun.stands trivial trivial (fun hno => False.elim (or_self_iff.mp hno))
    (Or.inr hpath) (hblank.start (some fun _ => none) (by simp) ht) (fun _ _ => hregular) (Nat.le_add_right t b)
  rw [Nat.add_sub_cancel_left] at hstands
  exact hstands.crashed.reopens hpath

/-- A new database that is written to before and during `Close`. -/
def writeInClose (d : Path) : Option (List Event × Nat × Machine) :=
  Machine.execute 20 d ⟨⟨false, ∅⟩, none⟩
    [(.reopen {}, []), (.write {} (WriteBatch.put {} [0x61] [0x78]), []), (.closeBegin, []),
      (.write {} (WriteBatch.put {} [0x62] [0x79]), []), (.closeEnd, [])]

theorem writeInClose_run (h : writeInClose d = some (es, t, m))
    (hes : es.all Event.survived = true) : Run Env.calm Free d ⟨⟨false, ∅⟩, none⟩ es t m := by
  refine Machine.run_of_execute (fun p hp => ?_) (fun _ _ _ => trivial)
    (Or.inr (ne_crashed_of_survived hes)) h
  have hnil : p.2 = [] := by
    simp only [List.mem_cons, List.not_mem_nil, or_false] at hp
    rcases hp with rfl | rfl | rfl | rfl | rfl <;> rfl
  rw [hnil]
  exact Env.admits_nil _

theorem shutdown_keeps_writeInClose : ∃ es m, writeInClose [0x64] = some (es, 1, m) ∧
    Reopens [0x64] m.world (contentOf es fun _ => none) 0 := by
  have h : ((writeInClose [0x64]).any fun r => decide (r.2.1 = 1 ∧ r.1.all Event.survived = true ∧
      ∀ e ∈ r.1, e.Regular)) = true := by decide +kernel
  obtain ⟨⟨es, t, m⟩, hr, hm⟩ := (Option.any_eq_true ..).mp h
  obtain ⟨rfl, hes, hregular⟩ := of_decide_eq_true hm
  exact ⟨es, m, hr, (shutdown_keeps ⟨rfl, rfl⟩ (by decide) (writeInClose_run hr hes) hregular 0
    (by decide)).1⟩

/-- An open that returned no database. -/
def opensNothing : Outcome World (Status × Option DB) → Bool
  | .returned (_, none) _ _ t => decide (t = 0)
  | _ => false

/-- With a path that ends in a separator the next `Open` removes the tables. -/
theorem shutdown_loses : ¬∀ (d : Path) (w : World) (es : List Event) (t : Nat) (m : Machine),
    Blank d w → Run Env.calm Free d ⟨w, none⟩ es t m → (∀ e ∈ es, e.Regular) → m.Closed →
      Reopens d m.world (contentOf es fun _ => none) 0 := by
  intro hclaim
  have hbefore : ((writeInClose [0x64, separator]).any fun r => r.1.all Event.survived &&
      r.2.2.world.directory && r.2.2.db.any DB.closed) = true := by decide +kernel
  have hregular : ((writeInClose [0x64, separator]).any fun r =>
      decide (∀ e ∈ r.1, e.Regular)) = true := by decide +kernel
  have hafter : ((writeInClose [0x64, separator]).any fun r =>
      opensNothing (openObject [0x64, separator] {} r.2.2.world [])) = true := by
    set_option maxRecDepth 1000 in decide +kernel
  obtain ⟨⟨es, t, m⟩, hr, hm⟩ := (Option.any_eq_true ..).mp hbefore
  rw [hr, Option.any_some] at hregular hafter
  simp only [Bool.and_eq_true] at hm
  obtain ⟨⟨hes, hdirectory⟩, hclosed⟩ := hm
  obtain ⟨db, hdb, hclosed⟩ := (Option.any_eq_true ..).mp hclosed
  have hreopens := hclaim _ ⟨false, ∅⟩ es t m ⟨rfl, rfl⟩ (writeInClose_run hr hes)
    (of_decide_eq_true hregular) ⟨db, hdb, hclosed⟩ {} (allowed_default hdirectory)
  unfold opensNothing at hafter
  split at hafter
  next s w' rest t' hopened =>
    obtain rfl := of_decide_eq_true hafter
    obtain ⟨-, db', hdb', -⟩ := hreopens.of_returned (Env.admits_nil _) hopened (Nat.le_refl 0)
    cases hdb'
  next => cases hafter

end Shutdown

section Interruption

variable {c : Content} {d : Path} {w w' : World} {db : DB} {b t t' : Nat} {m m' : Machine}
  {op : Op} {fuel : Nat} {fs : List Fault}

/-- An append in which the process dies leaves all of its frame in the log, or
nothing of it. -/
def Untorn (m : Machine) (op : Op) (_ : Nat) (fs : List Fault) : Prop :=
  match op with
  | .write opts batch => ∀ db log w' t, m.db = some db → batch.empty = false →
      db.closed = false → db.wal = some log →
      log.addRecord batch.rep (opts.sync || db.options.syncWrites) m.world fs = .crashed w' t →
        w'.bytes (walPath db.dbPath) = m.world.bytes (walPath db.dbPath) ∨
          w'.bytes (walPath db.dbPath) =
            (m.world.bytes (walPath db.dbPath)).map (· ++ frame batch.rep)
  | _ => True

/-- The process does not die in an append: where it dies in a write, that is in
the flush or in a compaction that the write triggers. -/
def Appends (m : Machine) (op : Op) (fs : List Fault) : Prop :=
  match op with
  | .write opts batch => ∀ db log w' t, m.db = some db → batch.empty = false →
      db.closed = false → db.wal = some log →
      log.addRecord batch.rep (opts.sync || db.options.syncWrites) m.world fs ≠ .crashed w' t
  | _ => True

/-- Where no call fails an append goes well unless the process dies in it. -/
theorem Appends.failsTending (h : Appends m op fs) (hfs : mortal.Admits fs) (fuel : Nat) :
    FailsTending m op fuel fs := by
  cases op with
  | write opts batch =>
      exact fun db hdb hne hclosed log hlog =>
        ⟨fun w' t => h db log w' t hdb hne hclosed hlog, Prog.not_meetsFailure hfs.1⟩
  | reopen options => exact hfs.1
  | _ => trivial

/-- A write in which no call fails, and in which a process that dies leaves no
torn frame, goes from one map to another. -/
theorem Standing.write_untorn {opts : WriteOptions} {batch : WriteBatch}
    (h : Standing (some c) False d w db b) (hlen : batch.rep.length < 2 ^ 32)
    (hfs : mortal.Admits fs) (huntorn : Untorn ⟨w, some db⟩ (.write opts batch) fuel fs) :
    (db.write fuel opts batch w fs).Meets Env.hostile (fun r w b => ∃ c', KeptBy c' d r w b)
      (fun w b => ∃ c', Crashed (some c') d w b) b := by
  obtain ⟨tree, disk, hinv, -⟩ := h.inv
  have hpath := h.dbPath
  have happlied : ∀ {w' t}, db.LogOpen → Grew (walPath db.dbPath) (frame batch.rep) w w' →
      InvOn (some (batch.after c)) tree disk w' (db.applied batch) (b - t) := fun hopen hw' =>
    (hinv.applied hopen (fun _ _ => hlen) hw').mono (Nat.sub_le b _)
  refine meets_write hinv.holds.wal (fun s _ => ⟨c, h⟩) (fun log w' t n hwrites _ hr hw' => ?_)
    (fun log s w' rest t n hwrites _ hr hs _ => ?_) fun log w' rest t hwrites _ hr hw' => ?_
  · -- the frame is in the log as a whole, or the log is as before
    obtain ⟨hopen, hfile⟩ := hwrites.logOpen hinv.holds.wal
    rw [← hpath]
    rcases huntorn db log w' t rfl hwrites.filled hwrites.running hwrites.wal hr with
      hnothing | hwhole
    · refine ⟨c, (hinv.mono (Nat.sub_le b t)).onlyAt_wal hw'.only (Or.inr ⟨hopen, ?_⟩) ?_ |>.crashed⟩
      · rwa [hnothing]
      · rw [hnothing]
        exact hinv.recovers
    · exact ⟨batch.after c, (happlied hopen (grew_whole hfile hw' hwhole)).crashed⟩
  · obtain ⟨f, hfile⟩ := Option.ne_none_iff_exists'.mp hwrites.file
    have hok := (succeeds_addRecord hfile _ _).of_returned hr (Prog.not_meetsFailure hfs.1)
    rw [show s = .OK from hok] at hs
    cases hs
  · exact (finishWrite_kept hpath (happlied (hwrites.logOpen hinv.holds.wal).1 hw') rest
      (Env.hostile_admits rest)).mono (fun _ _ _ hr => ⟨_, hr⟩) fun _ _ hw => ⟨_, hw⟩

/-- In a section in which no call fails, and in which a process that dies leaves
no torn frame, the machine goes from one map to another. -/
theorem Machine.Stands.untorn (h : m.Stands (some c) False d b)
    (hpath : d.getLast? ≠ some separator) (hop : op.Regular) (hfs : mortal.Admits fs)
    (huntorn : Untorn m op fuel fs) :
    (op.prog fuel d m.db m.world fs).Meets Env.hostile
      (fun r w b => ∃ c', Leaves c' d r w b) (fun w b => ∃ c', Crashed (some c') d w b) b := by
  by_cases hwrite : ∀ opts batch, op ≠ .write opts batch
  · have happends : Appends m op fs := by
      cases op with
      | write opts batch => exact absurd rfl (hwrite opts batch)
      | _ => trivial
    exact (h.meets hpath hop (happends.failsTending hfs fuel)).mono (fun _ _ _ => id)
      fun _ _ hw => ⟨_, hw⟩
  · simp only [not_forall, not_not] at hwrite
    obtain ⟨opts, batch, rfl⟩ := hwrite
    obtain ⟨w, db?⟩ := m
    cases db? with
    | none => exact wp_pure ⟨c, h⟩ fs (Env.hostile_admits fs)
    | some db =>
        have hmeets := Standing.write_untorn h hop hfs huntorn
        refine Outcome.Meets.bind trivial trivial (fun w' t hr => ?_) fun r w' rest t hr ht => ?_
        · rw [hr] at hmeets
          exact hmeets
        · rw [hr] at hmeets
          exact wp_pure (hmeets ht).2 rest (Env.hostile_admits rest)

/-- A step in which no process leaves a torn frame leaves a map. -/
theorem Step.untorn {e : Event} (hs : Step mortal Untorn d m e t m')
    (h : m.Stands (some c) False d b) (hpath : d.getLast? ≠ some separator) (hregular : e.Regular)
    (ht : t ≤ b) : ∃ c', m'.Stands (some c') False d (b - t) := by
  cases hs with
  | @returned op fuel fs rest s db' w' t admits allowed run =>
      have hmeets := h.untorn hpath hregular admits allowed
      rw [run] at hmeets
      exact (hmeets ht).2
  | @crashed op fuel fs w' t crashes admits allowed run =>
      have hmeets := h.untorn hpath hregular admits allowed
      rw [run] at hmeets
      exact hmeets ht
  | killed crashes => exact ⟨c, h.crashed⟩

/-- A run in which no process leaves a torn frame leaves a map. -/
theorem Run.untorn {m₀ : Machine} {es : List Event} (hr : Run mortal Untorn d m₀ es t m)
    (h : m₀.Stands (some c) False d b) (hpath : d.getLast? ≠ some separator)
    (hregular : ∀ e ∈ es, e.Regular) (ht : t ≤ b) : ∃ c', m.Stands (some c') False d (b - t) := by
  induction hr with
  | start => exact ⟨c, h⟩
  | step run last ih =>
      obtain ⟨c', hm⟩ := ih (fun e he => hregular e (List.mem_append_left _ he)) (by omega)
      rw [← Nat.sub_sub]
      exact last.untorn hm hpath (hregular _ (List.mem_append_right _ List.mem_cons_self))
        (by omega)

/-- A process that dies anywhere but in an append leaves the map of the section
it died in: the next `Open` gets it. -/
theorem interruption_keeps {es : List Event} (hblank : Blank d w)
    (hpath : d.getLast? ≠ some separator) (hr : Run mortal Untorn d ⟨w, none⟩ es t m)
    (hregular : ∀ e ∈ es, e.Regular) (hop : op.Regular) (hfs : mortal.Admits fs)
    (happends : Appends m op fs) (hdies : op.prog fuel d m.db m.world fs = .crashed w' t')
    (b : Nat) (ht : t + t' + b + 1 < 2 ^ 64) :
    ∃ c, (∀ db, m.db = some db → db.closed = false → Answers m.world db c) ∧
      Reopens d m.world c b ∧ Reopens d w' (op.leaves c) b := by
  obtain ⟨c, hm⟩ := hr.untorn (hblank.start (some fun _ => none) (by simp) ht) hpath hregular
    (by omega)
  rw [show t + t' + b - t = t' + b by omega] at hm
  have hmeets := hm.meets hpath hop (happends.failsTending hfs fuel)
  rw [hdies] at hmeets
  have hleft := hmeets (Nat.le_add_right t' b)
  rw [Nat.add_sub_cancel_left] at hleft
  refine ⟨c, fun db hdb hopen => ?_, (hm.crashed.spend (Nat.le_add_left b t')).reopens hpath,
    hleft.reopens hpath⟩
  rw [Machine.Stands, hdb] at hm
  exact Standing.answers hm hopen

theorem untorn_nil (m : Machine) (op : Op) (fuel : Nat) : Untorn m op fuel [] := by
  cases op with
  | write opts batch =>
      intro db log w' t _ _ _ _ hr
      exact absurd hr (addRecord_alive log _ _ m.world w' t)
  | _ => trivial

/-- A flush in which the process dies before it has done anything. -/
def diesInFlush (m : Machine) : Option (World × Nat) :=
  match Op.prog 20 [0x64] .flush m.db m.world [.crash 0] with
  | .crashed w t => some (w, t)
  | _ => none

theorem crashed_of_diesInFlush (h : diesInFlush m = some (w, t)) :
    Op.prog 20 [0x64] .flush m.db m.world [.crash 0] = .crashed w t := by
  rw [diesInFlush] at h
  split at h
  next hr =>
    cases h
    exact hr
  next => cases h

theorem mortal_admits_crash (n : Nat) : mortal.Admits [.crash n] :=
  ⟨by simp, fun _ _ => trivial⟩

theorem interruption_keeps_twoWrites : ∃ es m w', twoWrites = some (es, 1, m) ∧
    diesInFlush m = some (w', 1) ∧ ∃ c, (∀ db, m.db = some db → db.closed = false →
      Answers m.world db c) ∧ Reopens [0x64] m.world c 0 ∧ Reopens [0x64] w' (Op.flush.leaves c) 0 := by
  obtain ⟨es, m, db, hr, hdb, hes, hregular⟩ := twoWrites_run
  have hcheck : (twoWrites.any fun r => (diesInFlush r.2.2).any fun p => p.2 == 1) = true := by
    decide +kernel
  rw [hr, Option.any_some] at hcheck
  obtain ⟨⟨w', t⟩, hdies, ht⟩ := (Option.any_eq_true ..).mp hcheck
  obtain rfl := beq_iff_eq.mp ht
  exact ⟨es, m, w', hr, hdies, interruption_keeps ⟨rfl, rfl⟩ (by decide)
    (twoWrites_reached untorn_nil hr hes) hregular (show Op.flush.Regular from trivial)
    (mortal_admits_crash 0) trivial (crashed_of_diesInFlush hdies) 0 (by decide)⟩

/-- A process that dies in the middle of a frame, and another one whose frame is
the rest of it: the file holds the first record as a whole. -/
def forged : Option (List Event × Nat × Machine) :=
  Machine.execute 20 [0x64] ⟨⟨false, ∅⟩, none⟩
    [(.reopen {}, []), (.write {} (WriteBatch.put {} [0x61] (oneRecord 0x62 0x79)), [.crash 12]),
      (.reopen {}, []), (.write {} (WriteBatch.put {} [0x62] [0x79]), [])]

/-- What was written after the crash is lost when the process dies again. -/
theorem interruption_loses : ¬∀ (d : Path) (w : World) (es : List Event) (t : Nat) (m : Machine)
    (op : Op) (fuel : Nat) (fs : List Fault) (w' : World) (t' : Nat), Blank d w →
      d.getLast? ≠ some separator → Run mortal Free d ⟨w, none⟩ es t m → (∀ e ∈ es, e.Regular) →
      (∃ recs, Logged recs (m.world.bytes (walPath d))) → op.Regular →
      (∀ opts batch, op ≠ .write opts batch) → mortal.Admits fs →
      op.prog fuel d m.db m.world fs = .crashed w' t' →
        ∃ c, (∀ db, m.db = some db → db.closed = false → Answers m.world db c) ∧
          Reopens d w' c 0 := by
  intro hclaim
  have hbefore : (forged.any fun r => r.2.2.db.any fun db => decide (db.closed = false ∧
      db.seen r.2.2.world [] [0x62] = some [0x79])) = true := by decide +kernel
  have hafter : (forged.any fun r => (diesInFlush r.2.2).any fun p => p.1.directory &&
      opensSeeing [0x62] none (openObject [0x64] {} p.1 [])) = true := by decide +kernel
  have hlog : (forged.any fun r => decide (r.2.2.world.bytes (walPath [0x64]) =
      some (frame (WriteBatch.put {} [0x61] (oneRecord 0x62 0x79)).rep))) = true := by
    decide +kernel
  have hregular : (forged.any fun r => decide (∀ e ∈ r.1, e.Regular)) = true := by decide +kernel
  obtain ⟨⟨es, t, m⟩, hr, hm⟩ := (Option.any_eq_true ..).mp hbefore
  rw [hr, Option.any_some] at hafter hlog hregular
  obtain ⟨db, hdb, hm⟩ := (Option.any_eq_true ..).mp hm
  obtain ⟨hopen, hy⟩ := of_decide_eq_true hm
  obtain ⟨⟨w', t'⟩, hdies, hafter⟩ := (Option.any_eq_true ..).mp hafter
  rw [Bool.and_eq_true] at hafter
  have hrun : Run mortal Free [0x64] ⟨⟨false, ∅⟩, none⟩ es t m := by
    refine Machine.run_of_execute (fun p hp => ?_) (fun _ _ _ => trivial) (Or.inl trivial) hr
    have hfaults : p.2 = [] ∨ p.2 = [.crash 12] := by
      simp only [List.mem_cons, List.not_mem_nil, or_false] at hp
      rcases hp with rfl | rfl | rfl | rfl <;> simp
    rcases hfaults with h | h
    · rw [h]
      exact Env.admits_nil _
    · rw [h]
      exact mortal_admits_crash 12
  obtain ⟨c, hc, hreopens⟩ := hclaim [0x64] ⟨false, ∅⟩ es t m .flush 20 [.crash 0] w' t'
    ⟨rfl, rfl⟩ (by decide) hrun (of_decide_eq_true hregular)
    (frame_logged (by decide) (of_decide_eq_true hlog)) trivial (by simp) (mortal_admits_crash 0)
    (crashed_of_diesInFlush hdies)
  rw [← (hc db hdb hopen).eq_seen hopen, hreopens.seen hafter.1 hafter.2] at hy
  cases hy

end Interruption

end ClomDB
