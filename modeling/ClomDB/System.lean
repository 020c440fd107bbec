import ClomDB.Open
import ClomDB.Lookup

/-!
# Runs of a database

A machine is a directory and at most one process that works on it. Its steps
are the sections of the methods that run under the mutex, in any order, and a
process may die between two steps or inside one. The invariant of an open
database is the invariant of the machine.

## Implementation notes

The calls a step makes are answered by a fault script that the environment
admits. A step that the state does not enable leaves it alone. Each step of a
run is recorded as an event, together with whether writes were accepted, so
that the map a run should lead to can be computed from its events.
-/

namespace ClomDB

open FaultProgram FileSystem FileSystem.World LayeredMap SSTable DB WriteAheadLog

/-- A section of a method. -/
inductive Op where
  | write (opts : WriteOptions) (batch : WriteBatch)
  | flush
  | background
  | compact (level : Fin kMaxLevels)
  | closeBegin
  | closeEnd
  | reopen (options : Options)

/-- A process that opens the directory. -/
def openObject (d : Path) (options : Options) : Prog World (Status × Option DB) := do
  match ← DB.open options d with
  | .error s => return (s, none)
  | .ok db => return (.OK, some db)

/-- The program of a section on the object of the process. -/
def Op.prog (fuel : Nat) (d : Path) : Op → Option DB → Prog World (Status × Option DB)
  | .reopen options, none => openObject d options
  | .reopen options, some db =>
      if db.closed then openObject d options else pure (.OK, some db)
  | _, none => pure (.OK, none)
  | .write opts batch, some db => do
      let (s, db) ← db.write fuel opts batch
      return (s, some db)
  | .flush, some db => do
      let (s, db) ← db.flush fuel
      return (s, some db)
  | .background, some db => do
      let db ← db.backgroundIteration fuel
      return (.OK, some db)
  | .compact level, some db => do
      let (s, db) ← db.compactLocked level
      return (s, some db)
  | .closeBegin, some db => pure (.OK, some db.closeBegin)
  | .closeEnd, some db =>
      if db.shuttingDown ∧ db.closed = false then do
        let (s, db) ← db.closeEnd
        return (s, some db)
      else pure (.OK, some db)

structure Machine where
  world : World
  db : Option DB

/-- The process has an open database. -/
def Machine.accepting (m : Machine) : Bool :=
  match m.db with
  | none => false
  | some db => !db.closed

/-- What happened in one step. -/
inductive Event where
  | returned (op : Op) (accepting : Bool) (s : Status)
  | crashed (op : Op)
  | killed

/-- One step, in an environment and under a condition on its execution. -/
inductive Step (E : Env) (A : Machine → Op → Nat → List Fault → Prop) (d : Path) :
    Machine → Event → Nat → Machine → Prop where
  | returned {m : Machine} {op : Op} {fuel : Nat} {fs rest : List Fault} {s : Status}
      {db' : Option DB} {w' : World} {t : Nat} (admits : E.Admits fs) (allowed : A m op fuel fs)
      (run : op.prog fuel d m.db m.world fs = .returned (s, db') w' rest t) :
      Step E A d m (.returned op m.accepting s) t ⟨w', db'⟩
  | crashed {m : Machine} {op : Op} {fuel : Nat} {fs : List Fault} {w' : World} {t : Nat}
      (crashes : E.crashes) (admits : E.Admits fs) (allowed : A m op fuel fs)
      (run : op.prog fuel d m.db m.world fs = .crashed w' t) :
      Step E A d m (.crashed op) t ⟨w', none⟩
  | killed {m : Machine} (crashes : E.crashes) : Step E A d m .killed 0 ⟨m.world, none⟩

/-- Steps one after the other, with the ticks they have spent. -/
inductive Run (E : Env) (A : Machine → Op → Nat → List Fault → Prop) (d : Path) (m₀ : Machine) :
    List Event → Nat → Machine → Prop where
  | start : Run E A d m₀ [] 0 m₀
  | step {es : List Event} {t t' : Nat} {m m' : Machine} {e : Event} (run : Run E A d m₀ es t m)
      (last : Step E A d m e t' m') : Run E A d m₀ (es ++ [e]) (t + t') m'

/-- Every execution is allowed. -/
def Free (_ : Machine) (_ : Op) (_ : Nat) (_ : List Fault) : Prop := True

/-- What a write does to the map. -/
def Event.effect : Event → Content → Content
  | .returned (.write _ batch) true _, c => if batch.empty then c else batch.after c
  | _, c => c

/-- The map after some events. -/
def contentOf (es : List Event) (c : Content) : Content := es.foldl (fun c e => e.effect c) c

/-- A directory that has never held a database. -/
structure Blank (d : Path) (w : World) : Prop where
  manifest : w.bytes (manifestPath d) = none
  log : w.bytes (walPath d) = none

/-- A batch fits the length field of a record, and a database is opened with a
positive trigger and a filter size that is not negative. -/
def Op.Regular : Op → Prop
  | .write _ batch => batch.rep.length < 2 ^ 32
  | .reopen options => 1 ≤ options.l0CompactionTrigger ∧ 0 ≤ options.bloomBitsPerKey
  | _ => True

def Event.Regular : Event → Prop
  | .returned op _ _ => op.Regular
  | .crashed op => op.Regular
  | .killed => True

/-- The process did not die in the step. -/
def Event.survived : Event → Bool
  | .crashed _ => false
  | _ => true

theorem ne_crashed_of_survived {es : List Event} (h : es.all Event.survived = true) :
    ∀ e ∈ es, ∀ op, e ≠ .crashed op := by
  rintro _ he op rfl
  exact absurd (List.all_eq_true.mp h _ he) Bool.false_ne_true

/-- The bytes of a batch that is written hold an operation. -/
def Op.Filled : Op → Prop
  | .write _ batch => batch.empty = false → WriteBatch.decodeOps batch.rep ≠ []
  | _ => True

def Event.Filled : Event → Prop
  | .returned op _ _ => op.Filled
  | .crashed op => op.Filled
  | .killed => True

instance : DecidablePred Op.Regular
  | .write _ batch => inferInstanceAs (Decidable (batch.rep.length < 2 ^ 32))
  | .reopen options => inferInstanceAs
      (Decidable (1 ≤ options.l0CompactionTrigger ∧ 0 ≤ options.bloomBitsPerKey))
  | .flush | .background | .compact _ | .closeBegin | .closeEnd => isTrue trivial

instance : DecidablePred Event.Regular
  | .returned op _ _ | .crashed op => inferInstanceAs (Decidable op.Regular)
  | .killed => isTrue trivial

/-- An object of a process. In a calm environment memory and manifest agree,
and the log of an open database is open. -/
structure Standing (c? : Option Content) (calm : Prop) (d : Path) (w : World) (db : DB) (b : Nat) :
    Prop where
  dbPath : db.dbPath = d
  inv : ∃ tree disk, InvOn c? tree disk w db b ∧ (calm → disk = tree)
  log : calm → db.closed = false → db.LogOpen

/-- The invariant of a machine. -/
def Machine.Stands (c? : Option Content) (calm : Prop) (d : Path) (b : Nat) (m : Machine) : Prop :=
  match m.db with
  | none => Crashed c? d m.world b
  | some db => Standing c? calm d m.world db b

/-- A directory without a process, or the object of one, with the log that an
empty memtable asks for. -/
def Machine.Tidied (d : Path) (m : Machine) : Prop :=
  match m.db with
  | none => LogBlank d m.world
  | some db => Tidy m.world db

/-- What a section does to the listing of L0: it leaves it alone, clears it, or
appends a table with the highest number. -/
def TopStep (old new : List FileMetaData) : Prop :=
  new = old ∨ new = [] ∨ ∃ fm, new = old ++ [fm] ∧ ∀ g ∈ old, g.number < fm.number

section Steps

variable {E : Env} {c? : Option Content} {d : Path} {w : World} {db : DB} {b : Nat}
  {C : World → Nat → Prop}

theorem Standing.crashed {calm : Prop} (h : Standing c? calm d w db b) : Crashed c? d w b := by
  obtain ⟨tree, disk, hinv, -⟩ := h.inv
  have hcrashed := hinv.crashed
  rwa [h.dbPath] at hcrashed

/-- What stands can be opened again when the process is gone. -/
theorem Machine.Stands.crashed {calm : Prop} {m : Machine} (h : m.Stands c? calm d b) :
    Crashed c? d m.world b := by
  obtain ⟨w, db?⟩ := m
  cases db? with
  | none => exact h
  | some db => exact Standing.crashed h

/-- A section that only tends tables keeps the invariant. -/
theorem Standing.tended {calm : Prop} {tree disk : Tree} {s : Status} {tree' disk' : Tree}
    {db' : DB} {w' : World} {b' : Nat} (hpath : db.dbPath = d)
    (hlog : calm → db.closed = false → db.LogOpen) (hd : calm → disk = tree)
    (hcalm : calm → ¬E.fails) (h' : InvOn c? tree' disk' w' db' b')
    {w₀ : World} (ht : Tended E tree disk w₀ db s tree' disk' w' db') :
    Standing c? calm d w' db' b' := by
  refine ⟨ht.shell.dbPath.trans hpath, ⟨tree', disk', h', fun hc => ?_⟩, fun hc hclosed => ?_⟩
  · exact (ht.ok.resolve_right (hcalm hc)).2.2.1 (hd hc)
  · rw [ht.shell.closed] at hclosed
    exact (ht.ok.resolve_right (hcalm hc)).2.1 (hlog hc hclosed)

theorem topStep {c?' : Option Content} {tree disk tree' disk' : Tree} {db' : DB} {w' : World}
    {b' : Nat} (h : InvOn c? tree disk w db b) (h' : InvOn c?' tree' disk' w' db' b')
    (htop : tree'.levels 0 = tree.levels 0 ∨ tree'.levels 0 = [] ∨
      ∃ f, tree'.levels 0 = tree.levels 0 ++ [f] ∧ f.number = tree.next) :
    TopStep (db.version.levels 0) (db'.version.levels 0) := by
  rw [h.holds.aligned.version, h'.holds.aligned.version]
  refine htop.imp (fun heq => by rw [heq]) (Or.imp (fun heq => by rw [heq]; rfl) ?_)
  rintro ⟨f, heq, hf⟩
  refine ⟨f.info, by rw [heq, List.map_append]; rfl, fun g hg => ?_⟩
  obtain ⟨g', hg', rfl⟩ := List.mem_map.mp hg
  have hlt := tree.number_lt 0 g' hg'
  rw [← hf] at hlt
  exact hlt

/-- Where calls may fail or the process may die nothing is asked of the content. -/
def Unasked (E : Env) (c? : Option Content) : Prop := E.fails ∨ E.crashes → c? = none

/-- What a step of a machine leaves when it returns. -/
structure After (E : Env) (c? : Option Content) (d : Path) (op : Op) (m : Machine)
    (r : Status × Option DB) (w' : World) (b' : Nat) : Prop where
  stands : Machine.Stands (c?.map (Event.returned op m.accepting r.1).effect) (¬E.fails) d b'
    ⟨w', r.2⟩
  top : ∀ db db', m.db = some db → r.2 = some db' → (∀ options, op ≠ .reopen options) →
    TopStep (db.version.levels 0) (db'.version.levels 0)
  tidied : ¬E.fails → op.Filled → m.Tidied d → Machine.Tidied d ⟨w', r.2⟩

/-- What a step leaves when the process dies in it. -/
abbrev Dead (E : Env) (d : Path) : World → Nat → Prop := fun w' b' =>
  E.crashes → Crashed none d w' b'

theorem Unasked.dead (hc : Unasked E c?) {w' : World} {b' : Nat} (h : Crashed c? d w' b') :
    Dead E d w' b' := fun hcrash => by
  rwa [hc (Or.inr hcrash)] at h

theorem Standing.wp_write (hx : E.excludes) (hd : E.diverges) (hc : Unasked E c?)
    (h : Standing c? (¬E.fails) d w db b) (fuel : Nat) (opts : WriteOptions) (batch : WriteBatch)
    (hlen : ∀ c ∈ c?, batch.rep.length < 2 ^ 32) :
    wp E (Op.prog fuel d (.write opts batch) (some db))
      (After E c? d (.write opts batch) ⟨w, some db⟩) (Dead E d) w b := by
  obtain ⟨tree, disk, hinv, hsettled⟩ := h.inv
  have hpath := h.dbPath
  have hcalm : ¬E.fails → ¬E.fails := id
  have hdead : ∀ {c?' : Option Content} {w' b'}, (c? = none → c?' = none) →
      Crashed c?' db.dbPath w' b' → Dead E d w' b' := fun hnone hw' hcrash => by
    rwa [hnone (hc (Or.inr hcrash)), hpath] at hw'
  have hgrew : ∀ n w', (E.fails ∨ E.crashes) →
      Grew (walPath db.dbPath) ((frame batch.rep).take n) w w' →
      c? = none ∧ InvOn none tree disk w' db b := by
    intro n w' hharm hw'
    have hnone := hc hharm
    refine ⟨hnone, ?_⟩
    rw [hnone] at hinv
    refine hinv.onlyAt_wal hw'.only ?_ (by simp)
    rcases hinv.holds.wal with hwal | ⟨hopen, hfile⟩
    · exact Or.inl hwal
    · refine Or.inr ⟨hopen, ?_⟩
      rw [hw'.bytes]
      simpa using hfile
  -- the state a write leaves alone
  have hsame : ∀ s, (batch.empty = true ∨ db.closed = true ∨ c? = none) →
      After E c? d (.write opts batch) ⟨w, some db⟩ (s, some db) w b := by
    intro s hwhy
    have heffect : c?.map (Event.returned (.write opts batch) (!db.closed) s).effect = c? := by
      rcases hwhy with he | hclosed | hnone
      · cases c? with
        | none => rfl
        | some c => cases hcl : db.closed <;> simp [Event.effect, he]
      · cases c? with
        | none => rfl
        | some c => simp [Event.effect, hclosed]
      · rw [hnone]; rfl
    refine ⟨?_, fun db₁ db₂ h₁ h₂ _ => ?_, fun _ _ htidy => htidy⟩
    · simp only [Machine.accepting]
      rw [heffect]
      exact h
    · cases h₁
      cases h₂
      exact Or.inl rfl
  simp only [Op.prog]
  refine wp_bind (ClomDB.wp_write hx hinv hlen (Or.inl hd) ?_ ?_ ?_ ?_ ?_ ?_ ?_)
  · exact fun w' b' _ hw' => hdead (fun hn => by rw [hn]; rfl) hw'
  · intro hcrash n w' hw' _
    have hdead' := (hgrew n w' (Or.inr hcrash) hw').2.crashed
    rwa [hpath] at hdead'
  · exact fun he => wp_pure (hsame .OK (Or.inl he))
  · exact fun hclosed s _ => wp_pure (hsame s (Or.inr (Or.inl hclosed)))
  · intro hnot s _
    refine wp_pure (hsame s (Or.inr ?_))
    by_cases hf : E.fails
    · exact Or.inr (hc (Or.inl hf))
    · refine Or.inl ?_
      by_contra hopen
      exact hnot (h.log hf (by simpa using hopen))
  · intro hf _ s n w' _ hw'
    obtain ⟨hnone, hinv'⟩ := hgrew n w' (Or.inl hf) hw'
    refine wp_pure ⟨?_, fun db₁ db₂ h₁ h₂ _ => ?_, fun hno => absurd hf hno⟩
    · subst hnone
      exact ⟨hpath, ⟨tree, disk, hinv', fun hno => absurd hf hno⟩, fun hno => absurd hf hno⟩
    · cases h₁
      cases h₂
      exact Or.inl rfl
  · intro hne hopen hlog s db' w' b' tree' disk' hle hinv' hshell hnext hhow
    refine wp_pure ⟨?_, fun db₁ db₂ h₁ h₂ _ => ?_, fun hcalm hfilled _ => ?_⟩
    rotate_left
    · cases h₁
      cases h₂
      refine topStep hinv hinv' ?_
      rcases hhow with ⟨-, -, rfl, -, -⟩ | ⟨w₁, htended⟩
      · exact Or.inl rfl
      · exact htended.top
    · -- the batch has put something into the memtable, and the database is open
      have happlied : ∀ w₁, Tidy w₁ (db.applied batch) := by
        intro w₁ hwhy
        have hmem : (db.applied batch).memtable.empty = false :=
          MemTable.empty_foldl (hfilled hne) _
        have hopen' : (db.applied batch).closed = false := hopen
        rw [hmem, hopen'] at hwhy
        exact absurd hwhy (by simp)
      rcases hhow with ⟨-, -, -, -, rfl⟩ | ⟨w₁, htended⟩
      · exact happlied w'
      · exact (htended.ok.resolve_right hcalm).2.2.2 (happlied w₁)
    have heffect : c?.map (Event.returned (.write opts batch) (!db.closed) s).effect =
        c?.map batch.after := by
      congr 1
      funext c
      simp [Event.effect, hopen, hne]
    simp only [Machine.accepting]
    rw [heffect]
    rcases hhow with ⟨-, -, rfl, rfl, rfl⟩ | ⟨w₁, htended⟩
    · exact ⟨hpath, ⟨_, _, hinv', hsettled⟩, fun _ _ => hlog⟩
    · exact Standing.tended (show (db.applied batch).dbPath = d from hpath) (fun _ _ => hlog)
        hsettled hcalm hinv' htended

/-- Every section but a write leaves the map alone. -/
theorem effect_of_not_write {op : Op} (hop : ∀ opts batch, op ≠ .write opts batch)
    (accepting : Bool) (s : Status) (c? : Option Content) :
    c?.map (Event.returned op accepting s).effect = c? := by
  cases c? with
  | none => rfl
  | some c =>
      cases op with
      | write opts batch => exact absurd rfl (hop opts batch)
      | _ => rfl

theorem wp_openObject (hx : E.excludes) (hf : E.fails → c? = none)
    (hpath : c? = none ∨ d.getLast? ≠ some separator) (h : Crashed c? d w b) (options : Options)
    {Q : Status × Option DB → World → Nat → Prop}
    (hdead : E.crashes ∨ c? = none → ∀ w' b', Crashed c? d w' b' → C w' b')
    (hQ : ∀ s db' w' b', (s.ok = true ∧ (∃ db, db' = some db ∧ db.closed = false) ∨ c? = none ∨
        Refused options w) → Machine.Stands c? (¬E.fails) d b' ⟨w', db'⟩ →
      (¬E.fails → LogBlank d w → Machine.Tidied d ⟨w', db'⟩) → Q (s, db') w' b') :
    wp E (openObject d options) Q C w b := by
  obtain ⟨disk, hrest⟩ := h
  rw [openObject]
  refine wp_bind (wp_open hx hf hpath hrest (fun hc w' b' _ hw' => hdead hc w' b' hw')
    (fun hwhy s w' b' _ _ hw' hlog => wp_pure (hQ _ _ _ _ (Or.inr hwhy) hw' fun hcalm =>
      hlog.resolve_left hcalm))
    fun db w' hset hdb _ hclosed _ hlog hkept => wp_pure (hQ _ _ _ _
      (Or.inl ⟨rfl, db, rfl, hclosed⟩) ?_ fun _ hblank _ => ?_))
  · exact ⟨hdb, ⟨disk, disk, hset, fun _ => rfl⟩, fun _ _ => hlog⟩
  · rw [hdb]
    exact hkept hblank

/-- Without a process there is nothing for a section to change. -/
theorem After.quiet (h : Crashed c? d w b) (op : Op) : After E c? d op ⟨w, none⟩ (.OK, none) w b := by
  have heffect : c?.map (Event.returned op false .OK).effect = c? := by
    cases c? with
    | none => rfl
    | some c => cases op <;> rfl
  refine ⟨?_, (fun db₁ db₂ h₁ => nomatch h₁), fun _ _ htidy => htidy⟩
  simp only [Machine.accepting]
  rw [heffect]
  exact h

/-- Every section but a write keeps the map, running and after a crash, whatever
fails in it. A failing `Open` may lose it. -/
theorem Machine.Stands.wp_kept {m : Machine} {op : Op} (hx : E.excludes) (hd : E.diverges)
    (hwrite : ∀ opts batch, op ≠ .write opts batch)
    (hreopen : ∀ options, op = .reopen options → E.fails → c? = none)
    (hpath : c? = none ∨ d.getLast? ≠ some separator)
    (h : m.Stands c? (¬E.fails) d b) (fuel : Nat) :
    wp E (op.prog fuel d m.db) (After E c? d op m) (Crashed c? d) m.world b := by
  obtain ⟨w, db?⟩ := m
  cases db? with
  | none =>
      cases op with
      | write opts batch => exact absurd rfl (hwrite opts batch)
      | reopen options =>
          refine wp_openObject hx (hreopen options rfl) hpath h options (fun _ _ _ => id)
            fun s db' w' b' _ h' htidy =>
              ⟨?_, fun _ _ _ _ hop => absurd rfl (hop options), fun hcalm _ => htidy hcalm⟩
          rw [effect_of_not_write hwrite]
          exact h'
      | _ => exact wp_pure (After.quiet h _)
  | some db =>
      have hst : Standing c? (¬E.fails) d w db b := h
      obtain ⟨tree, disk, hinv, hsettled⟩ := hst.inv
      have hdb := hst.dbPath
      have hdead : ∀ w' b', b' ≤ b → Crashed c? db.dbPath w' b' → Crashed c? d w' b' :=
        fun w' b' _ hw' => by rwa [hdb] at hw'
      have hquiet : ∀ s db' w' b', Standing c? (¬E.fails) d w' db' b' →
          TopStep (db.version.levels 0) (db'.version.levels 0) →
          (¬E.fails → Tidy w db → Tidy w' db') → After E c? d op ⟨w, some db⟩ (s, some db') w' b' := by
        intro s db' w' b' h' htop htidy
        refine ⟨?_, fun db₁ db₂ h₁ h₂ _ => ?_, fun hcalm _ => htidy hcalm⟩
        · rw [effect_of_not_write hwrite]
          exact h'
        · cases h₁
          cases h₂
          exact htop
      have htended : ∀ s s' db' w' b' tree' disk', b' ≤ b → InvOn c? tree' disk' w' db' b' →
          Tended E tree disk w db s tree' disk' w' db' →
          After E c? d op ⟨w, some db⟩ (s', some db') w' b' :=
        fun s s' db' w' b' tree' disk' _ h' ht => hquiet s' db' w' b'
          (Standing.tended hdb hst.log hsettled id h' ht) (topStep hinv h' ht.top)
          fun hcalm => (ht.ok.resolve_right hcalm).2.2.2
      cases op with
      | write opts batch => exact absurd rfl (hwrite opts batch)
      | flush =>
          exact wp_bind (wp_flush hx hinv (Or.inl hd) (fun _ => hdead)
            fun s db' w' b' tree' disk' hle h' ht _ =>
              wp_pure (htended s s db' w' b' tree' disk' hle h' ht))
      | background =>
          exact wp_bind (wp_backgroundIteration hx hinv (Or.inl hd) hdead
            fun s db' w' b' tree' disk' hle h' ht =>
              wp_pure (htended s .OK db' w' b' tree' disk' hle h' ht))
      | compact level =>
          by_cases hlast : level.val + 1 < kMaxLevels
          · exact wp_bind (wp_compactLocked_inv hx hinv
              (show (⟨level.val + 1, hlast⟩ : Fin kMaxLevels).val = level.val + 1 from rfl)
              (fun _ => hdead) fun s db' w' b' tree' disk' hle h' hmoved _ hs =>
                wp_pure (htended s s db' w' b' tree' disk' hle h' (hmoved.tended hs)))
          · have hskip : db.compactLocked level = pure (.OK, db) := by
              rw [compactLocked, dif_pos (Nat.not_lt.mp hlast)]
            simp only [Op.prog, hskip, pure_bind]
            exact wp_pure (hquiet _ _ _ _ hst (Or.inl rfl) fun _ => id)
      | closeBegin =>
          rw [Op.prog, DB.closeBegin]
          split
          · exact wp_pure (hquiet _ _ _ _ hst (Or.inl rfl) fun _ => id)
          · exact wp_pure (hquiet _ _ _ _
              ⟨hdb, ⟨tree, disk, hinv.withFlags _ true _, hsettled⟩, hst.log⟩ (Or.inl rfl)
              fun _ htidy => htidy)
      | closeEnd =>
          refine wp_ite (fun _ => ?_) fun _ =>
            wp_pure (hquiet _ _ _ _ hst (Or.inl rfl) fun _ => id)
          refine wp_bind (wp_closeEnd hx hinv hdead fun s db' w' b' tree' disk' _ h' hshut =>
            wp_pure (hquiet _ _ _ _ ?_
              (topStep hinv h' (hshut.top.imp_right Or.inr))
              fun hcalm => (hshut.ok.resolve_right hcalm).2.2))
          refine ⟨hshut.dbPath.trans hdb, ⟨tree', disk', h', fun hcalm => ?_⟩, fun _ hopen => ?_⟩
          · exact (hshut.ok.resolve_right hcalm).2.1
          · rw [hshut.closed] at hopen
            cases hopen
      | reopen options =>
          refine wp_ite (fun hclosed => ?_) fun _ =>
            wp_pure (hquiet _ _ _ _ hst (Or.inl rfl) fun _ => id)
          refine wp_openObject hx (hreopen options rfl) hpath hst.crashed options (fun _ _ _ => id)
            fun s db' w' b' _ h' htidy => ⟨?_, fun _ _ _ _ hop => absurd rfl (hop options),
              fun hcalm _ hold => htidy hcalm ?_⟩
          · rw [effect_of_not_write hwrite]
            exact h'
          · have hbytes := hold (Or.inr hclosed)
            rw [hdb] at hbytes
            rw [LogBlank, hbytes]
            rfl

/-- Every section keeps the invariant of the machine. -/
theorem Machine.Stands.wp_prog {m : Machine} {op : Op} (hx : E.excludes) (hd : E.diverges)
    (hc : Unasked E c?) (hpath : c? = none ∨ d.getLast? ≠ some separator)
    (h : m.Stands c? (¬E.fails) d b) (hregular : ∀ c ∈ c?, op.Regular) (fuel : Nat) :
    wp E (op.prog fuel d m.db) (After E c? d op m) (Dead E d) m.world b := by
  by_cases hwrite : ∀ opts batch, op ≠ .write opts batch
  · exact wp_mono (h.wp_kept hx hd hwrite (fun _ _ hf => hc (Or.inl hf)) hpath fuel)
      (fun _ _ _ => id) fun _ _ => hc.dead
  · simp only [not_forall, not_not] at hwrite
    obtain ⟨opts, batch, rfl⟩ := hwrite
    obtain ⟨w, db?⟩ := m
    cases db? with
    | none => exact wp_pure (After.quiet h _)
    | some db => exact Standing.wp_write hx hd hc h fuel opts batch hregular

/-- A step of a machine keeps its invariant. -/
theorem Step.stands {A : Machine → Op → Nat → List Fault → Prop} {m m' : Machine} {e : Event}
    {t : Nat} (hx : E.excludes) (hd : E.diverges) (hc : Unasked E c?)
    (hpath : c? = none ∨ d.getLast? ≠ some separator) (hs : Step E A d m e t m')
    (h : m.Stands c? (¬E.fails) d b) (hregular : ∀ c ∈ c?, e.Regular) (ht : t ≤ b) :
    m'.Stands (c?.map e.effect) (¬E.fails) d (b - t) := by
  have hnone : ∀ e' : Event, E.crashes → Crashed none d m'.world (b - t) →
      Crashed (c?.map e'.effect) d m'.world (b - t) := fun e' hcrash h' => by
    rw [hc (Or.inr hcrash)]
    exact h'
  cases hs with
  | @returned op fuel fs rest s db' w' t admits allowed run =>
      exact ((h.wp_prog hx hd hc hpath hregular fuel).of_returned admits run ht).stands
  | @crashed op fuel fs w' t crashes admits allowed run =>
      exact hnone _ crashes
        ((h.wp_prog hx hd hc hpath hregular fuel).of_crashed admits run ht crashes)
  | killed crashes =>
      have hrest := h.crashed
      rw [hc (Or.inr crashes)] at hrest
      exact hnone _ crashes hrest

/-- A run of a machine keeps its invariant, within the budget of file numbers. -/
theorem Run.stands {A : Machine → Op → Nat → List Fault → Prop} {m₀ m : Machine}
    {es : List Event} {t : Nat} (hx : E.excludes) (hd : E.diverges) (hc : Unasked E c?)
    (hpath : c? = none ∨ d.getLast? ≠ some separator) (hr : Run E A d m₀ es t m)
    (h : m₀.Stands c? (¬E.fails) d b) (hregular : ∀ c ∈ c?, ∀ e ∈ es, e.Regular) (ht : t ≤ b) :
    m.Stands (c?.map (contentOf es)) (¬E.fails) d (b - t) := by
  induction hr with
  | start =>
      have hid : contentOf [] = id := rfl
      rwa [hid, Option.map_id, id]
  | @step es t t' m m' e run last ih =>
      have hm := ih (fun c hc e' he' => hregular c hc e' (List.mem_append_left _ he')) (by omega)
      have hmap : c?.map (contentOf (es ++ [e])) = (c?.map (contentOf es)).map e.effect := by
        rw [Option.map_map]
        congr 1
        funext c
        simp [contentOf]
      rw [hmap, ← Nat.sub_sub]
      have hcs : Unasked E (c?.map (contentOf es)) := fun hharm => by rw [hc hharm]; rfl
      refine last.stands hx hd hcs (hpath.imp_left fun hn => by rw [hn]; rfl) hm
        (fun c hc' => ?_) (by omega)
      obtain ⟨c₀, hc₀, -⟩ := Option.mem_map.mp hc'
      exact hregular c₀ hc₀ e (List.mem_append_right _ List.mem_cons_self)

/-- The log stays as the memtable wants it in a run without a failing call whose
batches hold what they should. -/
theorem Run.tidied {A : Machine → Op → Nat → List Fault → Prop} {m₀ m : Machine}
    {es : List Event} {t : Nat} (hx : E.excludes) (hd : E.diverges) (hf : ¬E.fails)
    (hc : ¬E.crashes) (hr : Run E A d m₀ es t m) (h : m₀.Stands none (¬E.fails) d b)
    (htidy : m₀.Tidied d) (hfilled : ∀ e ∈ es, e.Filled) (ht : t ≤ b) : m.Tidied d := by
  induction hr with
  | start => exact htidy
  | @step es t t' m m' e run last ih =>
      have hm := ih (fun e' he' => hfilled e' (List.mem_append_left _ he')) (by omega)
      have hstands := run.stands hx hd (fun _ => rfl) (Or.inl rfl) h (by simp)
        (Nat.le_trans (Nat.le_add_right t t') ht)
      cases last with
      | returned admits allowed run =>
          exact ((hstands.wp_prog hx hd (fun _ => rfl) (Or.inl rfl) (by simp) _).of_returned admits
            run (by omega)).tidied hf (hfilled _ (List.mem_append_right _ List.mem_cons_self)) hm
      | crashed crashes => exact absurd crashes hc
      | killed crashes => exact absurd crashes hc

/-- A blank directory stands for the empty map. -/
theorem Blank.stands (h : Blank d w) {calm : Prop} (hb : 1 + b < 2 ^ 64) :
    Machine.Stands (some fun _ => none) calm d b ⟨w, none⟩ := by
  refine ⟨Tree.initial, Or.inr ⟨h.manifest, rfl⟩, fun l f hf => absurd hf List.not_mem_nil, hb,
    fun c hc => ⟨[], ⟨by simp, Or.inr ⟨h.log, rfl⟩⟩, ?_⟩⟩
  obtain rfl := Option.mem_some_iff.mp hc
  funext k
  rfl

end Steps

section Execution

variable {E : Env} {A : Machine → Op → Nat → List Fault → Prop} {d : Path} {m₀ m m' m'' : Machine}
  {es es' : List Event} {t t' : Nat}

theorem Run.trans (h : Run E A d m₀ es t m) (h' : Run E A d m es' t' m') :
    Run E A d m₀ (es ++ es') (t + t') m' := by
  induction h' with
  | start => rwa [List.append_nil]
  | step run last ih => rw [← List.append_assoc, ← Nat.add_assoc]; exact ih.step last

/-- A run in an environment that allows more, and under a weaker condition. -/
theorem Run.mono {E' : Env} {A' : Machine → Op → Nat → List Fault → Prop}
    (hfails : E.fails → E'.fails) (hcrashes : E.crashes → E'.crashes)
    (hA : ∀ m op fuel fs, A m op fuel fs → A' m op fuel fs) (hr : Run E A d m₀ es t m) :
    Run E' A' d m₀ es t m := by
  have hadmits : ∀ fs, E.Admits fs → E'.Admits fs := fun fs h =>
    ⟨fun n hn => hfails (h.1 n hn), fun n hn => hcrashes (h.2 n hn)⟩
  induction hr with
  | start => exact .start
  | step run last ih =>
      refine ih.step ?_
      cases last with
      | returned admits allowed run =>
          exact .returned (hadmits _ admits) (hA _ _ _ _ allowed) run
      | crashed crashes admits allowed run =>
          exact .crashed (hcrashes crashes) (hadmits _ admits) (hA _ _ _ _ allowed) run
      | killed crashes => exact .killed (hcrashes crashes)

theorem Step.run {e : Event} (h : Step E A d m e t m') : Run E A d m [e] t m' := by
  have hrun := Run.start.step h
  rwa [Nat.zero_add] at hrun

/-- The step that a section with a fault script makes, if it ends. -/
def Machine.perform (fuel : Nat) (d : Path) (m : Machine) (op : Op) (fs : List Fault) :
    Option (Event × Nat × Machine) :=
  match op.prog fuel d m.db m.world fs with
  | .returned (s, db') w' _ t => some (.returned op m.accepting s, t, ⟨w', db'⟩)
  | .crashed w' t => some (.crashed op, t, ⟨w', none⟩)
  | _ => none

/-- The run that some sections make, each with its script. -/
def Machine.execute (fuel : Nat) (d : Path) :
    Machine → List (Op × List Fault) → Option (List Event × Nat × Machine)
  | m, [] => some ([], 0, m)
  | m, (op, fs) :: ops => do
      let (e, t, m') ← m.perform fuel d op fs
      let (es, t', m'') ← m'.execute fuel d ops
      return (e :: es, t + t', m'')

theorem Machine.step_of_perform {fuel : Nat} {op : Op} {fs : List Fault} {e : Event}
    (hfs : E.Admits fs) (hA : A m op fuel fs) (hcrash : E.crashes ∨ ∀ op, e ≠ .crashed op)
    (h : m.perform fuel d op fs = some (e, t, m')) : Step E A d m e t m' := by
  rw [perform] at h
  split at h
  next s db' w' rest t run =>
    cases h
    exact Step.returned hfs hA run
  next w' t run =>
    cases h
    exact Step.crashed (hcrash.resolve_right fun hno => hno op rfl) hfs hA run
  next => cases h

/-- Executing some sections is a run. -/
theorem Machine.run_of_execute {fuel : Nat} {ops : List (Op × List Fault)}
    (hfs : ∀ p ∈ ops, E.Admits p.2) (hA : ∀ p ∈ ops, ∀ m, A m p.1 fuel p.2)
    (hcrash : E.crashes ∨ ∀ e ∈ es, ∀ op, e ≠ .crashed op)
    (h : m.execute fuel d ops = some (es, t, m')) : Run E A d m es t m' := by
  induction ops generalizing m es t with
  | nil =>
      cases h
      exact Run.start
  | cons p ops ih =>
      obtain ⟨op, fs⟩ := p
      obtain ⟨hp, hops⟩ := List.forall_mem_cons.mp hfs
      obtain ⟨hAp, hAops⟩ := List.forall_mem_cons.mp hA
      simp only [execute, Option.bind_eq_bind, Option.bind_eq_some_iff, Option.pure_def,
        Option.some.injEq, Prod.mk.injEq] at h
      obtain ⟨⟨e, t₁, m₁⟩, hfirst, ⟨es', t', m''⟩, hrest, rfl, rfl, rfl⟩ := h
      have hrun := (step_of_perform hp (hAp m) (hcrash.imp_right fun hno =>
        hno e List.mem_cons_self) hfirst).run.trans (ih hops hAops
          (hcrash.imp_right fun hno e' he' => hno e' (List.mem_cons_of_mem _ he')) hrest)
      exact hrun

end Execution

end ClomDB
