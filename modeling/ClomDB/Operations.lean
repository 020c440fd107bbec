import ClomDB.CompactLocked

/-!
# The operations of an open database

`Flush`, `Write`, one iteration of the background thread and the end of
`Close` keep the invariant. A write moves the map the database stands for,
the others leave it alone, whatever fails in a flush or a compaction.
-/

namespace ClomDB

open FaultProgram FileSystem FileSystem.World LayeredMap SSTable DB WriteAheadLog

variable {E : Env} {C : World → Nat → Prop} {w w' : World} {b : Nat} {db : DB}
  {c? : Option Content} {tree disk : Tree}

/-- The compaction loop ends: it may run on, or every compaction moves tables down. -/
def Enough (E : Env) (fuel : Nat) (db : DB) : Prop :=
  E.diverges ∨ 1 ≤ db.options.l0CompactionTrigger ∧ 15 < fuel

theorem Enough.weight {fuel : Nat} {db' : DB} (h : Enough E fuel db)
    (hoptions : db'.options = db.options) (t : Tree) :
    E.diverges ∨ 1 ≤ db'.options.l0CompactionTrigger ∧ t.weight < fuel := by
  rw [hoptions]
  exact Or.imp_right (fun ⟨htrigger, hlt⟩ => ⟨htrigger, Nat.lt_of_le_of_lt t.weight_le hlt⟩) h

/-- The log holds no record once the memtable is empty or the database closed. -/
def Tidy (w : World) (db : DB) : Prop :=
  db.memtable.empty = true ∨ db.closed = true → w.bytes (walPath db.dbPath) = some []

/-- What a flush or a compaction has done when it returns. -/
structure Tended (E : Env) (tree disk : Tree) (w : World) (db : DB) (s : Status)
    (tree' disk' : Tree) (w' : World) (db' : DB) : Prop where
  shell : SameShell db db'
  next_le : tree.next ≤ tree'.next
  top : tree'.levels 0 = tree.levels 0 ∨ tree'.levels 0 = [] ∨
    ∃ f, tree'.levels 0 = tree.levels 0 ++ [f] ∧ f.number = tree.next
  ok : s.ok = true ∧ (db.LogOpen → db'.LogOpen) ∧ (disk = tree → disk' = tree') ∧
    (Tidy w db → Tidy w' db') ∨ E.fails

theorem Tidy.moved {s : Status} {tree' disk' : Tree} {db' : DB} (h : Tidy w db)
    (hmoved : Moved tree disk w db s tree' disk' w' db') : Tidy w' db' := by
  intro hwhy
  rw [hmoved.memtable, hmoved.shell.closed] at hwhy
  rw [hmoved.shell.dbPath, hmoved.log]
  exact h hwhy

theorem Moved.tended {s : Status} {tree' disk' : Tree} {db' : DB}
    (h : Moved tree disk w db s tree' disk' w' db') (hs : s.ok = true ∨ E.fails) :
    Tended E tree disk w db s tree' disk' w' db' := by
  refine ⟨h.shell, h.next_le, h.top.imp_right Or.inl, hs.imp_left fun hok =>
    ⟨hok, fun hopen => ?_, h.settled hok, fun htidy => htidy.moved h⟩⟩
  rw [DB.LogOpen, h.wal, h.shell.dbPath]
  exact hopen

/-- A flush leaves the log as the empty memtable wants it. -/
theorem Tidy.flushed {s : Status} {tree' disk' : Tree} {db' : DB} (h : Tidy w db)
    (hflushed : Flushed tree disk db s tree' disk' db')
    (hlog : db.memtable.empty = true ∧ w' = w ∨ w'.bytes (walPath db.dbPath) = some []) :
    Tidy w' db' := by
  intro _
  rw [hflushed.shell.dbPath]
  rcases hlog with ⟨hempty, rfl⟩ | hlog
  · exact h (Or.inl hempty)
  · exact hlog

/-- After a flush that ends well the memtable is empty. -/
theorem Flushed.empty {s : Status} {tree' disk' : Tree} {db' : DB}
    (h : Flushed tree disk db s tree' disk' db') (hs : s.ok = true) :
    db'.memtable.empty = true := by
  rcases h.ok hs with ⟨hempty, -, -, rfl⟩ | ⟨-, -, hmem, -⟩
  · exact hempty
  · rw [hmem]
    rfl

/-- A flush that ends well leaves nothing in the memtable and no level to compact. -/
def Emptied (s : Status) (db : DB) : Prop :=
  s.ok = true ∧ db.memtable.empty = true ∧ db.needsCompactionLocked = none

theorem wp_flush {fuel : Nat} {Q : Status × DB → World → Nat → Prop} (hx : E.excludes)
    (h : InvOn c? tree disk w db b) (hfuel : Enough E fuel db)
    (hC : E.crashes ∨ db.FilterFailsWithin (tree.size + db.memtable.flushEntries.length) →
      ∀ w' b', b' ≤ b → Crashed c? db.dbPath w' b' → C w' b')
    (hQ : ∀ s db' w' b' tree' disk', b' ≤ b → InvOn c? tree' disk' w' db' b' →
      Tended E tree disk w db s tree' disk' w' db' → (Emptied s db' ∨ E.fails) →
      Q (s, db') w' b') :
    wp E (db.flush fuel) Q C w b := by
  rw [flush]
  refine wp_bind (wp_flushMemTableLocked hx h
    (fun hc => hC (hc.imp_right fun hn => hn.mono (Nat.le_add_left _ _) rfl))
    fun s db' w' b' tree' disk' hle h' hflushed hs => ?_)
  cases hok : s.ok with
  | false =>
      simp only [hok, Bool.not_false, if_true]
      have hf : E.fails := hs.resolve_left fun h => by rw [hok] at h; cases h.1
      exact wp_pure (hQ _ _ _ _ _ _ hle h' ⟨hflushed.shell, hflushed.next_le,
        hflushed.top.imp_right Or.inr, Or.inr hf⟩ (Or.inr hf))
  | true =>
      simp only [hok, Bool.not_true, Bool.false_eq_true, if_false]
      have hsettled : disk = tree → disk' = tree' := fun hd => by
        rcases hflushed.ok hok with ⟨-, htree, hdisk, -⟩ | ⟨-, hdisk, -⟩
        · rw [htree, hdisk, hd]
        · exact hdisk
      refine wp_compactionLoop hx h' (hfuel.weight hflushed.shell.options tree') ?_ ?_
      · intro hc w'' b'' hle' hw''
        rw [hflushed.shell.dbPath] at hw''
        exact hC (hc.imp_right fun hn => hn.mono hflushed.size_le hflushed.shell.options.symm)
          w'' b'' (by omega) hw''
      · intro s' db'' w'' b'' tree'' disk'' hle' h'' hmoved hs'
        refine hQ _ _ _ _ _ _ (by omega) h'' ⟨hflushed.shell.trans hmoved.shell,
          UInt64.le_trans hflushed.next_le hmoved.next_le, ?_, ?_⟩ (hs'.imp_left fun h => ?_)
        · rcases hmoved.top with htop | htop
          · rw [htop]
            exact hflushed.top.imp_right Or.inr
          · exact Or.inr (Or.inl htop)
        · rcases hs with ⟨-, hlog, hbytes⟩ | hf
          · refine hs'.imp_left fun ⟨hok', _⟩ => ⟨hok', fun hopen => ?_, fun hd =>
              hmoved.settled hok' (hsettled hd), fun htidy =>
                (htidy.flushed hflushed hbytes).moved hmoved⟩
            rw [DB.LogOpen, hmoved.wal, hmoved.shell.dbPath]
            exact hlog hopen
          · exact Or.inr hf
        · refine ⟨h.1, ?_, h.2⟩
          rw [hmoved.memtable]
          exact hflushed.empty hok

theorem wp_maybeFlushLocked {fuel : Nat} {Q : Status × DB → World → Nat → Prop}
    (hx : E.excludes) (h : InvOn c? tree disk w db b) (hfuel : Enough E fuel db)
    (hC : ∀ w' b', b' ≤ b → Crashed c? db.dbPath w' b' → C w' b')
    (hQ : ∀ s db' w' b' tree' disk', b' ≤ b → InvOn c? tree' disk' w' db' b' →
      Tended E tree disk w db s tree' disk' w' db' → Q (s, db') w' b') :
    wp E (db.maybeFlushLocked fuel) Q C w b := by
  rw [maybeFlushLocked]
  refine wp_ite (fun _ => wp_flush hx h hfuel (fun _ => hC)
    fun s db' w' b' tree' disk' hle h' ht _ => hQ s db' w' b' tree' disk' hle h' ht) fun _ => ?_
  refine wp_compactionLoop hx h (hfuel.weight rfl tree) (fun _ => hC)
    fun s db' w' b' tree' disk' hle h' hmoved hs => ?_
  exact hQ _ _ _ _ _ _ hle h' (hmoved.tended (hs.imp_left And.left))

/-- The map after a batch: the operations that `Iterate` makes of its bytes. -/
def WriteBatch.after (batch : WriteBatch) (c : Content) : Content :=
  (decodeOps batch.rep).foldl BatchOp.apply c

/-- `Iterate` reaches the end of the batch and the count is right. -/
def WriteBatch.WellFormed (batch : WriteBatch) : Prop := (batch.iterate recorder []).1.ok = true

/-- The object after a batch is applied to its memtable. -/
def DB.applied (db : DB) (batch : WriteBatch) : DB :=
  { db with memtable := (WriteBatch.decodeOps batch.rep).foldl MemTable.handler.call db.memtable }

theorem applyBatchLocked_eq (db : DB) (batch : WriteBatch) : db.applyBatchLocked batch =
    ((batch.iterate WriteBatch.recorder []).1, db.applied batch) := by
  rw [applyBatchLocked, WriteBatch.iterate_eq]
  rfl

theorem logLayer_snoc (recs : List Bytes) (rep : Bytes) :
    logLayer (recs ++ [rep]) = overlay (opsLayer (WriteBatch.decodeOps rep)) (logLayer recs) := by
  rw [logLayer, List.flatMap_append, List.flatMap_singleton, opsLayer_append]
  rfl

/-- A batch that is logged as a whole and then applied moves the map. -/
theorem InvOn.applied {batch : WriteBatch} (h : InvOn c? tree disk w db b) (hopen : db.LogOpen)
    (hlen : ∀ c ∈ c?, batch.rep.length < 2 ^ 32)
    (hw : Grew (walPath db.dbPath) (frame batch.rep) w w') :
    InvOn (c?.map batch.after) tree disk w' (db.applied batch) b := by
  obtain ⟨hh, hr⟩ := h
  have hfile : w.bytes (walPath db.dbPath) ≠ none := by
    rcases hh.wal with hwal | ⟨-, hfile⟩
    · rw [hopen] at hwal
      cases hwal
    · exact hfile
  have hfile' : w'.bytes (walPath db.dbPath) ≠ none := by
    rw [hw.bytes]
    simpa using hfile
  refine ⟨{ hh with
    stored := hh.stored.onlyAt hw.only (sstablePath_ne_wal _)
    onDisk := hh.onDisk.onlyAt hw.only (sstablePath_ne_wal _) (wal_ne_manifest _).symm
    short := MemTable.short_foldl (WriteBatch.decodeOps_short _) hh.short
    wal := Or.inr ⟨hopen, hfile'⟩ }, fun c hc => ?_⟩
  obtain ⟨c₀, hc₀, rfl⟩ := Option.mem_map.mp hc
  obtain ⟨recs, hlog, hs⟩ := hr c₀ hc₀
  have hbytes : w.bytes (walPath db.dbPath) = some (recs.flatMap frame) :=
    hlog.bytes.resolve_right fun hn => hfile hn.1
  refine ⟨recs ++ [batch.rep], ⟨fun r hr => ?_, Or.inl ?_⟩, ?_⟩
  · rcases List.mem_append.mp hr with hr | hr
    · exact hlog.short r hr
    · rw [List.mem_singleton.mp hr]
      exact hlen c₀ hc₀
  · have happend := hw.bytes
    rw [hbytes] at happend
    rw [List.flatMap_append, List.flatMap_singleton]
    exact happend
  · have hwrite := hs.write (opsLayer (WriteBatch.decodeOps batch.rep))
    have hcontent : view (overlay db.memtable.layer tree.layer) = c₀ := hs.content
    simp only [view_overlay_opsLayer, hcontent] at hwrite
    rw [logLayer_snoc]
    simp only [DB.applied, MemTable.layer_foldl]
    exact hwrite

/-- `Write` once the record of the batch is in the log. -/
def DB.finishWrite (fuel : Nat) (db : DB) (batch : WriteBatch) : Prog World (Status × DB) :=
  let (s, db) := db.applyBatchLocked batch
  if !s.ok then
    pure (s, db)
  else if db.options.backgroundCompaction then
    pure (s, { db with bgWorkRequested := true })
  else
    db.maybeFlushLocked fuel

/-- `Write` of an open database appends to the log and goes on. -/
theorem write_eq {fuel : Nat} {opts : WriteOptions} {batch : WriteBatch} {log : WriteAheadLog}
    (hne : batch.empty = false) (hclosed : db.closed = false) (hlog : db.wal = some log) :
    db.write fuel opts batch = (do
      let (s, log) ← log.addRecord batch.rep (opts.sync || db.options.syncWrites)
      if !s.ok then
        return (s, { db with wal := some log })
      else
        DB.finishWrite fuel { db with wal := some log } batch) := by
  rw [write, if_neg (by rw [hne]; simp), if_neg (by rw [hclosed]; simp), hlog]
  rfl

/-- A logged batch is applied, and the flush and the compactions that it
triggers leave the new map alone. -/
theorem wp_finishWrite {fuel : Nat} {batch : WriteBatch} {Q : Status × DB → World → Nat → Prop}
    (hx : E.excludes) (h : InvOn c? tree disk w (db.applied batch) b) (hfuel : Enough E fuel db)
    (hC : ∀ w' b', b' ≤ b → Crashed c? db.dbPath w' b' → C w' b')
    (hQ : ∀ s db' w' b' tree' disk', b' ≤ b → InvOn c? tree' disk' w' db' b' →
      SameShell db db' → tree.next ≤ tree'.next →
      (¬batch.WellFormed ∧ s.ok = false ∧ tree' = tree ∧ disk' = disk ∧ db' = db.applied batch ∨
        Tended E tree disk w (db.applied batch) s tree' disk' w' db') → Q (s, db') w' b') :
    wp E (db.finishWrite fuel batch) Q C w b := by
  have hshell : SameShell db (db.applied batch) := ⟨rfl, rfl, rfl, rfl⟩
  simp only [finishWrite, applyBatchLocked_eq]
  cases hwell : (batch.iterate WriteBatch.recorder []).1.ok with
  | false =>
      have hmal : ¬batch.WellFormed := fun hw => by
        rw [WriteBatch.WellFormed, hwell] at hw
        cases hw
      exact wp_pure (hQ _ _ _ _ _ _ (Nat.le_refl b) h hshell (UInt64.le_refl _)
        (Or.inl ⟨hmal, hwell, rfl, rfl, rfl⟩))
  | true =>
      simp only [Bool.not_true, Bool.false_eq_true, if_false]
      refine wp_ite (fun _ => ?_) fun _ => ?_
      · refine wp_pure (hQ _ _ _ _ _ _ (Nat.le_refl b)
          (h.withFlags true db.shuttingDown db.closed) ⟨rfl, rfl, rfl, rfl⟩
          (UInt64.le_refl _) (Or.inr ?_))
        exact ⟨⟨rfl, rfl, rfl, rfl⟩, UInt64.le_refl _, Or.inl rfl,
          Or.inl ⟨hwell, id, id, id⟩⟩
      · exact wp_maybeFlushLocked hx h hfuel hC fun s db' w' b' tree' disk' hle h' htended =>
          hQ _ _ _ _ _ _ hle h' (hshell.trans htended.shell) htended.next_le (Or.inr htended)

/-- A write is skipped, or fails to be logged, or is logged and applied. In the
last case the flush and the compactions it triggers leave the new map alone. -/
theorem wp_write {fuel : Nat} {opts : WriteOptions} {batch : WriteBatch}
    {Q : Status × DB → World → Nat → Prop} (hx : E.excludes) (h : InvOn c? tree disk w db b)
    (hlen : ∀ c ∈ c?, batch.rep.length < 2 ^ 32) (hfuel : Enough E fuel db)
    (hC : ∀ w' b', b' ≤ b → Crashed (c?.map batch.after) db.dbPath w' b' → C w' b')
    (happend : E.crashes → ∀ n w', Grew (walPath db.dbPath) ((frame batch.rep).take n) w w' →
      C w' b)
    (hempty : batch.empty = true → Q (.OK, db) w b)
    (hclosed : db.closed = true → ∀ s, s.ok = false → Q (s, db) w b)
    (hlost : ¬db.LogOpen → ∀ s, s.ok = false → Q (s, db) w b)
    (hfail : E.fails → db.LogOpen → ∀ s n w', s.ok = false →
      Grew (walPath db.dbPath) ((frame batch.rep).take n) w w' → Q (s, db) w' b)
    (hQ : batch.empty = false → db.closed = false → db.LogOpen →
      ∀ s db' w' b' tree' disk', b' ≤ b → InvOn (c?.map batch.after) tree' disk' w' db' b' →
      SameShell db db' → tree.next ≤ tree'.next →
      (¬batch.WellFormed ∧ s.ok = false ∧ tree' = tree ∧ disk' = disk ∧ db' = db.applied batch ∨
        ∃ w₁, Tended E tree disk w₁ (db.applied batch) s tree' disk' w' db') → Q (s, db') w' b') :
    wp E (db.write fuel opts batch) Q C w b := by
  cases hne : batch.empty with
  | true =>
      rw [write, if_pos hne]
      exact wp_pure (hempty hne)
  | false =>
      cases hnc : db.closed with
      | true =>
          rw [write, if_neg (by rw [hne]; simp), if_pos hnc]
          exact wp_pure (hclosed hnc _ rfl)
      | false =>
          rcases h.holds.wal with hwal | ⟨hopen, hfile⟩
          · have hnot : ¬db.LogOpen := fun hopen => by
              rw [hopen] at hwal
              cases hwal
            have hsame : { db with wal := some ⟨none, walPath db.dbPath⟩ } = db := by rw [← hwal]
            rw [write_eq hne hnc hwal]
            refine wp_bind (wp_pure ?_)
            simp only [hsame]
            exact wp_pure (hlost hnot _ rfl)
          · have hsame : { db with
                wal := some ⟨some ⟨walPath db.dbPath, []⟩, walPath db.dbPath⟩ } = db := by
              rw [← show db.wal = _ from hopen]
            rw [write_eq hne hnc hopen]
            refine wp_bind (wp_addRecord rfl (Or.inl hx) (fun w' hw' _ => ?_)
              (fun hf s n w' hs hw' => ?_) happend)
            · simp only [Status.ok_OK, Bool.not_true, Bool.false_eq_true, if_false, hsame]
              refine wp_finishWrite hx (h.applied hopen hlen hw') hfuel hC
                fun s db' w'' b' tree' disk' hle h' hshell hnext hhow =>
                  hQ hne hnc hopen s db' w'' b' tree' disk' hle h' hshell hnext
                    (hhow.imp_right fun ht => ⟨w', ht⟩)
            · simp only [hs, Bool.not_false, if_true, hsame]
              exact wp_pure (hfail hf hopen s n w' hs hw')

/-- A round of the background thread is a flush, or nothing. -/
theorem wp_backgroundIteration {fuel : Nat} {Q : DB → World → Nat → Prop} (hx : E.excludes)
    (h : InvOn c? tree disk w db b) (hfuel : Enough E fuel db)
    (hC : ∀ w' b', b' ≤ b → Crashed c? db.dbPath w' b' → C w' b')
    (hQ : ∀ s db' w' b' tree' disk', b' ≤ b → InvOn c? tree' disk' w' db' b' →
      Tended E tree disk w db s tree' disk' w' db' → Q db' w' b') :
    wp E (db.backgroundIteration fuel) Q C w b := by
  rw [backgroundIteration]
  refine wp_ite (fun _ => ?_) fun _ => ?_
  · exact wp_pure (hQ .OK _ _ _ _ _ (Nat.le_refl b) h
      ⟨SameShell.refl db, UInt64.le_refl _, Or.inl rfl, Or.inl ⟨rfl, id, id, id⟩⟩)
  · refine wp_bind (wp_flush hx (h.withFlags false db.shuttingDown db.closed) hfuel (fun _ => hC)
      fun s db' w' b' tree' disk' hle h' htended _ => wp_pure ?_)
    exact hQ s _ _ _ _ _ hle h'
      ⟨⟨htended.shell.dbPath, htended.shell.options, htended.shell.shuttingDown,
        htended.shell.closed⟩, htended.next_le, htended.top, htended.ok⟩

/-- What the end of `Close` has done when it returns. -/
structure Shut (E : Env) (tree : Tree) (w : World) (db : DB) (s : Status) (tree' disk' : Tree)
    (w' : World) (db' : DB) : Prop where
  dbPath : db'.dbPath = db.dbPath
  options : db'.options = db.options
  closed : db'.closed = true
  next_le : tree.next ≤ tree'.next
  top : tree'.levels 0 = tree.levels 0 ∨
    ∃ f, tree'.levels 0 = tree.levels 0 ++ [f] ∧ f.number = tree.next
  ok : s.ok = true ∧ disk' = tree' ∧ (Tidy w db → Tidy w' db') ∨ E.fails

theorem wp_closeEnd {Q : Status × DB → World → Nat → Prop} (hx : E.excludes)
    (h : InvOn c? tree disk w db b)
    (hC : ∀ w' b', b' ≤ b → Crashed c? db.dbPath w' b' → C w' b')
    (hQ : ∀ s db' w' b' tree' disk', b' ≤ b → InvOn c? tree' disk' w' db' b' →
      Shut E tree w db s tree' disk' w' db' → Q (s, db') w' b') :
    wp E db.closeEnd Q C w b := by
  rw [closeEnd]
  refine wp_bind (wp_flushMemTableLocked hx h (fun _ => hC)
    fun s db₁ w₁ b₁ tree₁ disk₁ hle₁ h₁ hflushed hs => ?_)
  have hpath := hflushed.shell.dbPath
  have hsame : ∀ w₂, Grew (walPath db₁.dbPath) [] w₁ w₂ →
      InvOn c? tree₁ disk₁ w₂ { db₁ with wal := some ⟨none, walPath db₁.dbPath⟩ } b₁ := by
    intro w₂ hw₂
    refine h₁.onlyAt_wal hw₂.only (Or.inl rfl) ?_
    rw [hw₂.bytes]
    simpa using h₁.recovers
  have hcrash : ∀ w₂ b₂, b₂ ≤ b₁ → Crashed c? db₁.dbPath w₂ b₂ → C w₂ b₂ := fun w₂ b₂ hb hw₂ => by
    rw [hpath] at hw₂
    exact hC w₂ b₂ (by omega) hw₂
  -- whatever closing the log answers, the version is saved
  have hsave : ∀ ws w₂, (s.ok = true ∧ ws.ok = true ∨ E.fails) →
      Grew (walPath db₁.dbPath) [] w₁ w₂ →
      wp E (db₁.version.save (manifestPath db₁.dbPath) >>= fun vs =>
        pure (if (if s.ok then ws else s).ok then vs else if s.ok then ws else s,
          { db₁ with wal := some ⟨none, walPath db₁.dbPath⟩, closed := true })) Q C w₂ b₁ := by
    intro ws w₂ hws hw₂
    refine wp_bind (@wp_saveManifest _ _ _ _
      { db₁ with wal := some ⟨none, walPath db₁.dbPath⟩ } _ _ _ _ hx
      (hsame w₂ hw₂) (fun _ w₃ hw₃ => hcrash w₃ b₁ (Nat.le_refl _) hw₃) ?_ ?_)
    · intro hf vs w₃ _ hw₃
      exact wp_pure (hQ _ _ _ _ _ _ hle₁ (hw₃.withFlags db₁.bgWorkRequested db₁.shuttingDown true)
        ⟨hpath, hflushed.shell.options, rfl, hflushed.next_le, hflushed.top, Or.inr hf⟩)
    · intro w₃ hw₃ hlog
      refine wp_pure (hQ _ _ _ _ _ _ hle₁
        (hw₃.withFlags db₁.bgWorkRequested db₁.shuttingDown true)
        ⟨hpath, hflushed.shell.options, rfl, hflushed.next_le, hflushed.top, ?_⟩)
      rcases hs with ⟨hok, -, hbytes⟩ | hf
      · refine hws.imp_left fun ⟨_, hws⟩ => ⟨?_, rfl, fun htidy _ => ?_⟩
        · simp only [hok, if_true, hws, Status.ok_OK]
        · have hempty := htidy.flushed hflushed hbytes (Or.inl (hflushed.empty hok))
          have hsame : w₂.bytes (walPath db₁.dbPath) = w₁.bytes (walPath db₁.dbPath) := by
            rw [hw₂.bytes]
            simp
          exact hlog.trans (hsame.trans hempty)
      · exact Or.inr hf
  have hs' : s.ok = true ∨ E.fails := hs.imp_left And.left
  obtain ⟨log, hlog, hidle⟩ : ∃ log, db₁.wal = some log ∧ log.Idle (walPath db₁.dbPath) := by
    rcases h₁.holds.wal with hw | ⟨hw, -⟩
    · exact ⟨_, hw, WriteAheadLog.idle_closed _⟩
    · exact ⟨_, hw, rfl, Or.inr rfl⟩
  simp only [hlog]
  refine wp_bind (WriteAheadLog.wp_close hidle (fun w₂ hw₂ => ?_) (fun hf ws w₂ _ hw₂ => ?_)
    fun _ w₂ hw₂ => hcrash w₂ b₁ (Nat.le_refl _) (hsame w₂ hw₂).crashed)
  · exact hsave .OK w₂ (hs'.imp_left fun hok => ⟨hok, rfl⟩) hw₂
  · exact hsave ws w₂ (Or.inr hf) hw₂

end ClomDB
