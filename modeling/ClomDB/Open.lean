import ClomDB.Operations
import ClomDB.Sweep

/-!
# Opening a database

`Open` on a directory at rest: the manifest is loaded, orphans are swept, the
tables are opened and the log is replayed. What it returns stands for the map
that the directory stood for. When it fails, its object is destroyed, and the
directory is at rest again.

## Implementation notes

A replay in which a read fails looks like one of a shorter log, so a map is
given only where no call fails.
-/

namespace ClomDB

open FaultProgram FileSystem FileSystem.World LayeredMap SSTable DB WriteAheadLog

variable {E : Env} {C : World → Nat → Prop} {w w' : World} {b : Nat} {db : DB}
  {c? : Option Content} {tree disk : Tree} {d : Path}

/-- A table without a file cannot be opened. -/
theorem observes_open_missing {held : Nat} {path : Path} (hx : E.excludes)
    (hw : w.bytes path = none) :
    Observes E (SSTableReader.open held path) (fun x => ∃ s, x = .error s ∧ s.ok = false) w := by
  rw [SSTableReader.open]
  have hopen : Observes E (fopenHeld held path) (fun r => ∃ n, r = .error n) w :=
    Observes.probeIf (Or.inl hx) (fun _ => ⟨_, by rw [hw]⟩) fun _ _ => ⟨_, rfl⟩
  refine Observes.bind hopen fun r hr => ?_
  obtain ⟨n, rfl⟩ := hr
  exact Observes.ret ⟨_, rfl, rfl⟩

/-- The tables that are there are opened one after the other. -/
theorem observes_openLevel {l : Fin kMaxLevels} {files : List TableFile} (hx : E.excludes)
    (hfiles : ∀ f ∈ files, f.StoredIn db.dbPath w ∨ w.bytes (sstablePath db.dbPath f.number) = none) :
    Observes E (db.openLevel l (files.map TableFile.info)) (fun r => ∃ readers,
      r.2 = { db with openReaders := readers } ∧
        ((∀ f ∈ files, f.StoredIn db.dbPath w) ∧ r.1 = .OK ∧
            (∃ rs, List.Forall₂ (TableFile.ReadIn · db.dbPath ·) files rs ∧
              readers = Function.update db.openReaders l (db.openReaders l ++ rs)) ∨
          r.1.ok = false ∧ (E.fails ∨ ∃ f ∈ files, ¬f.StoredIn db.dbPath w))) w := by
  induction files generalizing db with
  | nil =>
      refine Observes.ret ⟨db.openReaders, rfl, Or.inl ⟨by simp, rfl, [], List.Forall₂.nil, ?_⟩⟩
      rw [List.append_nil, Function.update_eq_self]
  | cons f files ih =>
      obtain ⟨hf, htail⟩ := List.forall_mem_cons.mp hfiles
      rw [List.map_cons, openLevel]
      rcases hf with ⟨data, hdata, hstored⟩ | hnone
      · refine Observes.bind (observes_open hdata hstored (Or.inl hx)) fun x hx' => ?_
        rcases hx' with ⟨-, r, rfl, hr, -⟩ | ⟨hfail, s, rfl, hs⟩
        · refine (@ih (db.addReader l r) htail).mono fun x hx' => ?_
          obtain ⟨readers, hdb, hrest⟩ := hx'
          refine ⟨readers, hdb, hrest.imp ?_ ?_⟩
          · rintro ⟨hall, hok, rs, hrs, rfl⟩
            refine ⟨List.forall_mem_cons.mpr ⟨⟨data, hdata, hstored⟩, hall⟩, hok, r :: rs,
              List.Forall₂.cons hr hrs, ?_⟩
            simp [addReader]
          · rintro ⟨hs, hwhy⟩
            exact ⟨hs, hwhy.imp_right fun ⟨g, hg, hn⟩ => ⟨g, List.mem_cons_of_mem _ hg, hn⟩⟩
        · exact Observes.ret ⟨db.openReaders, rfl, Or.inr ⟨hs, Or.inl hfail⟩⟩
      · refine Observes.bind (observes_open_missing hx hnone) fun x hx' => ?_
        obtain ⟨s, rfl, hs⟩ := hx'
        refine Observes.ret ⟨db.openReaders, rfl, Or.inr ⟨hs, Or.inr ⟨f, List.mem_cons_self, ?_⟩⟩⟩
        rintro ⟨data, hdata, -⟩
        have hnone' : w.bytes (sstablePath db.dbPath f.number) = none := hnone
        rw [hnone'] at hdata
        cases hdata

/-- The tables of some levels are opened, level by level. -/
theorem observes_openLevels (files : Levels TableFile) {lvls : List (Fin kMaxLevels)}
    (hx : E.excludes) (hnodup : lvls.Nodup)
    (hversion : ∀ l, db.version.levels l = (files l).map TableFile.info)
    (hempty : ∀ l ∈ lvls, db.openReaders l = [])
    (hfiles : ∀ l, ∀ f ∈ files l,
      f.StoredIn db.dbPath w ∨ w.bytes (sstablePath db.dbPath f.number) = none) :
    Observes E (db.openLevels lvls) (fun r => ∃ readers,
      r.2 = { db with openReaders := readers } ∧
        ((∀ l ∈ lvls, ∀ f ∈ files l, f.StoredIn db.dbPath w) ∧ r.1 = .OK ∧
            (∀ l ∈ lvls, List.Forall₂ (TableFile.ReadIn · db.dbPath ·) (files l) (readers l)) ∧
            (∀ l ∉ lvls, readers l = db.openReaders l) ∨
          r.1.ok = false ∧ (E.fails ∨ ∃ l, ∃ f ∈ files l, ¬f.StoredIn db.dbPath w))) w := by
  induction lvls generalizing db with
  | nil => exact Observes.ret ⟨db.openReaders, rfl, Or.inl ⟨by simp, rfl, by simp, by simp⟩⟩
  | cons l lvls ih =>
      obtain ⟨hnot, hnodup⟩ := List.nodup_cons.mp hnodup
      rw [openLevels, hversion]
      refine Observes.bind (observes_openLevel hx (hfiles l)) fun r hr => ?_
      obtain ⟨s, db₁⟩ := r
      obtain ⟨readers, rfl, ⟨hall, rfl, rs, hrs, rfl⟩ | ⟨hs, hwhy⟩⟩ := hr
      · simp only [Status.ok_OK, Bool.not_true, Bool.false_eq_true, if_false]
        refine (@ih { db with
          openReaders := Function.update db.openReaders l (db.openReaders l ++ rs) }
          hnodup hversion (fun m hm => ?_) hfiles).mono fun r hr => ?_
        · have hne : m ≠ l := fun h => hnot (h ▸ hm)
          simp only [Function.update_of_ne hne]
          exact hempty m (List.mem_cons_of_mem _ hm)
        · obtain ⟨readers, hdb, hrest⟩ := hr
          refine ⟨readers, hdb, hrest.imp_left ?_⟩
          rintro ⟨hstored, hok, hread, hother⟩
          refine ⟨List.forall_mem_cons.mpr ⟨hall, hstored⟩, hok,
            List.forall_mem_cons.mpr ⟨?_, hread⟩, fun m hm => ?_⟩
          · rw [hother l hnot]
            simp only [Function.update_self, hempty l List.mem_cons_self, List.nil_append]
            exact hrs
          · have hne : m ≠ l := fun h => hm (h ▸ List.mem_cons_self)
            rw [hother m fun h => hm (List.mem_cons_of_mem _ h)]
            exact Function.update_of_ne hne _ _
      · simp only [hs, Bool.not_false, if_true]
        exact Observes.ret ⟨readers, rfl, Or.inr ⟨hs, hwhy.imp_right fun ⟨f, hf, hn⟩ =>
          ⟨l, f, hf, hn⟩⟩⟩

namespace AtRest

/-- A directory stays at rest where the manifest, the log and the tables stay,
or tables go whose content nobody asks for. -/
theorem congr (h : AtRest c? disk d w b)
    (hmanifest : w'.bytes (manifestPath d) = w.bytes (manifestPath d))
    (hwal : w'.bytes (walPath d) = w.bytes (walPath d))
    (htable : ∀ l, ∀ f ∈ disk.levels l,
      w'.bytes (sstablePath d f.number) = w.bytes (sstablePath d f.number) ∨
        c? = none ∧ w'.bytes (sstablePath d f.number) = none) : AtRest c? disk d w' b := by
  refine ⟨by rw [hmanifest]; exact h.manifest, fun l f hf => ?_, h.budget, by rw [hwal]; exact h.content⟩
  rcases htable l f hf with hsame | hgone
  · rw [hsame]
    exact h.stored l f hf
  · exact Or.inr hgone

theorem onlyAt_tmp (h : AtRest c? disk d w b)
    (hw : OnlyAt (Version.tmpPath (manifestPath d)) w w') : AtRest c? disk d w' b :=
  h.congr (hw.bytes (manifest_ne_tmp d)) (hw.bytes (wal_ne_tmp d))
    fun _ f _ => Or.inl (hw.bytes (sstablePath_ne_tmp d f.number))

/-- Creating the directory does not touch a file. -/
theorem directory (h : AtRest c? disk d w b) : AtRest c? disk d { w with directory := true } b :=
  h.congr rfl rfl fun _ _ _ => Or.inl rfl

theorem mono (h : AtRest c? disk d w b) {b' : Nat} (hb : b' ≤ b) : AtRest c? disk d w b' :=
  { h with budget := by have := h.budget; omega }

/-- The sweep of `Open` leaves the tables of the version alone when the path
does not end with a separator. -/
theorem swept (h : AtRest c? disk d w b) (hdb : db.dbPath = d)
    (hversion : db.version = disk.version)
    (hpath : c? = none ∨ d.getLast? ≠ some separator) {names : List Bytes}
    (hnames : ∀ n ∈ names, separator ∉ n) (hw : db.Swept names w w') : AtRest c? disk d w' b := by
  subst hdb
  refine h.congr (hw.bytes_other hnames separator_notMem_names.2.1 (by decide))
    (hw.bytes_other hnames separator_notMem_names.1 (by decide)) fun l f hf => ?_
  rcases hpath with hnone | hpath
  · rcases hw.file (sstablePath db.dbPath f.number) with hsame | ⟨hgone, -⟩
    · exact Or.inl (by rw [World.bytes, World.bytes, hsame])
    · exact Or.inr ⟨hnone, by rw [World.bytes, hgone]; rfl⟩
  · have hlive : f.info ∈ db.version.levels l := by
      rw [hversion]
      exact List.mem_map_of_mem hf
    exact Or.inl (hw.bytes_live hnames hpath hlive)

end AtRest

/-- A replay delivers records, or nothing and an error. -/
theorem observes_replayAll_status (path : Path) (w : World) :
    Observes E (replayAll path) (fun r => r.1 = .OK ∨ E.fails ∧ r.1.ok = false ∧ r.2 = []) w := by
  have hrecords : ∀ content : Bytes, Observes E
      (replayLoop content (content.length + 1) 0 >>= fun records => pure (Status.OK, records))
      (fun r => r.1 = .OK ∨ E.fails ∧ r.1.ok = false ∧ r.2 = []) w := fun content =>
    Observes.bind (observes_replayLoop content _ 0 (by simp)) fun _ _ =>
      Observes.ret (Or.inl rfl)
  rw [replayAll]
  cases hb : w.bytes path with
  | none =>
      refine Observes.bind (observes_fopenRead_missing hb) fun r hr => ?_
      rcases hr with rfl | ⟨hf, n, hn, rfl⟩
      · simp only [if_pos]
        exact Observes.ret (Or.inl rfl)
      · simp only [if_neg hn]
        exact Observes.ret (Or.inr ⟨hf, rfl, rfl⟩)
  | some data =>
      refine Observes.bind (observes_fopenRead hb) fun r hr => ?_
      rcases hr with rfl | ⟨hf, n, hn, rfl⟩
      · exact hrecords data
      · simp only [if_neg hn]
        exact Observes.ret (Or.inr ⟨hf, rfl, rfl⟩)

/-- A replay of a log of whole records delivers them. -/
theorem observes_replayAll_logged {path : Path} {recs : List Bytes}
    (h : Logged recs (w.bytes path)) :
    Observes E (replayAll path) (fun r => r = (.OK, recs) ∨ E.fails) w := by
  rcases h.bytes with hb | ⟨hb, rfl⟩
  · have hrecs : records (recs.flatMap frame) = recs := by
      have := records_frames h.short []
      rwa [List.append_nil, records_nil, List.append_nil] at this
    have hobs := observes_replayAll (E := E) hb
    rwa [hrecs] at hobs
  · exact observes_replayAll_missing hb

theorem replayRecords_eq (m : MemTable) (recs : List Bytes) : replayRecords m recs =
    (recs.flatMap WriteBatch.decodeOps).foldl MemTable.handler.call m := by
  induction recs generalizing m with
  | nil => rfl
  | cons r recs ih =>
      rw [replayRecords, List.foldl_cons, ← replayRecords, ih, List.flatMap_cons,
        List.foldl_append, WriteBatch.iterate_eq]
      rfl

theorem layer_replayRecords (recs : List Bytes) :
    (replayRecords {} recs).layer = logLayer recs := by
  rw [replayRecords_eq, MemTable.layer_foldl, MemTable.layer_empty, overlay_silent]
  rfl

theorem short_replayRecords (recs : List Bytes) : (replayRecords {} recs).Short := by
  rw [replayRecords_eq]
  refine MemTable.short_foldl (fun op hop => ?_) MemTable.short_empty
  obtain ⟨r, -, hop⟩ := List.mem_flatMap.mp hop
  exact WriteBatch.decodeOps_short r op hop

/-- What a fresh object needs of a directory to take it over. -/
structure Opened (disk : Tree) (w : World) (db : DB) : Prop where
  version : db.version = disk.version
  readers : disk.ReadersOf db.dbPath db.openReaders
  stored : disk.StoredIn db.dbPath w

/-- A fresh object whose memtable is the replayed log. -/
theorem AtRest.replayed (h : AtRest c? disk db.dbPath w b) (ho : Opened disk w db)
    {recs : List Bytes} (hrecs : ∀ c ∈ c?, Logged recs (w.bytes (walPath db.dbPath)) ∧
      view (overlay (logLayer recs) disk.layer) = c) :
    Settled c? disk w { db with
      memtable := replayRecords {} recs, wal := some ⟨none, walPath db.dbPath⟩ } b := by
  refine ⟨⟨ho.version, ho.readers, ho.stored, ⟨h.manifest, ho.stored⟩, UInt64.le_refl _, h.budget,
    short_replayRecords recs, Or.inl rfl⟩, fun c hc => ?_⟩
  obtain ⟨hlog, hview⟩ := hrecs c hc
  refine ⟨recs, hlog, ?_⟩
  simp only [layer_replayRecords]
  exact RedoLog.Sound.restart hview

/-- The log holds no byte. -/
def LogBlank (d : Path) (w : World) : Prop := (w.bytes (walPath d)).getD [] = []

theorem LogBlank.congr (h : LogBlank d w) (hw : w'.bytes (walPath d) = w.bytes (walPath d)) :
    LogBlank d w' := by
  rw [LogBlank, hw]
  exact h

theorem LogBlank.swept {names : List Bytes} (h : LogBlank d w) (hw : db.Swept names w w') :
    LogBlank d w' := by
  rcases hw.file (walPath d) with hsame | ⟨hgone, -⟩
  · exact h.congr (by rw [World.bytes, World.bytes, hsame])
  · rw [LogBlank, World.bytes, hgone]
    rfl

/-- How `Open` ends once there is an object: it is open, or it failed before it
had a log, or it failed with the log replayed. -/
inductive OpenEnd (E : Env) (c? : Option Content) (disk : Tree) (d : Path) (options : Options)
    (blank : Prop) (w : World) (b : Nat) : Status → DB → Prop where
  | ok {db : DB} (settled : Settled c? disk w db b) (dbPath : db.dbPath = d)
      (same : db.options = options) (closed : db.closed = false)
      (shuttingDown : db.shuttingDown = false) (log : db.LogOpen)
      (kept : blank → w.bytes (walPath d) = some []) :
      OpenEnd E c? disk d options blank w b .OK db
  | bare {s : Status} {version : Version} {readers : Levels SSTableReader} (failed : s.ok = false)
      (why : E.fails ∨ c? = none) (rest : AtRest c? disk d w b)
      (loaded : version = disk.version ∨ c? = none ∧ version = Tree.initial.version)
      (kept : blank → LogBlank d w) :
      OpenEnd E c? disk d options blank w b s
        { dbPath := d, options := options, version := version, openReaders := readers }
  | replayed {s : Status} {db : DB} (failed : s.ok = false) (why : E.fails)
      (settled : Settled c? disk w db b) (dbPath : db.dbPath = d) (closed : db.closed = false) :
      OpenEnd E c? disk d options blank w b s db

theorem OpenEnd.mono {options : Options} {blank blank' : Prop} {s : Status}
    (h : OpenEnd E c? disk d options blank w b s db) (hb : blank' → blank) :
    OpenEnd E c? disk d options blank' w b s db := by
  cases h with
  | ok settled dbPath same closed shuttingDown log kept =>
      exact .ok settled dbPath same closed shuttingDown log fun h => kept (hb h)
  | bare failed why rest loaded kept => exact .bare failed why rest loaded fun h => kept (hb h)
  | replayed failed why settled dbPath closed => exact .replayed failed why settled dbPath closed

/-- The end of `Open`: the log is opened, and a new directory gets a manifest. -/
def DB.openLog (db : DB) (existed : Bool) : Prog World (Status × DB) := do
  let (s, log) ← WriteAheadLog.open (walPath db.dbPath)
  let db := { db with wal := some log }
  if !s.ok then
    return (s, db)
  else if existed then
    return (.OK, db)
  else
    let s ← db.version.save (manifestPath db.dbPath)
    return (s, db)

/-- `Open` from where the directory is swept. -/
def DB.openTables (db : DB) (existed : Bool) : Prog World (Status × DB) := do
  let (s, db) ← db.openLevels (List.finRange kMaxLevels)
  if !s.ok then
    return (s, db)
  else
    let (s, recs) ← WriteAheadLog.replayAll (walPath db.dbPath)
    let db := { db with memtable := replayRecords db.memtable recs }
    if !s.ok then
      return (s, db)
    else
      db.openLog existed

theorem openBody_eq (db : DB) (existed : Bool) : db.openBody existed = (do
    let (s, version) ← db.version.load (manifestPath db.dbPath)
    let db := { db with version := version }
    if !s.ok ∧ !s.isNotFound then
      return (s, db)
    else
      db.sweep
      db.openTables existed) := rfl

section Body

variable {options : Options} {existed : Bool} {Q : Status × DB → World → Nat → Prop}

theorem wp_openLog (hx : E.excludes)
    (hset : Settled c? disk w { db with wal := some ⟨none, walPath db.dbPath⟩ } b)
    (hclosed : db.closed = false) (hshut : db.shuttingDown = false)
    (hC : E.crashes → ∀ w', Crashed c? db.dbPath w' b → C w' b)
    (hQ : ∀ s db' w', OpenEnd E c? disk db.dbPath db.options (LogBlank db.dbPath w) w' b s db' →
      Q (s, db') w' b) :
    wp E (db.openLog existed) Q C w b := by
  have hopen : ∀ w', OnlyAt (walPath db.dbPath) w w' →
      w'.bytes (walPath db.dbPath) = some ((w.bytes (walPath db.dbPath)).getD []) →
      Settled c? disk w'
        { db with wal := some ⟨some ⟨walPath db.dbPath, []⟩, walPath db.dbPath⟩ } b := by
    intro w' hw' hb
    refine hset.onlyAt_wal hw' (Or.inr ⟨rfl, by rw [hb]; simp⟩) fun c hc => ?_
    obtain ⟨recs', hlogged, hs⟩ := hset.recovers c hc
    refine ⟨recs', ⟨hlogged.short, Or.inl ?_⟩, hs⟩
    rcases hlogged.bytes with hsome | ⟨hnone, rfl⟩
    · rw [hb]
      exact congrArg (fun o : Option Bytes => some (o.getD [])) hsome
    · rw [hb]
      exact congrArg (fun o : Option Bytes => some (o.getD [])) hnone
  rw [openLog]
  refine wp_bind (WriteAheadLog.wp_open (fun w' hw' hb => ?_) (fun hfail s hs => ?_)
    fun hcrash w' hw' hb => ?_)
  · simp only [Status.ok_OK, Bool.not_true, Bool.false_eq_true, if_false]
    have hset' := hopen w' hw' hb
    have hkept : LogBlank db.dbPath w → w'.bytes (walPath db.dbPath) = some [] := fun hblank => by
      rw [hb]
      exact congrArg some hblank
    refine wp_ite (fun _ => wp_pure (hQ _ _ _ (.ok hset' rfl rfl hclosed hshut rfl hkept)))
      fun _ => ?_
    refine wp_bind (@wp_saveManifest _ _ _ _
      { db with wal := some ⟨some ⟨walPath db.dbPath, []⟩, walPath db.dbPath⟩ } _ _ _ _ hx hset'
      hC (fun hfail s w'' hs hw'' => ?_) fun w'' hw'' hsame => ?_)
    · exact wp_pure (hQ _ _ _ (.replayed hs hfail hw'' rfl hclosed))
    · exact wp_pure (hQ _ _ _ (.ok hw'' rfl rfl hclosed hshut rfl fun hblank =>
        hsame.trans (hkept hblank)))
  · simp only [hs, Bool.not_false, if_true]
    exact wp_pure (hQ _ _ _ (.replayed hs hfail hset rfl hclosed))
  · refine hC hcrash w' ?_
    rcases hb with hb | ⟨hnone, hb⟩
    · have hsame : Settled c? disk w' { db with wal := some ⟨none, walPath db.dbPath⟩ } b :=
        hset.onlyAt_wal hw' (Or.inl rfl) (by rw [hb]; exact hset.recovers)
      exact hsame.crashed
    · exact (hopen w' hw' (by rw [hb, hnone]; rfl)).crashed

theorem wp_openTables (hx : E.excludes) (hf : E.fails → c? = none)
    (h : AtRest c? disk d w b) (hC : E.crashes → ∀ w', Crashed c? d w' b → C w' b)
    (hQ : ∀ s db w', OpenEnd E c? disk d options (LogBlank d w) w' b s db → Q (s, db) w' b) :
    wp E (openTables { dbPath := d, options := options, version := disk.version } existed)
      Q C w b := by
  have hcrash : E.crashes → C w b := fun hc => hC hc w ⟨disk, h⟩
  rw [openTables]
  refine wp_observes (observes_openLevels disk.levels hx (List.nodup_finRange _)
    (fun _ => rfl) (fun _ _ => rfl) fun l f hf =>
      (h.stored l f hf).imp_right And.right) hcrash fun r hr => ?_
  obtain ⟨s, db⟩ := r
  obtain ⟨readers, rfl, ⟨hstored, rfl, hreaders, -⟩ | ⟨hs, hwhy⟩⟩ := hr
  swap
  · -- a table is missing or did not open
    simp only [hs, Bool.not_false, if_true]
    refine wp_pure (hQ _ _ _ (.bare hs ?_ h (Or.inl rfl) id))
    refine hwhy.imp_right fun ⟨l, f, hf, hn⟩ => ?_
    exact ((h.stored l f hf).resolve_left hn).1
  simp only [Status.ok_OK, Bool.not_true, Bool.false_eq_true, if_false]
  have hopened : Opened disk w
      ⟨d, options, {}, none, disk.version, readers, false, false, false⟩ :=
    ⟨rfl, fun l => hreaders l (List.mem_finRange l),
      fun l f hf => hstored l (List.mem_finRange l) f hf⟩
  have hlog : ∀ recs, (∀ c ∈ c?, Logged recs (w.bytes (walPath d)) ∧
      view (overlay (logLayer recs) disk.layer) = c) → wp E (openLog ⟨d, options,
        replayRecords {} recs, none, disk.version, readers, false, false, false⟩ existed)
        Q C w b := fun recs hrecs =>
    wp_openLog hx (h.replayed hopened hrecs) rfl rfl hC hQ
  cases hc : c? with
  | none =>
      refine wp_observes (observes_replayAll_status _ w) hcrash fun r hr => ?_
      obtain ⟨s, recs⟩ := r
      rcases hr with hok | ⟨hfail, hs, hnil⟩
      · obtain rfl : s = .OK := hok
        exact hlog recs (by simp [hc])
      · obtain rfl : recs = [] := hnil
        have hs' : s.ok = false := hs
        simp only [hs', Bool.not_false, if_true]
        exact wp_pure (hQ _ _ _ (.bare hs' (Or.inl hfail) h (Or.inl rfl) id))
  | some c =>
      obtain ⟨recs, hrecs⟩ := h.content c hc
      refine wp_observes (observes_replayAll_logged hrecs.1) hcrash fun r hr => ?_
      obtain rfl := hr.resolve_right fun hfail => by
        rw [hf hfail] at hc
        cases hc
      refine hlog recs fun c' hc' => ?_
      rw [hc] at hc'
      cases hc'
      exact hrecs

theorem wp_openBody (hx : E.excludes) (hf : E.fails → c? = none)
    (hpath : c? = none ∨ d.getLast? ≠ some separator) (h : AtRest c? disk d w b)
    (hC : E.crashes → ∀ w', Crashed c? d w' b → C w' b)
    (hQ : ∀ s db w', OpenEnd E c? disk d options (LogBlank d w) w' b s db → Q (s, db) w' b) :
    wp E (openBody { dbPath := d, options := options } existed) Q C w b := by
  have hcrash : E.crashes → C w b := fun hc => hC hc w ⟨disk, h⟩
  have hrest : wp E (do
      sweep { dbPath := d, options := options, version := disk.version }
      openTables { dbPath := d, options := options, version := disk.version } existed) Q C w b := by
    have hnames : ∀ n ∈ w.entries d, separator ∉ n := fun n hn => (mem_entries_iff.mp hn).2.1
    refine wp_bind (wp_sweep (fun w' hw' _ => ?_) fun hc w' hw' => ?_)
    · exact wp_openTables hx hf (h.swept rfl rfl hpath hnames hw') hC fun s db w'' hend =>
        hQ s db w'' (hend.mono fun hblank => hblank.swept hw')
    · exact hC hc w' ⟨disk, h.swept rfl rfl hpath hnames hw'⟩
  rw [openBody_eq]
  have hbare : ∀ s : Status, E.fails → s.ok = false →
      wp E (pure (s, ({ dbPath := d, options := options } : DB))) Q C w b := fun s hfail hs =>
    wp_pure (hQ _ _ _ (.bare hs (Or.inl hfail) h (Or.inr ⟨hf hfail, rfl⟩) id))
  rcases h.manifest with hman | ⟨hman, rfl⟩
  · refine wp_observes (Version.observes_load disk.version_sized hman _) hcrash
      fun r hr => ?_
    rcases hr with rfl | ⟨hfail, hs, hnf, hv⟩
    · simp only [Status.ok_OK, Bool.not_true, Bool.false_eq_true, false_and, if_false]
      exact hrest
    · obtain ⟨s, v⟩ := r
      obtain rfl : v = {} := hv
      have hs' : s.ok = false := hs
      have hnf' : s.isNotFound = false := hnf
      simp only [hs', hnf', Bool.not_false, and_self, if_true]
      exact hbare s hfail hs'
  · refine wp_observes (Version.observes_load_missing hman _) hcrash fun r hr => ?_
    obtain ⟨s, v⟩ := r
    obtain ⟨hv, hs, hwhy⟩ := hr
    obtain rfl : v = {} := hv
    have hs' : s.ok = false := hs
    cases hnf : s.isNotFound with
    | true =>
        simp only [hs', hnf, Bool.not_false, Bool.not_true, Bool.false_eq_true, and_false, if_false]
        exact hrest
    | false =>
        simp only [hs', hnf, Bool.not_false, and_self, if_true]
        refine hbare s (hwhy.resolve_left fun h => ?_) hs'
        rw [show s.isNotFound = true from h] at hnf
        cases hnf

end Body

/-- Saving the version of an object that never had a log. -/
theorem AtRest.saved {version : Version} (h : AtRest c? disk d w b)
    (hloaded : version = disk.version ∨ c? = none ∧ version = Tree.initial.version)
    (hw : Version.Saved version (manifestPath d) w w') : Crashed c? d w' b := by
  have hbytes : ∀ q, canonical q ≠ canonical (manifestPath d) →
      canonical q ≠ canonical (Version.tmpPath (manifestPath d)) →
      w'.bytes q = w.bytes q := fun q hq hq' => by
    rw [World.bytes, World.bytes, hw.file q hq hq']
  rcases hloaded with rfl | ⟨rfl, rfl⟩
  · refine ⟨disk, Or.inl hw.manifest, fun l f hf => ?_, h.budget, ?_⟩
    · rw [hbytes _ (sstablePath_ne_manifest d _) (sstablePath_ne_tmp d _)]
      exact h.stored l f hf
    · rw [hbytes _ (wal_ne_manifest d) (wal_ne_tmp d)]
      exact h.content
  · refine ⟨Tree.initial, Or.inl hw.manifest, fun l f hf => absurd hf List.not_mem_nil, ?_,
      fun c hc => absurd hc (by simp)⟩
    have hpos := UInt64.lt_iff_toNat_lt.mp disk.next_pos
    have hbudget := h.budget
    rw [show (0 : UInt64).toNat = 0 from rfl] at hpos
    rw [show Tree.initial.next.toNat = 1 from rfl]
    omega

/-- The destructor of an object that `Open` gives up leaves the directory at rest. -/
theorem wp_destroy {options : Options} {blank : Prop} {s : Status}
    {Q : Unit → World → Nat → Prop} (hx : E.excludes)
    (h : OpenEnd E c? disk d options blank w b s db) (hs : s.ok = false)
    (hC : ∀ w' b', b' ≤ b → Crashed c? d w' b' → C w' b')
    (hQ : ∀ w' b', b' ≤ b → Crashed c? d w' b' → (E.fails ∨ (blank → LogBlank d w')) →
      Q () w' b') :
    wp E db.destroy Q C w b := by
  cases h with
  | ok => cases hs
  | bare failed why rest loaded kept =>
      rw [destroy, if_neg (by simp), DB.close, if_neg (by simp)]
      refine wp_bind (wp_bind (wp_pure (wp_bind (Version.wp_save (Or.inl hx) (fun w' hw' => ?_)
        (fun hf vs w' _ hw' => ?_) fun _ w' hw' => ?_))))
      · refine wp_pure (wp_pure (hQ w' b (Nat.le_refl b) (rest.saved loaded hw')
          (Or.inr fun hblank => (kept hblank).congr ?_)))
        rw [World.bytes, World.bytes, hw'.file _ (wal_ne_manifest d) (wal_ne_tmp d)]
      · exact wp_pure (wp_pure (hQ w' b (Nat.le_refl b) ⟨disk, rest.onlyAt_tmp hw'⟩ (Or.inl hf)))
      · refine hC w' b (Nat.le_refl b) ?_
        exact hw'.elim (fun hw' => ⟨disk, rest.onlyAt_tmp hw'⟩) (rest.saved loaded)
  | replayed failed why settled dbPath closed =>
      rw [destroy, if_neg (by rw [closed]; simp), DB.close, if_neg (by rw [closed]; simp)]
      subst dbPath
      rw [closeBegin, if_neg (by rw [closed]; simp)]
      refine wp_bind (wp_closeEnd hx (settled.withFlags db.bgWorkRequested true db.closed) hC
        fun s db' w' b' tree' disk' hle h' hshut => wp_pure (hQ w' b' hle ?_ (Or.inl why)))
      have hcrashed := h'.crashed
      rwa [hshut.dbPath] at hcrashed

/-- `Open` refuses a directory by its options. -/
def Refused (options : Options) (w : World) : Prop :=
  w.directory = false ∧ options.createIfMissing = false ∨
    w.directory = true ∧ options.errorIfExists = true

/-- `Open` returns a database that stands for the map of the directory, or it
fails and the directory is at rest again. -/
theorem wp_open {options : Options} {Q : Except Status DB → World → Nat → Prop}
    (hx : E.excludes) (hf : E.fails → c? = none)
    (hpath : c? = none ∨ d.getLast? ≠ some separator) (h : AtRest c? disk d w b)
    (hC : E.crashes ∨ c? = none → ∀ w' b', b' ≤ b → Crashed c? d w' b' → C w' b')
    (hfail : (c? = none ∨ Refused options w) → ∀ s w' b', s.ok = false → b' ≤ b →
      Crashed c? d w' b' → (E.fails ∨ (LogBlank d w → LogBlank d w')) → Q (.error s) w' b')
    (hok : ∀ db w', Settled c? disk w' db b → db.dbPath = d → db.options = options →
      db.closed = false → db.shuttingDown = false → db.LogOpen →
      (LogBlank d w → w'.bytes (walPath d) = some []) → Q (.ok db) w' b) :
    wp E (DB.open options d) Q C w b := by
  have hbody : ∀ existed w', AtRest c? disk d w' b →
      w'.bytes (walPath d) = w.bytes (walPath d) →
      wp E (openBody { dbPath := d, options := options } existed >>= fun r =>
        if !r.1.ok then r.2.destroy >>= fun _ => pure (.error r.1) else pure (.ok r.2))
        Q C w' b := by
    intro existed w' hrest hsame
    refine wp_bind (wp_openBody hx hf hpath hrest
      (fun hc w'' hw'' => hC (Or.inl hc) w'' b (Nat.le_refl b) hw'')
      fun s db w'' hend => ?_)
    cases hs : s.ok with
    | false =>
        simp only [Bool.not_false, if_true]
        have hnone : c? = none := by
          cases hend with
          | ok => cases hs
          | bare failed why rest loaded kept => exact why.elim hf id
          | replayed failed why settled dbPath closed => exact hf why
        exact wp_bind (wp_destroy hx (hend.mono fun hblank => hblank.congr hsame) hs
          (hC (Or.inr hnone)) fun w3 b3 hle hw3 hlog =>
            wp_pure (hfail (Or.inl hnone) s w3 b3 hs hle hw3 hlog))
    | true =>
        simp only [Bool.not_true, Bool.false_eq_true, if_false]
        cases hend with
        | ok settled dbPath same closed shuttingDown log kept =>
            exact wp_pure (hok db w'' settled dbPath same closed shuttingDown log fun hblank =>
              kept (hblank.congr hsame))
        | bare failed why rest loaded kept => rw [failed] at hs; cases hs
        | replayed failed why settled dbPath closed => rw [failed] at hs; cases hs
  have hcrash : E.crashes → C w b := fun hc => hC (Or.inl hc) w b (Nat.le_refl b) ⟨disk, h⟩
  have hexists : Observes E directoryExists
      (fun r => r = w.directory ∨ E.fails ∧ r = false) w :=
    Observes.probe (Or.inl rfl) fun hfail _ => Or.inr ⟨hfail, rfl⟩
  have hrefused : (c? = none ∨ Refused options w) → ∀ s : Status, s.ok = false →
      wp E (pure (.error s) : Prog World (Except Status DB)) Q C w b := fun hwhy s hs =>
    wp_pure (hfail hwhy s w b hs (Nat.le_refl b) ⟨disk, h⟩ (Or.inr id))
  rw [DB.open]
  refine wp_observes hexists hcrash fun existed hexisted => ?_
  cases existed with
  | true =>
      have hdir : w.directory = true :=
        hexisted.elim Eq.symm fun h => absurd h.2 (by simp)
      simp only [Bool.not_true, Bool.false_eq_true, false_and, if_false, ensureDirectory, if_true,
        pure_bind, true_and]
      refine wp_ite (fun herr => hrefused (Or.inr (Or.inr ⟨hdir, herr⟩)) _ rfl) fun _ => ?_
      exact hbody true w h rfl
  | false =>
      have hwhy : w.directory = false ∨ c? = none :=
        hexisted.imp Eq.symm fun h => hf h.1
      simp only [Bool.not_false, true_and, Bool.false_eq_true, false_and, if_false,
        ensureDirectory]
      refine wp_ite (fun hno => hrefused ?_ _ rfl) fun _ => ?_
      · have hmissing : options.createIfMissing = false := by simpa using hno
        exact hwhy.elim (fun hdir => Or.inr (Or.inl ⟨hdir, hmissing⟩)) Or.inl
      · refine wp_bind (wp_call (hbody false _ h.directory rfl) (fun hfail' n => ?_) fun hc n => ?_)
        · exact hrefused (Or.inl (hf hfail')) _ rfl
        · by_cases hn : n = 0
          · rw [if_pos hn]
            exact hcrash hc
          · rw [if_neg hn]
            exact hC (Or.inl hc) _ b (Nat.le_refl b) ⟨disk, h.directory⟩

end ClomDB
