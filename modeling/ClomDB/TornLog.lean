import ClomDB.Tending

/-!
# Opening a database on a torn log

`Open` without a failing call, on a directory whose manifest and tables are in
order and whose log holds any bytes: it shows the records that a replay gets
from these bytes on top of the tables.
-/

namespace ClomDB

open FaultProgram FileSystem FileSystem.World LayeredMap SSTable DB WriteAheadLog

/-- The records that a replay gets from the log. -/
def logged (d : Path) (w : World) : List Bytes := records ((w.bytes (walPath d)).getD [])

/-- An open object that shows some records over the tables of a tree. -/
structure Restored (disk : Tree) (recs : List Bytes) (w : World) (db : DB) : Prop where
  aligned : Aligned disk.levels w db
  memtable : db.memtable = replayRecords {} recs
  closed : db.closed = false

/-- The map of a tree below some records. -/
def restoredContent (disk : Tree) (recs : List Bytes) : Content :=
  view (overlay (logLayer recs) disk.layer)

section Restored

variable {disk : Tree} {recs : List Bytes} {d : Path} {w w' : World} {db : DB} {b : Nat}
  {options : Options}

theorem Restored.answers (h : Restored disk recs w db) : Answers w db (restoredContent disk recs) := by
  have hshown : shown db disk = restoredContent disk recs := by
    rw [shown, h.memtable, layer_replayRecords]
    rfl
  rw [← hshown]
  exact h.aligned.answers h.closed

theorem Restored.congr (h : Restored disk recs w db)
    (htable : ∀ n, w'.bytes (sstablePath db.dbPath n) = w.bytes (sstablePath db.dbPath n)) :
    Restored disk recs w' db :=
  ⟨⟨h.aligned.version, h.aligned.readers, fun l f hf => by
    obtain ⟨data, hdata, hstored⟩ := h.aligned.stored l f hf
    exact ⟨data, (htable f.number).trans hdata, hstored⟩⟩, h.memtable, h.closed⟩

/-- A log that is opened behind whatever is in its file. -/
theorem Restored.wp_openLog (h : Restored disk recs w db) (existed : Bool) :
    wp Env.calm (db.openLog existed) (fun r w' _ => r.1 = .OK ∧ Restored disk recs w' r.2)
      (fun _ _ => False) w b := by
  have hlog : ∀ wal, Restored disk recs w { db with wal := wal } := fun wal =>
    ⟨⟨h.aligned.version, h.aligned.readers, h.aligned.stored⟩, h.memtable, h.closed⟩
  rw [openLog]
  refine wp_bind (WriteAheadLog.wp_open (fun w' hw' _ => ?_) (fun hf => hf.elim) fun hc => hc.elim)
  simp only [Status.ok_OK, Bool.not_true, Bool.false_eq_true, if_false]
  have hopened := fun wal => (hlog wal).congr fun n => hw'.bytes (sstablePath_ne_wal db.dbPath n)
  refine wp_ite (fun _ => wp_pure ⟨rfl, hopened _⟩) fun _ => ?_
  refine wp_bind (Version.wp_save (Or.inl trivial) (fun w'' hw'' => wp_pure ⟨rfl, ?_⟩)
    (fun hf => hf.elim) fun hc => hc.elim)
  refine (hopened _).congr fun n => ?_
  rw [World.bytes, World.bytes, hw''.file _ (sstablePath_ne_manifest _ n) (sstablePath_ne_tmp _ n)]

theorem wp_openTables_restored (hstored : disk.StoredIn d w) (existed : Bool) :
    wp Env.calm (openTables { dbPath := d, options := options, version := disk.version } existed)
      (fun r w' _ => r.1 = .OK ∧ Restored disk (logged d w) w' r.2) (fun _ _ => False) w b := by
  rw [openTables]
  refine wp_observes (observes_openLevels disk.levels trivial (List.nodup_finRange _)
    (fun _ => rfl) (fun _ _ => rfl) fun l f hf => Or.inl (hstored l f hf)) (fun hc => hc.elim)
    fun r hr => ?_
  obtain ⟨s, db⟩ := r
  obtain ⟨readers, rfl, ⟨-, rfl, hreaders, -⟩ | ⟨-, hf | ⟨l, f, hf, hno⟩⟩⟩ := hr
  · simp only [Status.ok_OK, Bool.not_true, Bool.false_eq_true, if_false]
    have hreplay : Observes Env.calm (replayAll (walPath d)) (· = (.OK, logged d w)) w := by
      rw [logged]
      cases hb : w.bytes (walPath d) with
      | none => exact (observes_replayAll_missing hb).mono fun r hr => hr.resolve_right id
      | some data => exact (observes_replayAll hb).mono fun r hr => hr.resolve_right id
    refine wp_observes hreplay (fun hc => hc.elim) fun r hr => ?_
    subst hr
    simp only [Status.ok_OK, Bool.not_true, Bool.false_eq_true, if_false]
    have hrestored : Restored disk (logged d w) w ⟨d, options, replayRecords {} (logged d w), none,
        disk.version, readers, false, false, false⟩ :=
      ⟨⟨fun _ => rfl, fun l => hreaders l (List.mem_finRange l), hstored⟩, rfl, rfl⟩
    exact hrestored.wp_openLog existed
  · exact hf.elim
  · exact absurd (hstored l f hf) hno

theorem OnDisk.wp_openBody (h : OnDisk disk d w) (hpath : d.getLast? ≠ some separator)
    (existed : Bool) :
    wp Env.calm (openBody { dbPath := d, options := options } existed)
      (fun r w' _ => r.1 = .OK ∧ Restored disk (logged d w) w' r.2) (fun _ _ => False) w b := by
  have hswept : wp Env.calm (do
      sweep { dbPath := d, options := options, version := disk.version }
      openTables { dbPath := d, options := options, version := disk.version } existed)
      (fun r w' _ => r.1 = .OK ∧ Restored disk (logged d w) w' r.2) (fun _ _ => False) w b := by
    have hnames : ∀ n ∈ w.entries d, separator ∉ n := fun n hn => (mem_entries_iff.mp hn).2.1
    refine wp_bind (wp_sweep (fun w' hw' _ => ?_) fun hc => hc.elim)
    have hlog : logged d w' = logged d w := by
      rw [logged, logged, walPath, hw'.bytes_other hnames separator_notMem_names.1 (by decide)]
    rw [← hlog]
    refine wp_openTables_restored (h.stored.congr fun l f hf => ?_) existed
    exact hw'.bytes_live hnames hpath (List.mem_map_of_mem hf)
  rw [openBody_eq]
  rcases h.manifest with hman | ⟨hman, rfl⟩
  · refine wp_observes (Version.observes_load disk.version_sized hman _) (fun hc => hc.elim)
      fun r hr => ?_
    obtain rfl := hr.resolve_right fun hf => hf.1
    simp only [Status.ok_OK, Bool.not_true, Bool.false_eq_true, false_and, if_false]
    exact hswept
  · refine wp_observes (Version.observes_load_missing hman _) (fun hc => hc.elim) fun r hr => ?_
    obtain ⟨s, v⟩ := r
    obtain ⟨hv, hs, hwhy⟩ := hr
    obtain rfl : v = {} := hv
    have hs' : s.ok = false := hs
    have hnf : s.isNotFound = true := hwhy.resolve_right id
    simp only [hs', hnf, Bool.not_false, Bool.not_true, Bool.false_eq_true, and_false, if_false]
    exact hswept

/-- `Open` shows what the manifest and the log hold, whatever follows the last
whole record of the log. -/
theorem OnDisk.reopens (h : OnDisk disk d w) (hpath : d.getLast? ≠ some separator) (b : Nat) :
    Reopens d w (restoredContent disk (logged d w)) b := by
  intro options hallowed
  have hbody : ∀ (w₁ : World) existed, OnDisk disk d w₁ → logged d w₁ = logged d w →
      wp Env.calm (openBody { dbPath := d, options := options } existed >>= fun r =>
        if !r.1.ok then r.2.destroy >>= fun _ => pure (.error r.1) else pure (.ok r.2))
        (fun (r : Except Status DB) w' _ => ∃ db, r = .ok db ∧
          Answers w' db (restoredContent disk (logged d w))) (fun _ _ => False) w₁ b := by
    intro w₁ existed h₁ hlog
    refine wp_bind (wp_mono (h₁.wp_openBody hpath existed) ?_ fun _ _ => id)
    rintro ⟨s, db⟩ w' b ⟨rfl, hdb⟩
    simp only [Status.ok_OK, Bool.not_true, Bool.false_eq_true, if_false]
    rw [hlog] at hdb
    exact wp_pure ⟨db, rfl, hdb.answers⟩
  have hopen : wp Env.calm (DB.open options d)
      (fun r w' _ => ∃ db, r = .ok db ∧ Answers w' db (restoredContent disk (logged d w)))
      (fun _ _ => False) w b := by
    have hexists : Observes Env.calm directoryExists (· = w.directory) w :=
      Observes.probe rfl fun hf => hf.elim
    rw [DB.open]
    refine wp_observes hexists (fun hc => hc.elim) fun existed hexisted => ?_
    subst hexisted
    rw [Refused, not_or] at hallowed
    cases hdir : w.directory with
    | true =>
        have hno : options.errorIfExists = false := by simpa [hdir] using hallowed.2
        simp only [Bool.not_true, Bool.false_eq_true, false_and, if_false, ensureDirectory,
          if_true, pure_bind, true_and, hno]
        exact hbody w true h rfl
    | false =>
        have hcreate : options.createIfMissing = true := by simpa [hdir] using hallowed.1
        simp only [Bool.not_false, true_and, Bool.false_eq_true, false_and, if_false,
          ensureDirectory, hcreate, Bool.not_true]
        exact wp_bind (wp_call (hbody _ false ⟨h.manifest, h.stored⟩ rfl) (fun hf => hf.elim)
          fun hc => hc.elim)
  rw [openObject]
  refine wp_bind (wp_mono hopen ?_ fun _ _ => id)
  rintro _ w' b ⟨db, rfl, hdb⟩
  exact wp_pure ⟨rfl, db, rfl, hdb⟩

/-- A frame that was not written to its end does no harm to the next `Open`. -/
theorem Crashed.reopens_torn {c : Content} {rep : Bytes} {n : Nat} (h : Crashed (some c) d w b)
    (hpath : d.getLast? ≠ some separator) (hlen : rep.length < 2 ^ 32) (hn : n < (frame rep).length)
    (hw : Grew (walPath d) ((frame rep).take n) w w') : Reopens d w' c b := by
  obtain ⟨disk, hrest⟩ := h
  obtain ⟨recs, hlog, rfl⟩ := hrest.content c rfl
  have hdisk : OnDisk disk d w := ⟨hrest.manifest, fun l f hf =>
    (hrest.stored l f hf).resolve_right fun hno => nomatch hno.1⟩
  have htorn : records ((frame rep).take n) = [] := by
    refine records_torn hlen (List.take_append_drop n _).symm fun hnil => ?_
    rw [List.drop_eq_nil_iff] at hnil
    omega
  have hlogged : logged d w' = recs := by
    rw [logged, hw.bytes]
    rcases hlog.bytes with hbytes | ⟨hbytes, rfl⟩
    · rw [hbytes, Option.map_some, Option.getD_some, records_frames hlog.short, htorn,
        List.append_nil]
    · rw [hbytes]
      rfl
  have hreopens := (hdisk.onlyAt hw.only (sstablePath_ne_wal _) (wal_ne_manifest _).symm).reopens
    hpath b
  rwa [hlogged] at hreopens

end Restored

end ClomDB
