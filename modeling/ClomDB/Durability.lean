import ClomDB.TornLog

/-!
# What is durable

`fsync` is called on the log alone. Whatever fails and wherever the process
dies, the sections leave the manifest without a durable byte, and until there is
a manifest the log only gains bytes at its end.

## Implementation notes

Nothing is asked of the tables or of the manifest here, so the statements hold
of every directory and every object that belongs to it.
-/

namespace ClomDB

open FaultProgram FileSystem FileSystem.World SSTable DB WriteAheadLog

/-- No byte of the manifest is durable. -/
def Fleeting (d : Path) (w : World) : Prop :=
  ∀ f, w.file (manifestPath d) = some f → f.synced = 0

/-- The log is left alone, a manifest that is there stays, and none becomes durable. -/
structure Spares (d : Path) (w w' : World) : Prop where
  log : w'.file (walPath d) = w.file (walPath d)
  manifest : w.file (manifestPath d) ≠ none → w'.file (manifestPath d) ≠ none
  fleeting : Fleeting d w → Fleeting d w'

instance (d : Path) : IsPreorder World (Spares d) where
  refl _ := ⟨rfl, id, id⟩
  trans _ _ _ h h' := ⟨h'.log.trans h.log, h'.manifest ∘ h.manifest, h'.fleeting ∘ h.fleeting⟩

instance (p : Path) : IsPreorder World (OnlyAt p) where
  refl := OnlyAt.refl p
  trans _ _ _ := OnlyAt.trans

section Spares

variable {d p : Path} {w w' : World}

theorem Spares.of_file (hlog : w'.file (walPath d) = w.file (walPath d))
    (hman : w'.file (manifestPath d) = w.file (manifestPath d)) : Spares d w w' :=
  ⟨hlog, by rw [hman]; exact id, fun h f hf => h f (hman ▸ hf)⟩

theorem Spares.of_onlyAt (hlog : canonical (walPath d) ≠ canonical p)
    (hman : canonical (manifestPath d) ≠ canonical p) (hw : OnlyAt p w w') : Spares d w w' :=
  .of_file (hw.file _ hlog) (hw.file _ hman)

theorem Spares.of_table {n : UInt64} (hw : OnlyAt (sstablePath d n) w w') : Spares d w w' :=
  .of_onlyAt (sstablePath_ne_wal d n).symm (sstablePath_ne_manifest d n).symm hw

theorem Spares.of_tmp (hw : OnlyAt (Version.tmpPath (manifestPath d)) w w') : Spares d w w' :=
  .of_onlyAt (wal_ne_tmp d) (manifest_ne_tmp d) hw

end Spares

section Looking

variable {E : Env} {R : World → World → Prop} [IsPreorder World R]

/-- Decoding a table only looks. -/
theorem effects_readAll (r : SSTableReader) : Effects E R (fun _ => True) r.readAll :=
  Reads.effects fun w => by
    obtain ⟨x, hreads, -⟩ := reads_lists r w
    exact ⟨_, _, hreads⟩

theorem effects_mergeReaders (merged : Std.ExtTreeMap Bytes SSTableEntry) (rs : List SSTableReader) :
    Effects E R (fun _ => True) (mergeReaders merged rs) := by
  induction rs generalizing merged with
  | nil => exact Effects.ret trivial
  | cons r rs ih =>
      rw [mergeReaders]
      refine Effects.bind (effects_readAll r) fun entries _ => ?_
      cases entries with
      | error s => exact Effects.ret trivial
      | ok entries => exact ih _

variable [E.Lenient]

theorem effects_fread (content : Bytes) (pos n : Nat) :
    Effects E R (fun _ => True) (fread content pos n) :=
  Effects.probeIf (fun _ => trivial) fun _ => trivial

theorem effects_fseek (pos : Int) : Effects E R (fun _ => True) (fseek pos) :=
  Effects.probeIf (fun _ => trivial) fun _ => trivial

theorem effects_readBlock (content : Bytes) (offset size : UInt64) :
    Effects E R (fun _ => True) (readBlock content offset size) := by
  rw [readBlock]
  refine Effects.ite (fun _ => Effects.abort) fun _ => Effects.ite (fun _ => Effects.ret trivial)
    fun _ => Effects.bind (effects_fseek _) fun sought _ => ?_
  refine Effects.ite (fun _ => Effects.ret trivial) fun _ =>
    Effects.bind (effects_fread _ _ _) fun block _ => ?_
  exact Effects.ite (fun _ => Effects.ret trivial) fun _ => Effects.ret trivial

/-- Opening a table only looks, whatever is in its file, and an error is about
that file. -/
theorem effects_openReader (held : Nat) (path : Path) :
    Effects E R (fun r => ∀ s, r = .error s → s.About path) (SSTableReader.open held path) := by
  have hfailed : ∀ {s : Status}, s.About path →
      Effects E R (fun r => ∀ s, r = .error s → s.About path)
        (pure (.error s) : Prog World (Except Status SSTableReader)) := fun hs =>
    Effects.ret fun s' h => Except.error.inj h ▸ hs
  rw [SSTableReader.open]
  refine Effects.bind (Effects.probeIf (P := fun _ => True) (fun _ => trivial) fun _ => trivial)
    fun content _ => ?_
  cases content with
  | error n => exact hfailed ⟨rfl, rfl⟩
  | ok content =>
      refine Effects.bind (effects_fseek _) fun sought _ => ?_
      refine Effects.ite (fun _ => hfailed ⟨rfl, rfl⟩) fun _ => ?_
      refine Effects.ite (fun _ => hfailed ⟨rfl, rfl⟩) fun _ => ?_
      refine Effects.bind (effects_fseek _) fun sought _ => ?_
      refine Effects.ite (fun _ => hfailed ⟨rfl, rfl⟩) fun _ => ?_
      refine Effects.bind (effects_fread _ _ _) fun footer _ => ?_
      refine Effects.ite (fun _ => hfailed ⟨rfl, rfl⟩) fun _ => ?_
      refine Effects.ite (fun _ => hfailed ⟨rfl, rfl⟩) fun _ => ?_
      refine Effects.bind (effects_readBlock _ _ _) fun indexBuf _ => ?_
      cases indexBuf with
      | none => exact hfailed ⟨rfl, rfl⟩
      | some indexBuf =>
          simp only
          cases parseIndex indexBuf.length indexBuf with
          | none => exact hfailed ⟨rfl, rfl⟩
          | some index =>
              refine Effects.bind (effects_readBlock _ _ _) fun filter _ => ?_
              cases filter with
              | none => exact hfailed ⟨rfl, rfl⟩
              | some filter => exact Effects.ret fun s h => (by cases h)

theorem effects_fileSize (path : Path) : Effects E R (fun _ => True) (fileSize path) :=
  Effects.probeIf (fun _ => trivial) fun _ => trivial

end Looking

section Writing

variable {E : Env} [E.Lenient] {p : Path}

theorem effects_fopenWrite (p : Path) :
    Effects E (OnlyAt p) (fun r => ∀ f, r = .ok f → f.path = p) (fopenWrite p) := by
  refine Effects.callIf (fun w => ⟨put_onlyAt w p .empty, fun f hf => ?_⟩)
    (fun n w => ⟨OnlyAt.refl p w, fun f hf => ?_⟩) fun n w => ?_
  · rw [← Except.ok.inj hf]
  · cases hf
  · split
    · exact OnlyAt.refl p w
    · exact put_onlyAt w p .empty

theorem effects_fwrite {f : Stream} (hf : f.path = p) (data : Bytes) :
    Effects E (OnlyAt p) (fun r => r.2.path = p) (fwrite f data) :=
  Effects.callIf (fun w => ⟨OnlyAt.refl p w, hf⟩)
    (fun _ w => ⟨hf ▸ append_onlyAt w f.path _, hf⟩) fun _ w => hf ▸ append_onlyAt w f.path _

theorem effects_fflush {f : Stream} (hf : f.path = p) :
    Effects E (OnlyAt p) (fun r => r.2.path = p) (fflush f) :=
  Effects.callIf (fun w => ⟨hf ▸ append_onlyAt w f.path _, hf⟩)
    (fun _ w => ⟨hf ▸ append_onlyAt w f.path _, hf⟩) fun _ w => hf ▸ append_onlyAt w f.path _

/-- Writing a table changes its file alone. -/
theorem effects_writeTable (entries : List SSTableEntry) (bits : Int) :
    Effects E (OnlyAt p) (fun _ => True) (SSTableWriter.write p entries bits) := by
  rw [SSTableWriter.write]
  refine Effects.ite (fun _ => Effects.ret trivial) fun _ => ?_
  refine Effects.bind (effects_fopenWrite p) fun r hr => ?_
  cases r with
  | error n => exact Effects.ret trivial
  | ok f =>
      refine Effects.bind (effects_fwrite (hr f rfl) _) fun r hf => ?_
      refine Effects.ite (fun _ => Effects.ret trivial) fun _ => ?_
      refine Effects.bind (effects_fwrite hf _) fun r hf => ?_
      refine Effects.ite (fun _ => Effects.ret trivial) fun _ => ?_
      cases BloomFilter.build (entries.map (·.key)) bits with
      | none => exact Effects.abort
      | some filter =>
          refine Effects.bind (effects_fwrite hf _) fun r hf => ?_
          refine Effects.ite (fun _ => Effects.ret trivial) fun _ => ?_
          refine Effects.bind (effects_fwrite hf _) fun r hf => ?_
          refine Effects.ite (fun _ => Effects.ret trivial) fun _ => ?_
          refine Effects.bind (effects_fflush hf) fun r _ => ?_
          exact Effects.ite (fun _ => Effects.ret trivial) fun _ => Effects.ret trivial

theorem effects_remove (p : Path) : Effects E (OnlyAt p) (fun _ => True) (remove p) := by
  refine Effects.callIf (fun w => ⟨delete_onlyAt w p, trivial⟩)
    (fun _ w => ⟨OnlyAt.refl p w, trivial⟩) fun n w => ?_
  split
  · exact OnlyAt.refl p w
  · exact delete_onlyAt w p

variable {d : Path} {w : World} {b : Nat}

/-- A new manifest is the temporary file, and that is never synced. -/
theorem Spares.of_rename (x : Bytes) :
    let tmp := Version.tmpPath (manifestPath d)
    Spares d w (((w.put tmp .empty).append tmp x).move tmp (manifestPath d)) := by
  intro tmp
  have hfile : ((w.put tmp .empty).append tmp x).file tmp = some (File.empty.append x) := by
    rw [append, file_put_same, file_put_same]
  have hman : (((w.put tmp .empty).append tmp x).move tmp (manifestPath d)).file (manifestPath d) =
      some (File.empty.append x) := by
    rw [move, hfile]
    exact file_put_same _ _ _
  refine ⟨?_, fun _ => by rw [hman]; exact Option.some_ne_none _, fun _ f hf => ?_⟩
  · rw [file_move_of_ne (wal_ne_tmp d) (wal_ne_manifest d),
      (append_onlyAt _ tmp x).file _ (wal_ne_tmp d), file_put_of_ne (wal_ne_tmp d)]
  · rw [← Option.some.inj (hman.symm.trans hf)]
    rfl

/-- Whatever a save ends in, the log is as it was, and no manifest is durable. -/
theorem wp_save_spares (v : Version) :
    wp Env.hostile (v.save (manifestPath d))
      (fun s w' _ => Spares d w w' ∧ (s.ok = true → w'.file (manifestPath d) ≠ none))
      (fun w' _ => Spares d w w') w b := by
  have hnew := put_onlyAt w (Version.tmpPath (manifestPath d)) .empty
  have happ : ∀ x, OnlyAt (Version.tmpPath (manifestPath d)) w
      ((w.put (Version.tmpPath (manifestPath d)) .empty).append
        (Version.tmpPath (manifestPath d)) x) := fun x => hnew.trans (append_onlyAt _ _ x)
  have hfailed : ∀ {s : Status} {w'}, s.ok = false →
      OnlyAt (Version.tmpPath (manifestPath d)) w w' →
      Spares d w w' ∧ (s.ok = true → w'.file (manifestPath d) ≠ none) := fun hs hw' =>
    ⟨.of_tmp hw', fun hok => by rw [hs] at hok; cases hok⟩
  have hremove : ∀ w' (s : Status), s.ok = false → OnlyAt (Version.tmpPath (manifestPath d)) w w' →
      wp Env.hostile (remove (Version.tmpPath (manifestPath d)) >>= fun _ => pure s)
        (fun s w' _ => Spares d w w' ∧ (s.ok = true → w'.file (manifestPath d) ≠ none))
        (fun w' _ => Spares d w w') w' b := by
    intro w' s hs hw'
    refine wp_then (effects_remove _ w' b) (fun _ w'' b' hw'' => ?_)
      fun w'' _ hw'' => .of_tmp (hw'.trans hw'')
    exact wp_pure (hfailed hs (hw'.trans hw''.1))
  rw [Version.save]
  refine wp_bind (wp_fopenWrite ?_ (fun _ n _ => wp_pure (hfailed rfl (OnlyAt.refl _ w)))
    fun _ => ⟨.of_tmp (OnlyAt.refl _ w), .of_tmp hnew⟩)
  refine wp_bind (wp_fwrite (List.nil_append v.encode) (Or.inl trivial) (fun _ => ?_)
    (fun _ n => hremove _ _ rfl (happ _)) fun _ n => .of_tmp (happ _))
  refine wp_bind (wp_fflush ?_ (fun _ n => hremove _ _ rfl (happ _)) fun _ n => .of_tmp (happ _))
  have hbytes : ((w.put (Version.tmpPath (manifestPath d)) .empty).append
      (Version.tmpPath (manifestPath d)) v.encode).bytes (Version.tmpPath (manifestPath d)) =
        some v.encode := by
    rw [bytes_append_same, bytes_put_same, Option.map_some, File.empty_data, List.nil_append]
  have hthere := bytes_move (q := manifestPath d) hbytes
  refine wp_bind (wp_rename hbytes (wp_pure ⟨.of_rename v.encode, fun _ hnone => ?_⟩)
    (fun _ n => wp_pure (hfailed rfl (happ _))) fun _ => ⟨.of_tmp (happ _), .of_rename v.encode⟩)
  rw [World.bytes, hnone] at hthere
  cases hthere

theorem effects_save (v : Version) : Effects Env.hostile (Spares d) (fun _ => True) (v.save (manifestPath d)) :=
  fun _ _ => wp_mono (wp_save_spares v) (fun _ _ _ h => ⟨h.1, trivial⟩) fun _ _ h => h

end Writing

section Tables

/-- All that compactions leave alone of an object. -/
structure Stays (db db' : DB) : Prop where
  keeps : Keeps db db'
  requested : db'.bgWorkRequested = db.bgWorkRequested

theorem Stays.refl (db : DB) : Stays db db := ⟨Keeps.refl db, rfl⟩

theorem Stays.trans {db db' db'' : DB} (h : Stays db db') (h' : Stays db' db'') : Stays db db'' :=
  ⟨h.keeps.trans h'.keeps, h'.requested.trans h.requested⟩

variable {d : Path} {db : DB} {w : World} {b : Nat}

theorem effects_buildTable (hd : db.dbPath = d) (held : Nat) (entries : List SSTableEntry) :
    Effects Env.hostile (Spares d) (fun r => Stays db r.2) (db.buildTable held entries) := by
  have hkeeps : Stays db (db.withNext (db.version.nextFileNumber + 1)) :=
    ⟨⟨⟨rfl, rfl, rfl, rfl⟩, rfl⟩, rfl⟩
  subst hd
  rw [buildTable]
  refine Effects.bind Effects.tick fun _ _ => ?_
  refine Effects.bind ((effects_writeTable entries _).mono (fun _ _ => Spares.of_table)
    fun _ => id) fun s _ => ?_
  refine Effects.ite (fun _ => Effects.ret hkeeps) fun _ => ?_
  refine Effects.bind (effects_fileSize _) fun size _ => ?_
  refine Effects.bind (effects_openReader _ _) fun r _ => ?_
  cases r with
  | error s => exact Effects.ret hkeeps
  | ok reader => exact Effects.ret hkeeps

theorem effects_flushBatch (hd : db.dbPath = d) (out : Output) (batch : List SSTableEntry) :
    Effects Env.hostile (Spares d) (fun r => Stays db r.2.1) (db.flushBatch out batch) := by
  rw [flushBatch]
  refine Effects.ite (fun _ => Effects.ret (Stays.refl db)) fun _ => ?_
  refine Effects.bind (effects_buildTable hd _ _) fun r hr => ?_
  obtain ⟨built, db₁⟩ := r
  cases built with
  | error s => exact Effects.ret hr
  | ok p => exact Effects.ret hr

theorem effects_writeMerged (hd : db.dbPath = d) (dropTombstones : Bool) (target : UInt64)
    (entries : List SSTableEntry) (out : Output) (batch : List SSTableEntry) (size : UInt64) :
    Effects Env.hostile (Spares d) (fun r => Stays db r.2.1)
      (writeMerged dropTombstones target entries db out batch size) := by
  induction entries generalizing db out batch size with
  | nil => exact effects_flushBatch hd out batch
  | cons entry rest ih =>
      rw [writeMerged]
      refine Effects.ite (fun _ => ih hd out batch size) fun _ => ?_
      refine Effects.ite (fun _ => ?_) fun _ => ih hd out _ _
      refine Effects.bind (effects_flushBatch hd _ _) fun r hr => ?_
      obtain ⟨s, db₁, out₁⟩ := r
      refine Effects.ite (fun _ => Effects.ret hr) fun _ => ?_
      exact (ih (hr.keeps.shell.dbPath.trans hd) out₁ [] 0).mono (fun _ _ => id) fun _ h => hr.trans h

theorem effects_removeTables (numbers : List UInt64) :
    Effects Env.hostile (Spares d) (fun _ => True) (removeTables d numbers) := by
  induction numbers with
  | nil => exact Effects.ret trivial
  | cons n numbers ih =>
      rw [removeTables]
      exact Effects.bind ((effects_remove _).mono (fun _ _ => Spares.of_table) fun _ => id)
        fun _ _ => ih

theorem effects_installOutput (hd : db.dbPath = d) (level target : Fin kMaxLevels) (out : Output) :
    Effects Env.hostile (Spares d) (fun r => Stays db r.2) (db.installOutput level target out) := by
  have hkeeps : Stays db (db.switch level target out) := ⟨⟨⟨rfl, rfl, rfl, rfl⟩, rfl⟩, rfl⟩
  subst hd
  rw [installOutput]
  refine Effects.bind (effects_save _) fun s _ => ?_
  refine Effects.ite (fun _ => Effects.ret hkeeps) fun _ => ?_
  exact Effects.bind (effects_removeTables _) fun _ _ => Effects.ret hkeeps

theorem effects_compactLocked (hd : db.dbPath = d) (level : Fin kMaxLevels) :
    Effects Env.hostile (Spares d) (fun r => Stays db r.2) (db.compactLocked level) := by
  rw [compactLocked]
  split
  · exact Effects.ret (Stays.refl db)
  refine Effects.bind (effects_mergeReaders _ _) fun merged _ => ?_
  cases merged with
  | error s => exact Effects.ret (Stays.refl db)
  | ok merged =>
      refine Effects.bind (effects_writeMerged hd _ _ _ _ _ _) fun r hr => ?_
      obtain ⟨s, db₁, out⟩ := r
      refine Effects.ite (fun _ => Effects.ret hr) fun _ => ?_
      exact (effects_installOutput (hr.keeps.shell.dbPath.trans hd) _ _ _).mono (fun _ _ => id)
        fun _ h => hr.trans h

/-- Compactions leave the log and the log object alone. -/
theorem effects_compactionLoop (hd : db.dbPath = d) (fuel : Nat) :
    Effects Env.hostile (Spares d) (fun r => Stays db r.2) (compactionLoop fuel db) := by
  induction fuel generalizing db with
  | zero => exact Effects.outOfFuel
  | succ fuel ih =>
      rw [compactionLoop]
      cases db.needsCompactionLocked with
      | none => exact Effects.ret (Stays.refl db)
      | some level =>
          refine Effects.bind (effects_compactLocked hd level) fun r hr => ?_
          obtain ⟨s, db₁⟩ := r
          refine Effects.ite (fun _ => Effects.ret hr) fun _ => ?_
          exact (ih (hr.keeps.shell.dbPath.trans hd)).mono (fun _ _ => id) fun _ h => hr.trans h

end Tables

/-- The log as a file, also where it is not there. -/
def logFile (d : Path) (w : World) : File := (w.file (walPath d)).getD .empty

/-- A manifest that is there stays, and none becomes durable. Where there is no
manifest in the end the log has gained the bytes and lost no durable one. -/
structure Gains (d : Path) (x : Bytes) (w w' : World) : Prop where
  manifest : w.file (manifestPath d) ≠ none → w'.file (manifestPath d) ≠ none
  fleeting : Fleeting d w → Fleeting d w'
  data : w'.file (manifestPath d) = none → (logFile d w').data = (logFile d w).data ++ x
  synced : w'.file (manifestPath d) = none → (logFile d w).synced ≤ (logFile d w').synced

section Gains

variable {d : Path} {w w' w'' : World} {x y : Bytes}

theorem Gains.refl (d : Path) (w : World) : Gains d [] w w :=
  ⟨id, id, fun _ => (List.append_nil _).symm, fun _ => Nat.le_refl _⟩

theorem Gains.trans (h : Gains d x w w') (h' : Gains d y w' w'') : Gains d (x ++ y) w w'' := by
  have hnone : w''.file (manifestPath d) = none → w'.file (manifestPath d) = none := fun hn =>
    Classical.byContradiction fun hsome => h'.manifest hsome hn
  refine ⟨h'.manifest ∘ h.manifest, h'.fleeting ∘ h.fleeting, fun hn => ?_, fun hn => ?_⟩
  · rw [h'.data hn, h.data (hnone hn), List.append_assoc]
  · exact Nat.le_trans (h.synced (hnone hn)) (h'.synced hn)

instance (d : Path) : IsPreorder World (Gains d []) where
  refl := Gains.refl d
  trans _ _ _ h h' := h.trans h'

theorem Spares.gains (h : Spares d w w') : Gains d [] w w' := by
  have hlog : logFile d w' = logFile d w := by rw [logFile, logFile, h.log]
  exact ⟨h.manifest, h.fleeting, fun _ => by rw [hlog, List.append_nil], fun _ => by rw [hlog]⟩

/-- What happens to the log is of no account once there is a manifest. -/
theorem Gains.of_log (hw : OnlyAt (walPath d) w w') (hman : w.file (manifestPath d) ≠ none) :
    Gains d x w w' := by
  have hfile := hw.file _ (wal_ne_manifest d).symm
  refine ⟨by rw [hfile]; exact id, fun h f hf => h f (hfile ▸ hf), fun hn => ?_, fun hn => ?_⟩ <;>
    exact absurd (hfile.symm.trans hn) hman

theorem Gains.of_grew (hw : Grew (walPath d) x w w') (hfile : w.file (walPath d) ≠ none) :
    Gains d x w w' := by
  have hman := hw.only.file _ (wal_ne_manifest d).symm
  obtain ⟨f, hf⟩ := Option.ne_none_iff_exists'.mp hfile
  obtain ⟨f', hf', hdata, hsynced⟩ := hw.some f hf
  refine ⟨by rw [hman]; exact id, fun h f hf => h f (hman ▸ hf), fun _ => ?_, fun _ => ?_⟩
  · rw [logFile, logFile, hf, hf']
    exact hdata
  · rw [logFile, logFile, hf, hf']
    exact hsynced

/-- A log that was missing is created without a byte. -/
theorem Gains.of_put (hlog : w.file (walPath d) = none) :
    Gains d [] w (w.put (walPath d) .empty) := by
  have hman : (w.put (walPath d) .empty).file (manifestPath d) = w.file (manifestPath d) :=
    file_put_of_ne (wal_ne_manifest d).symm
  refine ⟨by rw [hman]; exact id, fun h f hf => h f (hman ▸ hf), fun _ => ?_, fun _ => ?_⟩
  · rw [logFile, logFile, hlog, file_put_same]
    rfl
  · rw [logFile, hlog]
    exact Nat.zero_le _

end Gains

/-- The log object is missing, closed, or open on the file of the log. -/
def DB.LogAt (db : DB) (w : World) : Prop := db.wal = none ∨ WalOf db w

/-- What a section that appends no record does. -/
structure Carries (d : Path) (db : DB) (w : World) (db' : DB) (w' : World) : Prop where
  gains : Gains d [] w w'
  shell : SameShell db db'
  requested : db'.bgWorkRequested = db.bgWorkRequested
  log : db'.LogAt w'

section Sections

variable {d : Path} {db db' db'' : DB} {w w' w'' : World} {b : Nat}

theorem Carries.refl (d : Path) (hlog : db.LogAt w) : Carries d db w db w :=
  ⟨Gains.refl d w, SameShell.refl db, rfl, hlog⟩

theorem Carries.trans (h : Carries d db w db' w') (h' : Carries d db' w' db'' w'') :
    Carries d db w db'' w'' :=
  ⟨h.gains.trans h'.gains, h.shell.trans h'.shell, h'.requested.trans h.requested, h'.log⟩

/-- What spares the log and the log object carries them on. -/
theorem Carries.of_spares (hd : db.dbPath = d) (hlog : db.LogAt w) (hw : Spares d w w')
    (hdb : Stays db db') : Carries d db w db' w' := by
  refine ⟨hw.gains, hdb.keeps.shell, hdb.requested, ?_⟩
  rw [DB.LogAt, WalOf, DB.LogOpen, World.bytes, hdb.keeps.wal, hdb.keeps.shell.dbPath, hd, hw.log,
    ← hd]
  exact hlog

theorem wp_openLogFile (hd : db.dbPath = d) :
    wp Env.hostile (WriteAheadLog.open (walPath d))
      (fun r w' _ => Gains d [] w w' ∧ DB.LogAt { db with wal := some r.2 } w')
      (fun w' _ => Gains d [] w w') w b := by
  subst hd
  have hfailed : ∀ w', DB.LogAt { db with wal := some ⟨none, walPath db.dbPath⟩ } w' := fun _ =>
    Or.inr (Or.inl rfl)
  rw [WriteAheadLog.open]
  cases hb : w.bytes (walPath db.dbPath) with
  | some data =>
      refine wp_bind (wp_fopenAppend hb (wp_pure ⟨Gains.refl _ w, Or.inr (Or.inr ⟨rfl, ?_⟩)⟩)
        (fun _ n _ => wp_pure ⟨Gains.refl _ w, hfailed w⟩) fun _ => Gains.refl _ w)
      rw [hb]
      exact Option.some_ne_none data
  | none =>
      have hnone : w.file (walPath db.dbPath) = none := by simpa [World.bytes] using hb
      refine wp_bind (wp_fopenAppend_missing hb
        (wp_pure ⟨Gains.of_put hnone, Or.inr (Or.inr ⟨rfl, ?_⟩)⟩)
        (fun _ n _ => wp_pure ⟨Gains.refl _ w, hfailed w⟩)
        fun _ => ⟨Gains.refl _ w, Gains.of_put hnone⟩)
      rw [bytes_put_same]
      exact Option.some_ne_none _

/-- Closing the log adds no byte to it. -/
theorem wp_closeLog {log : WriteAheadLog} (hd : db.dbPath = d) (hwal : db.wal = some log)
    (hlog : WalOf db w) :
    wp Env.hostile log.close
      (fun r w' _ => Gains d [] w w' ∧ Grew (walPath d) [] w w' ∧ r.2 = ⟨none, walPath d⟩)
      (fun w' _ => Gains d [] w w') w b := by
  subst hd
  rcases hlog with hclosed | ⟨hopen, hfile⟩
  · rw [hwal] at hclosed
    rw [Option.some.inj hclosed]
    exact wp_pure ⟨Gains.refl _ w, Grew.refl _ w, rfl⟩
  · rw [DB.LogOpen, hwal] at hopen
    have hfile' : w.file (walPath db.dbPath) ≠ none := fun h => hfile (by rw [World.bytes, h]; rfl)
    have hidle : log.Idle (walPath db.dbPath) := by
      rw [Option.some.inj hopen]
      exact ⟨rfl, Or.inr rfl⟩
    exact WriteAheadLog.wp_close hidle (fun w' hw' => ⟨.of_grew hw' hfile', hw', rfl⟩)
      (fun _ s w' _ hw' => ⟨.of_grew hw' hfile', hw', rfl⟩) fun _ w' hw' => .of_grew hw' hfile'

/-- Once there is a manifest the log may be replaced. -/
theorem wp_rotateWal_carries (hd : db.dbPath = d) (hlog : db.LogAt w)
    (hman : w.file (manifestPath d) ≠ none) :
    wp Env.hostile db.rotateWal (fun r w' _ => Carries d db w r.2 w')
      (fun w' _ => Gains d [] w w') w b := by
  rw [rotateWal]
  rcases hlog with hnone | hlog
  · rw [hnone]
    exact wp_abort (Gains.refl d w)
  obtain ⟨log, hwal⟩ : ∃ log, db.wal = some log := by
    rcases hlog with hclosed | ⟨hopen, -⟩
    · exact ⟨_, hclosed⟩
    · exact ⟨_, hopen⟩
  simp only [hwal]
  refine wp_then (wp_closeLog hd hwal hlog) ?_ fun _ _ h => h
  rintro ⟨s, log'⟩ w₁ b₁ ⟨hw₁, -, hclosed⟩
  have hstill : Carries d db w { db with wal := some log' } w₁ := by
    refine ⟨hw₁, ⟨rfl, rfl, rfl, rfl⟩, rfl, Or.inr (Or.inl ?_)⟩
    rw [show log' = _ from hclosed, hd]
  refine wp_ite (fun _ => wp_pure hstill) fun _ => ?_
  subst hd
  have hgone : ∀ {w'}, OnlyAt (walPath db.dbPath) w₁ w' → Gains db.dbPath [] w w' := fun hw' =>
    hw₁.trans (Gains.of_log hw' (hw₁.manifest hman))
  refine wp_then (effects_remove _ w₁ b₁) ?_ fun w' _ hw' => hgone hw'
  rintro - w₂ b₂ ⟨hw₂, -⟩
  refine wp_then (wp_openLogFile rfl) ?_ fun w' _ hw' => (hgone hw₂).trans hw'
  rintro r w₃ b₃ ⟨hw₃, hopened⟩
  exact wp_pure ⟨(hgone hw₂).trans hw₃, ⟨rfl, rfl, rfl, rfl⟩, rfl, hopened⟩

theorem wp_flushMemTableLocked_carries (hd : db.dbPath = d) (hlog : db.LogAt w) :
    wp Env.hostile db.flushMemTableLocked (fun r w' _ => Carries d db w r.2 w')
      (fun w' _ => Gains d [] w w') w b := by
  cases hne : db.memtable.empty with
  | true =>
      rw [flushMemTableLocked, if_pos hne]
      exact wp_pure (Carries.refl d hlog)
  | false =>
      rw [flushMemTableLocked_eq db hne, persistMemTable, bind_assoc]
      refine wp_then (effects_buildTable hd _ _ w b) ?_ fun _ _ hw' => hw'.gains
      rintro ⟨built, db₁⟩ w₁ b₁ ⟨hw₁, hdb₁⟩
      have hbuilt := Carries.of_spares hd hlog hw₁ hdb₁
      cases built with
      | error s => exact wp_bind (wp_pure (wp_pure hbuilt))
      | ok p =>
          have hd₁ : db₁.dbPath = d := hbuilt.shell.dbPath.trans hd
          have hpush : Stays db₁ (db₁.pushL0 p.1 p.2) := ⟨⟨⟨rfl, rfl, rfl, rfl⟩, rfl⟩, rfl⟩
          have hclear : Stays db₁ { db₁.pushL0 p.1 p.2 with memtable := db₁.memtable.clear } :=
            ⟨⟨⟨rfl, rfl, rfl, rfl⟩, rfl⟩, rfl⟩
          refine wp_bind (wp_then (@wp_save_spares db₁.dbPath w₁ b₁ _) ?_ fun w' _ hw' => ?_)
          · rintro s w₂ b₂ ⟨hw₂, hthere⟩
            rw [hd₁] at hw₂ hthere
            refine wp_ite (fun _ => wp_pure (wp_pure ?_)) fun hok => wp_pure ?_
            · exact hbuilt.trans (.of_spares hd₁ hbuilt.log hw₂ hpush)
            · have hcleared := hbuilt.trans (.of_spares hd₁ hbuilt.log hw₂ hclear)
              refine wp_mono (wp_rotateWal_carries (hcleared.shell.dbPath.trans hd) hcleared.log
                (hthere (by simpa using hok))) (fun r w' _ h => hcleared.trans h)
                fun w' _ hw' => hcleared.gains.trans hw'
          · rw [hd₁] at hw'
            exact hbuilt.gains.trans hw'.gains

theorem wp_flush_carries (fuel : Nat) (hd : db.dbPath = d) (hlog : db.LogAt w) :
    wp Env.hostile (db.flush fuel) (fun r w' _ => Carries d db w r.2 w')
      (fun w' _ => Gains d [] w w') w b := by
  rw [flush]
  refine wp_then (wp_flushMemTableLocked_carries hd hlog) ?_ fun _ _ h => h
  rintro ⟨s, db₁⟩ w₁ b₁ h₁
  have hd₁ : db₁.dbPath = d := h₁.shell.dbPath.trans hd
  refine wp_ite (fun _ => wp_pure h₁) fun _ => ?_
  exact wp_mono (effects_compactionLoop hd₁ fuel w₁ b₁)
    (fun _ _ _ h => h₁.trans (.of_spares hd₁ h₁.log h.1 h.2))
    fun w' _ hw' => h₁.gains.trans hw'.gains

theorem wp_maybeFlushLocked_carries (fuel : Nat) (hd : db.dbPath = d) (hlog : db.LogAt w) :
    wp Env.hostile (db.maybeFlushLocked fuel) (fun r w' _ => Carries d db w r.2 w')
      (fun w' _ => Gains d [] w w') w b := by
  rw [maybeFlushLocked]
  refine wp_ite (fun _ => wp_flush_carries fuel hd hlog) fun _ => ?_
  exact wp_mono (effects_compactionLoop hd fuel w b)
    (fun _ _ _ h => .of_spares hd hlog h.1 h.2) fun w' _ hw' => hw'.gains

/-- The second section of `Close` appends no record either. -/
theorem wp_closeEnd_carries (hd : db.dbPath = d) (hlog : db.LogAt w) :
    wp Env.hostile db.closeEnd (fun r w' _ => Gains d [] w w' ∧ r.2.dbPath = d ∧
      r.2.options = db.options ∧ r.2.closed = true ∧ r.2.shuttingDown = db.shuttingDown ∧
        r.2.bgWorkRequested = db.bgWorkRequested ∧ r.2.LogAt w')
      (fun w' _ => Gains d [] w w') w b := by
  rw [closeEnd]
  refine wp_then (wp_flushMemTableLocked_carries hd hlog) ?_ fun _ _ h => h
  rintro ⟨s, db₁⟩ w₁ b₁ h₁
  have hd₁ : db₁.dbPath = d := h₁.shell.dbPath.trans hd
  have hlogAt : db₁.LogAt w₁ := h₁.log
  rcases hlogAt with hnone | hwal
  · simp only [hnone]
    refine wp_then (@wp_save_spares db₁.dbPath w₁ b₁ _) ?_ fun w' _ hw' => ?_
    · rintro vs w₂ b₂ ⟨hw₂, -⟩
      rw [hd₁] at hw₂
      exact wp_pure ⟨h₁.gains.trans hw₂.gains, hd₁, h₁.shell.options, rfl, h₁.shell.shuttingDown,
        h₁.requested, Or.inl rfl⟩
    · rw [hd₁] at hw'
      exact h₁.gains.trans hw'.gains
  · obtain ⟨log, hlog₁⟩ : ∃ log, db₁.wal = some log := by
      rcases hwal with hclosed | ⟨hopen, -⟩
      · exact ⟨_, hclosed⟩
      · exact ⟨_, hopen⟩
    simp only [hlog₁]
    refine wp_then (wp_closeLog hd₁ hlog₁ hwal) ?_ fun w' _ hw' => h₁.gains.trans hw'
    rintro ⟨ws, log'⟩ w₂ b₂ ⟨hw₂, -, hclosed⟩
    refine wp_then (@wp_save_spares db₁.dbPath w₂ b₂ _) ?_ fun w' _ hw' => ?_
    · rintro vs w₃ b₃ ⟨hw₃, -⟩
      rw [hd₁] at hw₃
      refine wp_pure ⟨(h₁.gains.trans hw₂).trans hw₃.gains, hd₁, h₁.shell.options, rfl,
        h₁.shell.shuttingDown, h₁.requested, Or.inr (Or.inl ?_)⟩
      rw [show log' = _ from hclosed, ← hd₁]
    · rw [hd₁] at hw'
      exact (h₁.gains.trans hw₂).trans hw'.gains

theorem wp_destroy_carries (hd : db.dbPath = d) (hlog : db.LogAt w) :
    wp Env.hostile db.destroy (fun _ w' _ => Gains d [] w w') (fun w' _ => Gains d [] w w') w b := by
  rw [destroy, DB.close]
  refine wp_ite (fun _ => wp_pure (Gains.refl d w)) fun hopen => ?_
  rw [if_neg hopen, closeBegin, if_neg hopen]
  refine wp_then (@wp_closeEnd_carries _ { db with shuttingDown := true } _ _ hd hlog) ?_
    fun _ _ h => h
  rintro r w₁ b₁ ⟨hw₁, -⟩
  exact wp_pure hw₁

end Sections

/-- An object as `Open` returns it. -/
structure DB.Opened (d : Path) (options : Options) (db : DB) : Prop where
  dbPath : db.dbPath = d
  options : db.options = options
  requested : db.bgWorkRequested = false
  shuttingDown : db.shuttingDown = false
  closed : db.closed = false

section Opening

variable {d : Path} {db : DB} {w w' : World} {b : Nat} {E : Env} {R : World → World → Prop}
  [IsPreorder World R]

/-- A replay only looks. -/
theorem effects_replayAll (path : Path) : Effects E R (fun _ => True) (replayAll path) := by
  intro w b
  refine wp_mono (observes_replayAll_status path w b) ?_ ?_
  · rintro r _ _ ⟨-, rfl, -⟩
    exact ⟨Std.Refl.refl _, trivial⟩
  · rintro _ _ ⟨-, rfl, -⟩
    exact Std.Refl.refl _

variable [E.Lenient]

/-- Loading a manifest only looks. -/
theorem effects_load (v : Version) (path : Path) : Effects E R (fun _ => True) (v.load path) := by
  rw [Version.load]
  refine Effects.bind (Effects.probeIf (P := fun _ => True) (fun _ => trivial) fun _ => trivial)
    fun content _ => ?_
  cases content with
  | error n => exact Effects.ite (fun _ => Effects.ret trivial) fun _ => Effects.ret trivial
  | ok content =>
      refine Effects.bind (effects_fseek _) fun atEnd _ => ?_
      refine Effects.bind (effects_fseek _) fun rewound _ => ?_
      refine Effects.bind (effects_fread _ _ _) fun buf _ => ?_
      exact Effects.ite (fun _ => Effects.ret trivial) fun _ => Effects.ret trivial

/-- The readers are all that changes, and an error is about the file of a table. -/
def DB.OpensReaders (db : DB) (r : Status × DB) : Prop :=
  (∃ readers, r.2 = { db with openReaders := readers }) ∧
    (r.1 = .OK ∨ ∃ n, r.1.About (sstablePath db.dbPath n))

theorem effects_openLevel (l : Fin kMaxLevels) (fms : List FileMetaData) :
    Effects E R db.OpensReaders (db.openLevel l fms) := by
  induction fms generalizing db with
  | nil => exact Effects.ret ⟨⟨db.openReaders, rfl⟩, .inl rfl⟩
  | cons fm fms ih =>
      rw [openLevel]
      refine Effects.bind (effects_openReader _ _) fun r hr => ?_
      cases r with
      | error s => exact Effects.ret ⟨⟨db.openReaders, rfl⟩, .inr ⟨fm.number, hr s rfl⟩⟩
      | ok reader => exact @ih (db.addReader l reader)

theorem effects_openLevels (lvls : List (Fin kMaxLevels)) :
    Effects E R db.OpensReaders (db.openLevels lvls) := by
  induction lvls generalizing db with
  | nil => exact Effects.ret ⟨⟨db.openReaders, rfl⟩, .inl rfl⟩
  | cons l lvls ih =>
      rw [openLevels]
      refine Effects.bind (effects_openLevel l _) fun r hr => ?_
      obtain ⟨s, db₁⟩ := r
      obtain ⟨⟨readers, rfl⟩, hs⟩ := hr
      exact Effects.ite (fun _ => Effects.ret ⟨⟨readers, rfl⟩, hs⟩) fun _ => ih

/-- A sweep removes tables only. -/
theorem Spares.of_swept (hd : db.dbPath = d) (hw : db.Swept (w.entries db.dbPath) w w') :
    Spares d w w' := by
  have hnames : ∀ n ∈ w.entries db.dbPath, separator ∉ n := fun n hn => (mem_entries_iff.mp hn).2.1
  have hother : ∀ {name : Bytes}, separator ∉ name → extension name ≠ sstExtension →
      w'.file (dbFile db.dbPath name) = w.file (dbFile db.dbPath name) := by
    intro name hname hext
    refine (hw.file (dbFile db.dbPath name)).resolve_right ?_
    rintro ⟨-, n, hn, hs, heq⟩
    rw [canonical_appendPath _ (hnames n hn), canonical_dbFile_inj hname (hnames n hn)] at heq
    subst heq
    exact absurd (of_decide_eq_true hs).1 hext
  subst hd
  exact .of_file (hother separator_notMem_names.1 (by decide))
    (hother separator_notMem_names.2.1 (by decide))

theorem effects_sweep (hd : db.dbPath = d) : Effects Env.hostile (Spares d) (fun _ => True) db.sweep :=
  fun _ _ => wp_sweep (fun _ hw' _ => ⟨.of_swept hd hw', trivial⟩) fun _ _ hw' => .of_swept hd hw'

/-- What `Open` makes of a fresh object. -/
abbrev Opens (d : Path) (options : Options) (w : World) : Status × DB → World → Nat → Prop :=
  fun r w' _ => Gains d [] w w' ∧ r.2.Opened d options ∧ r.2.LogAt w'

theorem wp_openLog_carries {options : Options} (h : db.Opened d options) (existed : Bool) :
    wp Env.hostile (db.openLog existed) (Opens d options w) (fun w' _ => Gains d [] w w') w b := by
  have hfresh : ∀ wal, DB.Opened d options { db with wal := wal } := fun _ =>
    ⟨h.dbPath, h.options, h.requested, h.shuttingDown, h.closed⟩
  obtain rfl := h.dbPath
  rw [openLog]
  refine wp_then (wp_openLogFile rfl) ?_ fun _ _ h => h
  rintro r w₁ b₁ ⟨hw₁, hopened⟩
  refine wp_ite (fun _ => wp_pure ⟨hw₁, hfresh _, hopened⟩) fun _ =>
    wp_ite (fun _ => wp_pure ⟨hw₁, hfresh _, hopened⟩) fun _ => ?_
  refine wp_then (@wp_save_spares db.dbPath w₁ b₁ _) ?_ fun w' _ hw' => hw₁.trans hw'.gains
  rintro s w₂ b₂ ⟨hw₂, -⟩
  exact wp_pure ⟨hw₁.trans hw₂.gains, hfresh _,
    (Carries.of_spares rfl hopened hw₂ (Stays.refl _)).log⟩

theorem wp_openBody_carries (d : Path) (options : Options) (existed : Bool) :
    wp Env.hostile (openBody { dbPath := d, options := options } existed) (Opens d options w)
      (fun w' _ => Gains d [] w w') w b := by
  have hbare : ∀ {w'} s version readers memtable, Spares d w w' → Opens d options w
      (s, ⟨d, options, memtable, none, version, readers, false, false, false⟩) w' b :=
    fun _ _ _ _ hw' => ⟨hw'.gains, ⟨rfl, rfl, rfl, rfl, rfl⟩, Or.inl rfl⟩
  rw [openBody_eq]
  refine wp_then (effects_load (R := Spares d) _ _ w b) ?_ fun _ _ hw' => hw'.gains
  rintro ⟨s, version⟩ w₁ b₁ ⟨hw₁, -⟩
  refine wp_ite (fun _ => wp_pure (hbare _ _ _ _ hw₁)) fun _ => ?_
  refine wp_then (effects_sweep rfl w₁ b₁) ?_ fun _ _ hw' => hw₁.gains.trans hw'.gains
  rintro - w₂ b₂ ⟨hw₂, -⟩
  have hspared := IsTrans.trans w w₁ w₂ hw₁ hw₂
  rw [openTables]
  refine wp_then (effects_openLevels (R := Spares d) _ w₂ b₂) ?_ fun _ _ hw' =>
    hspared.gains.trans hw'.gains
  rintro ⟨s, db₁⟩ w₃ b₃ ⟨hw₃, ⟨readers, hdb₁⟩, -⟩
  obtain rfl : db₁ = _ := hdb₁
  have hspared₃ := IsTrans.trans w w₂ w₃ hspared hw₃
  refine wp_ite (fun _ => wp_pure (hbare _ _ _ _ hspared₃)) fun _ => ?_
  refine wp_then (effects_replayAll (R := Spares d) _ w₃ b₃) ?_ fun _ _ hw' =>
    hspared₃.gains.trans hw'.gains
  rintro ⟨s, recs⟩ w₄ b₄ ⟨hw₄, -⟩
  have hspared₄ := IsTrans.trans w w₃ w₄ hspared₃ hw₄
  refine wp_ite (fun _ => wp_pure (hbare _ _ _ _ hspared₄)) fun _ => ?_
  exact wp_mono (wp_openLog_carries ⟨rfl, rfl, rfl, rfl, rfl⟩ existed)
    (fun _ _ _ h => ⟨hspared₄.gains.trans h.1, h.2⟩)
    fun _ _ hw' => hspared₄.gains.trans hw'

/-- `Open` adds no byte to the log and makes no manifest durable. -/
theorem wp_openObject_carries (d : Path) (options : Options) :
    wp Env.hostile (openObject d options) (fun r w' _ => Gains d [] w w' ∧
      ∀ db, r.2 = some db → r.1 = .OK ∧ db.Opened d options ∧ db.LogAt w')
      (fun w' _ => Gains d [] w w') w b := by
  have hopen : wp Env.hostile (DB.open options d) (fun r w' _ => Gains d [] w w' ∧
      ∀ db, r = .ok db → db.Opened d options ∧ db.LogAt w')
      (fun w' _ => Gains d [] w w') w b := by
    have hspared : Spares d w { w with directory := true } := .of_file rfl rfl
    have hsame := hspared.gains
    have hbody : ∀ existed w₁, Gains d [] w w₁ →
        wp Env.hostile (openBody { dbPath := d, options := options } existed >>= fun r =>
          if !r.1.ok then r.2.destroy >>= fun _ => pure (.error r.1) else pure (.ok r.2))
          (fun (r : Except Status DB) w' _ => Gains d [] w w' ∧
            ∀ db, r = .ok db → db.Opened d options ∧ db.LogAt w')
          (fun w' _ => Gains d [] w w') w₁ b := by
      intro existed w₁ hw₁
      refine wp_then (wp_openBody_carries d options existed) ?_ fun _ _ hw' => hw₁.trans hw'
      rintro ⟨s, db⟩ w₂ b₂ ⟨hw₂, hfresh, hlog⟩
      refine wp_ite (fun _ => ?_) fun _ => wp_pure ⟨hw₁.trans hw₂, ?_⟩
      · refine wp_then (wp_destroy_carries hfresh.dbPath hlog) (fun _ w₃ _ hw₃ => wp_pure ⟨?_, by simp⟩)
          fun _ _ hw' => (hw₁.trans hw₂).trans hw'
        exact (hw₁.trans hw₂).trans hw₃
      · rintro _ ⟨⟩
        exact ⟨hfresh, hlog⟩
    rw [DB.open]
    have hexists : Observes Env.hostile directoryExists (fun _ => True) w :=
      Observes.probe trivial fun _ _ => trivial
    refine wp_observes hexists (fun _ => Gains.refl d w) fun existed _ => ?_
    refine wp_ite (fun _ => wp_pure ⟨Gains.refl d w, by simp⟩) fun _ => ?_
    rw [ensureDirectory]
    cases existed with
    | true =>
        simp only [if_true, pure_bind, true_and]
        exact wp_ite (fun _ => wp_pure ⟨Gains.refl d w, by simp⟩) fun _ =>
          hbody true w (Gains.refl d w)
    | false =>
        simp only [Bool.false_eq_true, if_false, false_and]
        refine wp_bind (wp_call (hbody false _ hsame) (fun _ n => ?_) fun _ n => ?_)
        · exact wp_pure ⟨Gains.refl d w, by simp⟩
        · split
          · exact Gains.refl d w
          · exact hsame
  rw [openObject]
  refine wp_then hopen ?_ fun _ _ h => h
  rintro r w₁ b₁ ⟨hw₁, hr⟩
  cases r with
  | error s => exact wp_pure ⟨hw₁, by simp⟩
  | ok db =>
      refine wp_pure ⟨hw₁, ?_⟩
      rintro _ ⟨⟩
      exact ⟨rfl, hr db rfl⟩

end Opening

end ClomDB
