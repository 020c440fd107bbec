import ClomDB.Directory

/-!
# An Open that fails

`Open` without a failing call, on a directory that holds any bytes. What it
gives up it leaves to the destructor, which saves the version as far as it has
been loaded. A second `Open` fails in the same way if the manifest was not
rejected. If it was, there is another manifest now.

## Implementation notes

An `Open` may end the process, by an exception, on a table with a wrong footer.
What is said here is about the ones that return.
-/

namespace ClomDB

open FaultProgram FileSystem FileSystem.World Coding SSTable DB

namespace Version

/-- What `Load` makes of the bytes of the manifest when no call fails. -/
def loaded (path : Path) : Option Bytes → Status × Version
  | none => (.notFound [.bytes path], {})
  | some data =>
      if data.length < 4 then (.corruption [.bytes path, .lit ": truncated manifest"], {})
      else ({} : Version).decode path data

section Loaded

variable {E : Env} {w : World} {path : Path} {v : Version}

theorem observes_load_loaded (hf : ¬E.fails) (path : Path) (w : World) :
    Observes E (({} : Version).load path) (fun r => r = loaded path (w.bytes path)) w := by
  cases hw : w.bytes path with
  | none =>
      rw [load]
      refine Observes.bind (observes_fopenRead_missing hw) fun r hr => ?_
      obtain rfl := hr.resolve_right fun h => hf h.1
      simp only [if_pos]
      exact Observes.ret rfl
  | some data =>
      rw [loaded]
      by_cases hlen : data.length < 4
      · rw [if_pos hlen, load]
        refine Observes.bind (observes_fopenRead hw) fun r hr => ?_
        obtain rfl := hr.resolve_right fun h => hf h.1
        refine Observes.bind (observes_fseek (Int.le_refl 0)) fun atEnd hs => ?_
        obtain rfl := hs.resolve_right fun h => hf h.1
        refine Observes.bind (observes_fseek (Int.le_refl 0)) fun rewound _ => ?_
        refine Observes.bind (observes_fread_take _ _ _) fun buf _ => ?_
        simp only [if_true]
        rw [if_pos (Or.inr hlen)]
        exact Observes.ret rfl
      · rw [if_neg hlen]
        exact (observes_load_bytes (Nat.le_of_not_lt hlen) hw _).mono fun r hr =>
          hr.resolve_right fun h => hf h.1

/-- A saved version is what a load gives. -/
theorem loaded_encode (hv : v.Sized) (path : Path) : loaded path (some v.encode) = (.OK, v) := by
  have hlen := v.encode_length_ge
  rw [loaded, if_neg (by omega), decode_encode hv]

/-- Keys that fit the fields of a manifest. -/
def Keyed (files : List FileMetaData) : Prop :=
  ∀ fm ∈ files, fm.minKey.length < 2 ^ 32 ∧ fm.maxKey.length < 2 ^ 32

/-- The inner loop gets at most as many files as are announced. -/
theorem loadFiles_loaded (path : Path) (count : Nat) (p : Bytes) (files : List FileMetaData)
    (h : Keyed files) :
    ((loadFiles path count p files).1 = .OK ∨ (loadFiles path count p files).1.About path) ∧
      (loadFiles path count p files).2.2.length ≤ files.length + count ∧
      Keyed (loadFiles path count p files).2.2 := by
  have hstopped : ∀ {s : Status} {files : List FileMetaData} {n : Nat}, s.About path → Keyed files →
      (s = .OK ∨ s.About path) ∧ files.length ≤ files.length + n ∧ Keyed files :=
    fun hs hfiles => ⟨.inr hs, Nat.le_add_right _ _, hfiles⟩
  induction count generalizing p files with
  | zero => exact ⟨.inl rfl, Nat.le_refl _, h⟩
  | succ count ih =>
      rw [loadFiles]
      by_cases hlen : p.length < 16
      · rw [if_pos hlen]
        exact hstopped ⟨rfl, rfl⟩ h
      · rw [if_neg hlen]
        cases hmin : getLengthPrefixedSlice (p.drop 16) with
        | none => exact hstopped ⟨rfl, rfl⟩ h
        | some r =>
            obtain ⟨minKey, input⟩ := r
            simp only
            cases hmax : getLengthPrefixedSlice input with
            | none => exact hstopped ⟨rfl, rfl⟩ h
            | some r' =>
                obtain ⟨maxKey, input'⟩ := r'
                have hnext : Keyed (files ++
                    [⟨decodeFixed64 p, minKey, maxKey, decodeFixed64 (p.drop 8)⟩]) := by
                  refine fun fm hfm => (List.mem_append.mp hfm).elim (h fm) fun hfm => ?_
                  rw [List.mem_singleton.mp hfm]
                  exact ⟨WriteBatch.getLengthPrefixedSlice_short hmin,
                    WriteBatch.getLengthPrefixedSlice_short hmax⟩
                obtain ⟨hs, hle, hkeyed⟩ := ih input' _ hnext
                refine ⟨hs, ?_, hkeyed⟩
                rw [List.length_append, List.length_singleton] at hle
                simp only
                omega

theorem loadLevels_loaded (path : Path) (lvls : List (Fin kMaxLevels)) (hnodup : lvls.Nodup)
    (p : Bytes) (hv : v.Sized) (hempty : ∀ lvl ∈ lvls, v.levels lvl = []) :
    ((loadLevels path lvls p v).1 = .OK ∨ (loadLevels path lvls p v).1.About path) ∧
      (loadLevels path lvls p v).2.Sized := by
  induction lvls generalizing p v with
  | nil => exact ⟨.inl rfl, hv⟩
  | cons lvl lvls ih =>
      obtain ⟨hnot, hnodup⟩ := List.nodup_cons.mp hnodup
      rw [loadLevels]
      by_cases hlen : p.length < 4
      · rw [if_pos hlen]
        exact ⟨.inr ⟨rfl, rfl⟩, hv⟩
      · rw [if_neg hlen]
        have hlevel := loadFiles_loaded path (decodeFixed32 p).toNat (p.drop 4) (v.levels lvl)
          (hv lvl).2
        rw [hempty lvl List.mem_cons_self, List.length_nil, Nat.zero_add] at hlevel
        rw [hempty lvl List.mem_cons_self]
        generalize loadFiles path (decodeFixed32 p).toNat (p.drop 4) [] = r at hlevel
        obtain ⟨hs, hle, hkeyed⟩ := hlevel
        have hset : (v.setLevel lvl r.2.2).Sized := by
          intro l
          by_cases hl : l = lvl
          · subst hl
            simp only [setLevel, Function.update_self]
            exact ⟨Nat.lt_of_le_of_lt hle (decodeFixed32 p).toNat_lt, hkeyed⟩
          · simp only [setLevel, Function.update_of_ne hl]
            exact hv l
        simp only
        by_cases hok : r.1.ok = true
        · rw [if_pos hok]
          refine ih hnodup r.2.1 hset fun l hl => ?_
          have hne : l ≠ lvl := fun heq => hnot (heq ▸ hl)
          simp only [setLevel, Function.update_of_ne hne]
          exact hempty l (List.mem_cons_of_mem _ hl)
        · rw [if_neg hok]
          refine ⟨hs.imp_left fun hOK => ?_, hset⟩
          rw [hOK] at hok
          exact absurd rfl hok

theorem sized_empty : ({} : Version).Sized := fun _ => ⟨by simp, by simp⟩

/-- Whatever the bytes are, an error of a load is about the manifest, and what
has been loaded can be saved. -/
theorem loaded_spec (path : Path) (data : Option Bytes) :
    ((loaded path data).1 = .OK ∨ (loaded path data).1.About path) ∧ (loaded path data).2.Sized := by
  have hstopped : ∀ {s : Status} {v : Version}, s.About path → v.Sized →
      (s = .OK ∨ s.About path) ∧ v.Sized := fun hs hv => ⟨.inr hs, hv⟩
  cases data with
  | none => exact hstopped ⟨rfl, rfl⟩ sized_empty
  | some data =>
      rw [loaded]
      by_cases hlen : data.length < 4
      · rw [if_pos hlen]
        exact hstopped ⟨rfl, rfl⟩ sized_empty
      · rw [if_neg hlen, decode]
        simp only
        by_cases hcrc : CRC32C.value (data.drop 4) ≠ decodeFixed32 data
        · rw [if_pos hcrc]
          exact hstopped ⟨rfl, rfl⟩ sized_empty
        rw [if_neg hcrc]
        by_cases hmagic : (data.drop 4).length < 8 ∨ decodeFixed64 (data.drop 4) ≠ kManifestMagic
        · rw [if_pos hmagic]
          exact hstopped ⟨rfl, rfl⟩ sized_empty
        rw [if_neg hmagic]
        split
        · exact hstopped ⟨rfl, rfl⟩ sized_empty
        split
        · exact hstopped ⟨rfl, rfl⟩ sized_empty
        split
        · exact hstopped ⟨rfl, rfl⟩ sized_empty
        · exact loadLevels_loaded path _ (List.nodup_finRange _) _ (fun _ => ⟨by simp, by simp⟩)
            fun _ _ => rfl

end Loaded

end Version

section Tables

variable {E : Env} {w w₀ : World} {db : DB}

theorem echoes_readBlock (hf : ¬E.fails) (content : Bytes) (offset size : UInt64) :
    Echoes E w₀ (readBlock content offset size) w := by
  rw [readBlock]
  refine Echoes.ite .abort (Echoes.ite (.ret _) ?_)
  refine Echoes.bind (.probe hf rfl) fun sought _ _ => Echoes.ite (.ret _) ?_
  exact Echoes.bind (.probe hf rfl) fun block _ _ => Echoes.ite (.ret _) (.ret _)

/-- Opening a table depends on the bytes of its file only. -/
theorem echoes_openReader (hf : ¬E.fails) (hx : E.excludes) {path : Path}
    (hw : w.bytes path = w₀.bytes path) (held : Nat) :
    Echoes E w₀ (SSTableReader.open held path) w := by
  rw [SSTableReader.open]
  refine Echoes.bind (.probeIf hf (Or.inl hx) (by simp only [hw])) fun content _ _ => ?_
  cases content with
  | error n => exact .ret _
  | ok content =>
      refine Echoes.bind (.probe hf rfl) fun sought _ _ => Echoes.ite (.ret _) (Echoes.ite (.ret _) ?_)
      refine Echoes.bind (.probe hf rfl) fun sought _ _ => Echoes.ite (.ret _) ?_
      refine Echoes.bind (.probe hf rfl) fun footer _ _ => Echoes.ite (.ret _) (Echoes.ite (.ret _) ?_)
      refine Echoes.bind (echoes_readBlock hf _ _ _) fun indexBuf _ _ => ?_
      cases indexBuf with
      | none => exact .ret _
      | some indexBuf =>
          simp only
          cases parseIndex indexBuf.length indexBuf with
          | none => exact .ret _
          | some index =>
              refine Echoes.bind (echoes_readBlock hf _ _ _) fun filter _ _ => ?_
              cases filter with
              | none => exact .ret _
              | some filter => exact .ret _

theorem echoes_openLevel (hf : ¬E.fails) (hx : E.excludes) (l : Fin kMaxLevels)
    (fms : List FileMetaData) (hw : ∀ fm ∈ fms,
      w.bytes (sstablePath db.dbPath fm.number) = w₀.bytes (sstablePath db.dbPath fm.number)) :
    Echoes E w₀ (db.openLevel l fms) w := by
  induction fms generalizing db with
  | nil => exact .ret _
  | cons fm fms ih =>
      obtain ⟨hfm, hfms⟩ := List.forall_mem_cons.mp hw
      rw [openLevel]
      refine Echoes.bind (echoes_openReader hf hx hfm _) fun r _ _ => ?_
      cases r with
      | error s => exact .ret _
      | ok reader => exact @ih (db.addReader l reader) hfms

/-- Opening all tables depends on the bytes of the tables only. -/
theorem echoes_openLevels (hf : ¬E.fails) (hx : E.excludes) (v : Version) (hv : db.version = v)
    (hw : ∀ l, ∀ fm ∈ v.levels l,
      w.bytes (sstablePath db.dbPath fm.number) = w₀.bytes (sstablePath db.dbPath fm.number))
    (lvls : List (Fin kMaxLevels)) : Echoes E w₀ (db.openLevels lvls) w := by
  induction lvls generalizing db with
  | nil => exact .ret _
  | cons l lvls ih =>
      subst hv
      rw [openLevels]
      refine Echoes.bind (echoes_openLevel hf hx l _ (hw l)) fun r t ht => ?_
      obtain ⟨-, ⟨readers, hdb⟩, -⟩ := (effects_openLevel (E := Env.hostile) (R := OnlyAt []) l _ w₀
        t).of_returned (Env.admits_nil _) ht (Nat.le_refl t)
      obtain ⟨s, db₁⟩ := r
      obtain rfl : db₁ = _ := hdb
      exact Echoes.ite (.ret _) (ih rfl hw)

end Tables

section Opening

variable {d : Path} {options : Options} {v : Version} {db : DB} {w w' w'' : World} {b : Nat}

/-- No table in the directory is touched. -/
structure Unmoved (d : Path) (w w' : World) : Prop where
  directory : w'.directory = w.directory
  table : ∀ name, TableName name → w'.file (dbFile d name) = w.file (dbFile d name)

theorem Unmoved.refl (d : Path) (w : World) : Unmoved d w w := ⟨rfl, fun _ _ => rfl⟩

theorem Unmoved.trans (h : Unmoved d w w') (h' : Unmoved d w' w'') : Unmoved d w w'' :=
  ⟨h'.directory.trans h.directory, fun name hname => (h'.table name hname).trans (h.table name hname)⟩

theorem Unmoved.of_onlyAt {p : Path} (hp : NoTable d p) (hw : OnlyAt p w w') : Unmoved d w w' :=
  ⟨hw.directory, fun name hname => hw.file _ (hp name hname)⟩

theorem Unmoved.of_saved (hw : Version.Saved v (manifestPath d) w w') : Unmoved d w w' :=
  ⟨hw.directory, fun name hname => hw.file _ (noTable_manifest d name hname) (noTable_tmp d name hname)⟩

theorem Unmoved.bytes (h : Unmoved d w w') (n : UInt64) :
    w'.bytes (sstablePath d n) = w.bytes (sstablePath d n) := by
  rw [World.bytes, World.bytes, sstablePath, h.table _ (tableName_sstName n)]

/-- The log is opened behind what is in it, and a new directory gets a manifest. -/
theorem wp_openLog_unmoved (db : DB) (existed : Bool) :
    wp Env.calm (db.openLog existed) (fun r w' _ => r.1 = .OK ∧ Unmoved db.dbPath w w')
      (fun _ _ => True) w b := by
  rw [openLog]
  refine wp_bind (WriteAheadLog.wp_open (fun w₁ hw₁ _ => ?_) (fun hf => hf.elim) fun hc => hc.elim)
  have hopened : Unmoved db.dbPath w w₁ := .of_onlyAt (noTable_wal _) hw₁
  simp only [Status.ok_OK, Bool.not_true, Bool.false_eq_true, if_false]
  refine wp_ite (fun _ => wp_pure ⟨rfl, hopened⟩) fun _ => ?_
  exact wp_bind (Version.wp_save (Or.inl trivial)
    (fun w₂ hw₂ => wp_pure ⟨rfl, hopened.trans (.of_saved hw₂)⟩) (fun hf => hf.elim)
    fun hc => hc.elim)

/-- The object of an `Open` that has loaded a version. -/
abbrev freshDB (d : Path) (options : Options) (v : Version) : DB :=
  { dbPath := d, options := options, version := v }

/-- How the tables of a version open in a directory, where every call succeeds. -/
def Tables (d : Path) (options : Options) (v : Version) (w : World) (r : Status × DB) : Prop :=
  ∃ t, (freshDB d options v).openLevels (List.finRange kMaxLevels) w [] = .returned r w [] t

theorem Tables.opensReaders {r : Status × DB} (h : Tables d options v w r) :
    (freshDB d options v).OpensReaders r := by
  obtain ⟨t, ht⟩ := h
  exact ((effects_openLevels (E := Env.hostile) (R := OnlyAt []) _ w t).of_returned
    (Env.admits_nil _) ht (Nat.le_refl t)).2

theorem Tables.transfer {r : Status × DB} (h : Tables d options v w r) (hw : ∀ l, ∀ fm ∈ v.levels l,
    w'.bytes (sstablePath d fm.number) = w.bytes (sstablePath d fm.number)) :
    Tables d options v w' r := by
  obtain ⟨t, ht⟩ := h
  exact (echoes_openLevels (E := Env.calm) id trivial v rfl
    (fun l fm hfm => (hw l fm hfm).symm) _).of_returned ht

theorem Tables.unique {r r' : Status × DB} (h : Tables d options v w r)
    (h' : Tables d options v w r') : r = r' := by
  obtain ⟨t, ht⟩ := h
  obtain ⟨t', ht'⟩ := h'
  rw [ht] at ht'
  cases ht'
  rfl

/-- If a table does not open that is the end of `Open`, and else it succeeds. -/
def Tried (d : Path) (options : Options) (v : Version) (w : World) (r : Status × DB) (w' : World) :
    Prop :=
  ∃ r₁, Tables d options v w r₁ ∧
    (r₁.1.ok = true ∧ r.1 = .OK ∧ Unmoved d w w' ∨ r₁.1.ok = false ∧ r = r₁ ∧ w' = w)

theorem wp_openTables_tried (existed : Bool) :
    wp Env.calm (openTables (freshDB d options v) existed) (fun r w' _ => Tried d options v w r w')
      (fun _ _ => True) w b := by
  have hopens : Echoes Env.calm w ((freshDB d options v).openLevels (List.finRange kMaxLevels)) w :=
    echoes_openLevels id trivial v rfl (fun _ _ _ => rfl) _
  rw [openTables]
  refine wp_then (hopens b) ?_ fun _ _ _ => trivial
  rintro r w₁ b₁ ⟨htables, rfl, rfl⟩
  cases hok : r.1.ok with
  | false =>
      simp only [hok, Bool.not_false, if_true]
      exact wp_pure ⟨r, htables, .inr ⟨hok, rfl, rfl⟩⟩
  | true =>
      obtain ⟨⟨readers, hdb⟩, -⟩ := Tables.opensReaders htables
      obtain ⟨s, db₁⟩ := r
      obtain rfl : db₁ = _ := hdb
      simp only [hok, Bool.not_true, Bool.false_eq_true, if_false]
      refine wp_observes (observes_replayAll_calm id d w₁) (fun hc => hc.elim) fun r hr => ?_
      subst hr
      simp only [Status.ok_OK, Bool.not_true, Bool.false_eq_true, if_false]
      exact wp_mono (wp_openLog_unmoved _ existed) (fun r w' _ h => ⟨_, htables, .inl ⟨hok, h⟩⟩)
        fun _ _ => id

/-- The destructor of an object without a log saves its version. -/
theorem wp_destroy_fresh (readers : Levels SSTableReader) :
    wp Env.calm (destroy { freshDB d options v with openReaders := readers })
      (fun _ w' _ => Version.Saved v (manifestPath d) w w') (fun _ _ => True) w b := by
  rw [destroy, if_neg (by simp), DB.close, if_neg (by simp)]
  exact wp_bind (wp_bind (wp_pure (wp_bind (Version.wp_save (Or.inl trivial)
    (fun w' hw' => wp_pure (wp_pure hw')) (fun hf => hf.elim) fun hc => hc.elim))))

/-- `Open` of a directory that is there, by the ends of its body. -/
theorem wp_openObject_existing {Q : Status × Option DB → World → Nat → Prop}
    (hdir : w.directory = true) (hallowed : options.errorIfExists = false)
    (h : wp Env.calm (openBody { dbPath := d, options := options } true) (fun r w' b' =>
      (r.1.ok = true → Q (.OK, some r.2) w' b') ∧ (r.1.ok = false →
        wp Env.calm r.2.destroy (fun _ w'' b'' => Q (r.1, none) w'' b'') (fun _ _ => True) w' b'))
      (fun _ _ => True) w b) :
    wp Env.calm (openObject d options) Q (fun _ _ => True) w b := by
  have hexists : Observes Env.calm directoryExists (fun r => r = w.directory) w :=
    Observes.probe rfl fun hf => hf.elim
  rw [openObject, DB.open]
  refine wp_bind (wp_observes hexists (fun hc => hc.elim) fun existed hexisted => ?_)
  obtain rfl : existed = true := hexisted.trans hdir
  simp only [Bool.not_true, Bool.false_eq_true, false_and, if_false, ensureDirectory, if_true,
    pure_bind, true_and, hallowed]
  refine wp_then h ?_ fun _ _ => id
  rintro ⟨s, db⟩ w' b' ⟨hok, hfailed⟩
  cases hs : s.ok with
  | true =>
      simp only [Bool.not_true, Bool.false_eq_true, if_false]
      exact wp_pure (wp_pure (hok hs))
  | false =>
      simp only [Bool.not_false, if_true]
      exact wp_bind (wp_mono (hfailed hs) (fun _ _ _ hQ => wp_pure (wp_pure hQ)) fun _ _ => id)

/-- `Load` fails on the manifest, for another reason than that it is missing. -/
def ManifestRejected (d : Path) (w : World) : Prop :=
  (Version.loaded (manifestPath d) (w.bytes (manifestPath d))).1.ok = false ∧
    (Version.loaded (manifestPath d) (w.bytes (manifestPath d))).1.isNotFound = false

/-- The version as far as `Load` has filled it in. -/
def loadedVersion (d : Path) (w : World) : Version :=
  (Version.loaded (manifestPath d) (w.bytes (manifestPath d))).2

/-- How an `Open` ends that gets past the manifest. -/
structure Attempts (d : Path) (options : Options) (v : Version) (w : World)
    (r : Status × Option DB) (w' : World) : Prop where
  directory : w'.directory = w.directory
  owned : ∀ name, TableName name → w'.file (dbFile d name) ≠ none →
    ∃ l, ∃ fm ∈ v.levels l, name = sstName fm.number
  live : ∀ l, ∀ fm ∈ v.levels l,
    w'.bytes (sstablePath d fm.number) = w.bytes (sstablePath d fm.number)
  ends : ∃ r₁, Tables d options v w' r₁ ∧ (r₁.1.ok = true ∧ r.1 = .OK ∨
    r₁.1.ok = false ∧ r.1 = r₁.1 ∧ w'.bytes (manifestPath d) = some v.encode ∧
      w'.bytes (walPath d) = w.bytes (walPath d))

theorem wp_openObject_attempts (hdir : w.directory = true) (hpath : d.getLast? ≠ some separator)
    (hallowed : options.errorIfExists = false) (haccepted : ¬ManifestRejected d w) :
    wp Env.calm (openObject d options)
      (fun r w' _ => Attempts d options (loadedVersion d w) w r w') (fun _ _ => True) w b := by
  have hnames : ∀ n ∈ w.entries d, separator ∉ n := fun n hn => (mem_entries_iff.mp hn).2.1
  have hgoes : ¬((!(Version.loaded (manifestPath d) (w.bytes (manifestPath d))).1.ok) = true ∧
      (!(Version.loaded (manifestPath d) (w.bytes (manifestPath d))).1.isNotFound) = true) := by
    simpa only [Bool.not_eq_true', ManifestRejected] using haccepted
  refine wp_openObject_existing hdir hallowed ?_
  rw [openBody_eq]
  refine wp_observes (Version.observes_load_loaded id _ w) (fun hc => hc.elim) fun r hr => ?_
  obtain ⟨s, v⟩ := r
  obtain rfl : s = _ := congrArg Prod.fst hr
  obtain rfl : v = loadedVersion d w := congrArg Prod.snd hr
  refine wp_ite (fun hstop => absurd hstop hgoes) fun _ => ?_
  refine wp_bind (wp_sweep (fun w₁ hw₁ hgone => ?_) fun hc => hc.elim)
  have hall := (hgone.resolve_left id).resolve_left (by rw [hdir]; decide)
  have howns : DB.Owns (freshDB d options (loadedVersion d w)) [] w₁ := .of_swept hpath hw₁ hall
  have hlive : ∀ l, ∀ fm ∈ (loadedVersion d w).levels l,
      w₁.bytes (sstablePath d fm.number) = w.bytes (sstablePath d fm.number) :=
    fun l fm hfm => hw₁.bytes_live hnames hpath hfm
  have howned : ∀ {w'}, Unmoved d w₁ w' → ∀ name, TableName name → w'.file (dbFile d name) ≠ none →
      ∃ l, ∃ fm ∈ (loadedVersion d w).levels l, name = sstName fm.number := by
    intro w' hw' name hname hfile
    rw [hw'.table name hname] at hfile
    exact (howns name hname hfile).resolve_right fun ⟨fm, hfm, _⟩ => absurd hfm List.not_mem_nil
  have hkept : ∀ {w'}, Unmoved d w₁ w' → ∀ l, ∀ fm ∈ (loadedVersion d w).levels l,
      w'.bytes (sstablePath d fm.number) = w.bytes (sstablePath d fm.number) :=
    fun hw' l fm hfm => (hw'.bytes fm.number).trans (hlive l fm hfm)
  refine wp_mono (wp_openTables_tried true) ?_ fun _ _ => id
  rintro r w₂ b₂ ⟨r₁, htables, ⟨hok, hr, hw₂⟩ | ⟨hfailed, rfl, rfl⟩⟩
  · refine ⟨fun _ => ⟨hw₂.directory.trans hw₁.directory, howned hw₂, hkept hw₂, r₁,
      htables.transfer fun l fm _ => hw₂.bytes fm.number, .inl ⟨hok, rfl⟩⟩, fun hs => ?_⟩
    rw [hr] at hs
    cases hs
  · refine ⟨fun hs => ?_, fun _ => ?_⟩
    · rw [hfailed] at hs
      cases hs
    obtain ⟨⟨readers, hdb⟩, -⟩ := htables.opensReaders
    obtain ⟨s, db₁⟩ := r
    obtain rfl : db₁ = _ := hdb
    refine wp_mono (wp_destroy_fresh readers) (fun _ w₃ b₃ hw₃ => ?_) fun _ _ => id
    have hsaved : Unmoved d w₂ w₃ := .of_saved hw₃
    refine ⟨hsaved.directory.trans hw₁.directory, howned hsaved, hkept hsaved, _,
      htables.transfer fun l fm _ => hsaved.bytes fm.number, .inr ⟨hfailed, rfl, hw₃.manifest, ?_⟩⟩
    rw [World.bytes, hw₃.file _ (wal_ne_manifest d) (wal_ne_tmp d), ← World.bytes]
    exact hw₁.bytes_other hnames separator_notMem_names.1 (by decide)

theorem wp_openObject_rejected (hdir : w.directory = true)
    (hallowed : options.errorIfExists = false) (hrejected : ManifestRejected d w) :
    wp Env.calm (openObject d options) (fun r w' _ => r.1.About (manifestPath d) ∧
      Version.Saved (loadedVersion d w) (manifestPath d) w w') (fun _ _ => True) w b := by
  refine wp_openObject_existing hdir hallowed ?_
  rw [openBody_eq]
  refine wp_observes (Version.observes_load_loaded id _ w) (fun hc => hc.elim) fun r hr => ?_
  obtain ⟨s, v⟩ := r
  obtain rfl : s = _ := congrArg Prod.fst hr
  obtain rfl : v = loadedVersion d w := congrArg Prod.snd hr
  have habout := (Version.loaded_spec (manifestPath d) (w.bytes (manifestPath d))).1
  obtain ⟨hok, hnf⟩ := hrejected
  refine wp_ite (fun _ => wp_pure ⟨fun hs => ?_, fun _ => ?_⟩) fun hgo =>
    absurd ⟨by rw [hok]; rfl, by rw [hnf]; rfl⟩ hgo
  · rw [hok] at hs
    cases hs
  · have hdestroyed := @wp_destroy_fresh d options (loadedVersion d w) w b fun _ => []
    refine wp_mono hdestroyed (fun _ w' _ hw' => ⟨?_, hw'⟩) fun _ _ => id
    refine habout.resolve_left fun hOK => ?_
    rw [hOK] at hok
    cases hok

/-- A manifest that was saved is not rejected. -/
theorem accepted_of_saved (hv : v.Sized) (hw : w.bytes (manifestPath d) = some v.encode) :
    ¬ManifestRejected d w ∧ loadedVersion d w = v := by
  have hloaded := Version.loaded_encode hv (manifestPath d)
  rw [ManifestRejected, loadedVersion, hw, hloaded]
  exact ⟨fun h => (by cases h.1), rfl⟩

theorem Status.About.path_eq {s : Status} {p q : Path} (h : s.About p) (h' : s.About q) : p = q := by
  have hhead := h.2.symm.trans h'.2
  rw [Option.some_inj] at hhead
  exact Text.bytes.inj hhead

/-- If an `Open` in which no call fails is given up, a second one ends with the
same status exactly when the manifest was not rejected. The tables that are left
then are those of the version as far as it was loaded. -/
theorem failed_open_repeats_iff (hdir : w.directory = true) (hpath : d.getLast? ≠ some separator)
    (options : Options) (hallowed : ¬Refused options w) (b : Nat) :
    wp Env.calm (openObject d options) (fun r w' b' => r.1.ok = false →
      wp Env.calm (openObject d options) (fun r' w'' _ =>
        (r'.1 = r.1 ↔ ¬ManifestRejected d w) ∧
        (¬ManifestRejected d w → w''.bytes (walPath d) = w.bytes (walPath d)) ∧
        (∀ l, ∀ fm ∈ (loadedVersion d w).levels l,
          w''.bytes (sstablePath d fm.number) = w.bytes (sstablePath d fm.number)) ∧
        ∀ name, TableName name → w''.file (dbFile d name) ≠ none →
          ∃ l, ∃ fm ∈ (loadedVersion d w).levels l, name = sstName fm.number)
        (fun _ _ => True) w' b') (fun _ _ => True) w b := by
  have hexists : options.errorIfExists = false := by
    simpa [hdir] using fun herr => hallowed (Or.inr ⟨hdir, herr⟩)
  have hsized : (loadedVersion d w).Sized := (Version.loaded_spec _ _).2
  by_cases hrejected : ManifestRejected d w
  · refine wp_mono (wp_openObject_rejected hdir hexists hrejected) ?_ fun _ _ => id
    rintro r w' b' ⟨habout, hsaved⟩ -
    obtain ⟨haccepted, hversion⟩ := accepted_of_saved hsized hsaved.manifest
    refine wp_mono (wp_openObject_attempts (hsaved.directory.trans hdir) hpath hexists haccepted)
      ?_ fun _ _ => id
    rintro r' w'' b'' h'
    rw [hversion] at h'
    refine ⟨⟨fun hsame => ?_, fun h => absurd hrejected h⟩, fun h => absurd hrejected h,
      fun l fm hfm => (h'.live l fm hfm).trans ((Unmoved.of_saved hsaved).bytes fm.number), h'.owned⟩
    -- the second error would be about a table, and the first is about the manifest
    obtain ⟨r₁, htables, ⟨-, hOK⟩ | ⟨hfailed, hr', -⟩⟩ := h'.ends
    · rw [← hsame, hOK] at habout
      cases habout.1
    · obtain ⟨n, hn⟩ := htables.opensReaders.2.resolve_left fun hOK => by
        rw [hOK] at hfailed
        cases hfailed
      rw [← hr', hsame] at hn
      exact absurd (congrArg canonical (hn.path_eq habout)) (sstablePath_ne_manifest d n)
  · refine wp_mono (wp_openObject_attempts hdir hpath hexists hrejected) ?_ fun _ _ => id
    rintro r w' b' h hr
    obtain ⟨r₁, htables, ⟨-, hOK⟩ | ⟨hfailed, hsame, hmanifest, hlog⟩⟩ := h.ends
    · rw [hOK] at hr
      cases hr
    obtain ⟨haccepted, hversion⟩ := accepted_of_saved hsized hmanifest
    refine wp_mono (wp_openObject_attempts (h.directory.trans hdir) hpath hexists haccepted)
      ?_ fun _ _ => id
    rintro r' w'' b'' h'
    rw [hversion] at h'
    -- the tables are as they were, so they open in the same way
    obtain ⟨r₂, htables', hends⟩ := h'.ends
    obtain rfl := htables'.unique (htables.transfer h'.live)
    obtain ⟨hfailed', hsame', -, hlog'⟩ := hends.resolve_left fun hno => by
      rw [hfailed] at hno
      cases hno.1
    exact ⟨⟨fun _ => hrejected, fun _ => hsame'.trans hsame.symm⟩, fun _ => hlog'.trans hlog,
      fun l fm hfm => (h'.live l fm hfm).trans (h.live l fm hfm), h'.owned⟩

/-- A directory with a table and a manifest of four bytes. -/
def cutManifest : World :=
  ((⟨true, ∅⟩ : World).put (manifestPath [0x64]) (File.empty.append [0, 0, 0, 0])).put (sstablePath [0x64] 1) .empty

/-- There the first `Open` fails, and the second one does not. -/
theorem failed_open_repeats_iff_cutManifest :
    ManifestRejected [0x64] cutManifest ∧
    ((openObject [0x64] {} cutManifest []).value.any fun r => !r.1.ok) = true ∧
    wp Env.calm (openObject [0x64] {}) (fun r w' b' => r.1.ok = false →
      wp Env.calm (openObject [0x64] {}) (fun r' w'' _ =>
        (r'.1 = r.1 ↔ ¬ManifestRejected [0x64] cutManifest) ∧
        (¬ManifestRejected [0x64] cutManifest →
          w''.bytes (walPath [0x64]) = cutManifest.bytes (walPath [0x64])) ∧
        (∀ l, ∀ fm ∈ (loadedVersion [0x64] cutManifest).levels l,
          w''.bytes (sstablePath [0x64] fm.number) =
            cutManifest.bytes (sstablePath [0x64] fm.number)) ∧
        ∀ name, TableName name → w''.file (dbFile [0x64] name) ≠ none →
          ∃ l, ∃ fm ∈ (loadedVersion [0x64] cutManifest).levels l, name = sstName fm.number)
        (fun _ _ => True) w' b') (fun _ _ => True) cutManifest 0 :=
  ⟨⟨by decide +kernel, by decide +kernel⟩, by decide +kernel,
    failed_open_repeats_iff rfl (by decide) {} (by simp [Refused, cutManifest]) 0⟩

end Opening

end ClomDB
