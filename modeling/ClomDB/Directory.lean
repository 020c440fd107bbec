import ClomDB.Durability
import ClomDB.Tending

/-!
# The tables of the directory

Where no call fails, the tables in the directory are those of the version in
memory whenever a section has returned, and the manifest is that version. No
section changes a table that was there, wherever the process dies in it.

## Implementation notes

A table is a file with the extension that the sweep looks for. What a compaction
has written before it switches the version is kept beside the version. The walk
through the sections has a parameter, a property of the listed tables at a stage:
every section keeps it, and a flush may take it to the next stage.
-/

namespace ClomDB

open FaultProgram FileSystem FileSystem.World SSTable DB

instance : mortal.Lenient := ⟨trivial, trivial⟩

/-- The name of a table in the directory. -/
structure TableName (name : Bytes) : Prop where
  plain : separator ∉ name
  extension : FileSystem.extension name = sstExtension

theorem tableName_sstName (n : UInt64) : TableName (sstName n) :=
  ⟨separator_notMem_sstName n, extension_sstName n⟩

/-- No table is the file at the path. -/
def NoTable (d p : Path) : Prop := ∀ name, TableName name → canonical (dbFile d name) ≠ canonical p

/-- The tables stay or go, but those with a number that is free. -/
def Ages (d : Path) (free : UInt64 → Prop) (w w' : World) : Prop :=
  ∀ name, TableName name → (∀ n, free n → name ≠ sstName n) →
    w'.file (dbFile d name) = w.file (dbFile d name) ∨ w'.file (dbFile d name) = none

/-- Every table in the directory is in the version, or it is one of the new ones. -/
def DB.Owns (db : DB) (new : List FileMetaData) (w : World) : Prop :=
  ∀ name, TableName name → w.file (dbFile db.dbPath name) ≠ none →
    (∃ l, ∃ fm ∈ db.version.levels l, name = sstName fm.number) ∨
      ∃ fm ∈ new, name = sstName fm.number

/-- The file of a table, if it is there, is as long as the listing says. -/
def Exact (d : Path) (w : World) (fm : FileMetaData) : Prop :=
  ∀ data, w.bytes (sstablePath d fm.number) = some data → fm.fileSize = UInt64.ofNat data.length

/-- The new tables have been given their numbers and their sizes. -/
def DB.Weighs (db : DB) (new : List FileMetaData) (w : World) : Prop :=
  ∀ fm ∈ new, fm.number < db.version.nextFileNumber ∧ Exact db.dbPath w fm

/-- A property of the listed tables that survives a compaction, and that a new table
on top of L0 takes from one stage to the next. -/
structure Upkeep (d : Path) (P : Nat → Levels FileMetaData → World → Prop) : Prop where
  next : ∀ {k levels w}, P k levels w → P (k + 1) levels w
  waned : ∀ {k levels w w'}, P k levels w → (∀ l, ∀ fm ∈ levels l,
    w'.bytes (sstablePath d fm.number) = w.bytes (sstablePath d fm.number) ∨
      w'.bytes (sstablePath d fm.number) = none) → P k levels w'
  push : ∀ {k levels w fm}, P k levels w → Exact d w fm →
    P (k + 1) (Function.update levels 0 (levels 0 ++ [fm])) w
  replace : ∀ {k levels w l l' new}, P k levels w → l' ≠ 0 → (∀ fm ∈ new, Exact d w fm) →
    P k (Function.update (Function.update levels l []) l' new) w

/-- The counter is at `n` or later, and it does not come round within the budget. -/
structure DB.Room (db : DB) (n : UInt64) (b : Nat) : Prop where
  le_next : n ≤ db.version.nextFileNumber
  budget : db.version.nextFileNumber.toNat + b < 2 ^ 64

/-- What a section does to the directory while the numbers from `n` on are free. -/
structure Clears (n : UInt64) (db : DB) (new : List FileMetaData) (w : World) (s : Status)
    (db' : DB) (new' : List FileMetaData) (w' : World) (b' : Nat) : Prop where
  shell : SameShell db db'
  room : db'.Room n b'
  ages : Ages db.dbPath (n ≤ ·) w w'
  owns : s.ok = true → db.Owns new w → db'.Owns new' w'
  weighs : db.Weighs new w → db'.Weighs new' w'

section Names

variable {d p : Path} {name : Bytes}

theorem noTable_dbFile (hname : separator ∉ name) (hext : FileSystem.extension name ≠ sstExtension) :
    NoTable d (dbFile d name) := fun n hn h => by
  rw [canonical_dbFile_inj hn.plain hname] at h
  exact hext (h ▸ hn.extension)

theorem noTable_wal (d : Path) : NoTable d (walPath d) :=
  noTable_dbFile separator_notMem_names.1 (by decide)

theorem noTable_manifest (d : Path) : NoTable d (manifestPath d) :=
  noTable_dbFile separator_notMem_names.2.1 (by decide)

theorem noTable_tmp (d : Path) : NoTable d (Version.tmpPath (manifestPath d)) := by
  rw [tmpPath_manifestPath]
  exact noTable_dbFile separator_notMem_names.2.2 (by decide)

theorem TableName.eq_or_ne (h : TableName name) (n : UInt64) : name = sstName n ∨
    canonical (dbFile d name) ≠ canonical (sstablePath d n) := by
  by_cases heq : name = sstName n
  · exact .inl heq
  · refine .inr fun hpath => heq ?_
    rwa [sstablePath, canonical_dbFile_inj h.plain (separator_notMem_sstName n)] at hpath

end Names

section Ages

variable {d p : Path} {free free' : UInt64 → Prop} {n : UInt64} {w w' w'' : World}

theorem Ages.refl (d : Path) (free : UInt64 → Prop) (w : World) : Ages d free w w :=
  fun _ _ _ => .inl rfl

theorem Ages.trans (h : Ages d free w w') (h' : Ages d free w' w'') : Ages d free w w'' := by
  intro name hname hold
  rcases h' name hname hold with heq | hnone
  · rw [heq]
    exact h name hname hold
  · exact .inr hnone

instance (d : Path) (free : UInt64 → Prop) : IsPreorder World (Ages d free) where
  refl := Ages.refl d free
  trans _ _ _ := Ages.trans

theorem Ages.mono (h : Ages d free w w') (hfree : ∀ n, free n → free' n) : Ages d free' w w' :=
  fun name hname hold => h name hname fun n hn => hold n (hfree n hn)

theorem Ages.of_onlyAt (hp : NoTable d p) (h : OnlyAt p w w') : Ages d free w w' :=
  fun name hname _ => .inl (h.file _ (hp name hname))

theorem Ages.of_table (hn : free n) (h : OnlyAt (sstablePath d n) w w') : Ages d free w w' :=
  fun _ hname hold => .inl (h.file _ ((hname.eq_or_ne n).resolve_left (hold n hn)))

theorem Ages.of_saved {v : Version} (h : Version.Saved v (manifestPath d) w w') : Ages d free w w' :=
  fun name hname _ => .inl (h.file _ (noTable_manifest d name hname) (noTable_tmp d name hname))

theorem Ages.of_removed {numbers : List UInt64} (h : Removed d numbers w w') : Ages d free w w' :=
  fun _ _ _ => (h.file _).imp_right And.left

end Ages

section Owns

variable {db db' : DB} {new : List FileMetaData} {p : Path} {w w' : World} {free : UInt64 → Prop}

theorem DB.Owns.congr (h : db.Owns new w) (hpath : db'.dbPath = db.dbPath)
    (hlevels : db'.version.levels = db.version.levels) : db'.Owns new w := by
  rw [DB.Owns, hpath, hlevels]
  exact h

theorem DB.Owns.of_onlyAt (h : db.Owns new w) (hp : NoTable db.dbPath p) (hw : OnlyAt p w w') :
    db.Owns new w' := fun name hname hfile =>
  h name hname (by rwa [hw.file _ (hp name hname)] at hfile)

theorem DB.Owns.of_saved {v : Version} (h : db.Owns new w)
    (hw : Version.Saved v (manifestPath db.dbPath) w w') : db.Owns new w' := fun name hname hfile =>
  h name hname (by rwa [hw.file _ (noTable_manifest _ name hname) (noTable_tmp _ name hname)]
    at hfile)

/-- A new table is there. -/
theorem DB.Owns.built {fm : FileMetaData} (h : db.Owns new w)
    (hw : OnlyAt (sstablePath db.dbPath fm.number) w w') : db.Owns (new ++ [fm]) w' := by
  intro name hname hfile
  rcases @TableName.eq_or_ne db.dbPath name hname fm.number with hnew | hne
  · exact .inr ⟨fm, by simp, hnew⟩
  · rw [hw.file _ hne] at hfile
    refine (h name hname hfile).imp_right ?_
    rintro ⟨g, hg, heq⟩
    exact ⟨g, List.mem_append_left _ hg, heq⟩

/-- The new table of a flush is in the version. -/
theorem DB.Owns.pushL0 {fm : FileMetaData} (h : db.Owns [fm] w) (reader : SSTableReader) :
    (db.pushL0 fm reader).Owns [] w := by
  intro name hname hfile
  have hlevels : (db.pushL0 fm reader).version.levels =
      Function.update db.version.levels 0 (db.version.levels 0 ++ [fm]) := rfl
  rw [hlevels]
  rcases h name hname hfile with ⟨l, g, hg, heq⟩ | ⟨g, hg, heq⟩
  · refine .inl ⟨l, g, ?_, heq⟩
    by_cases hl : l = 0
    · subst hl
      rw [Function.update_self]
      exact List.mem_append_left _ hg
    · rwa [Function.update_of_ne hl]
  · refine .inl ⟨0, g, ?_, heq⟩
    rw [Function.update_self]
    exact List.mem_append_right _ hg

/-- When the old tables are gone, the new ones are in the version. -/
theorem DB.Owns.switch {l l' : Fin kMaxLevels} {out : Output} (h : db.Owns out.newFiles w)
    (hw : Removed db.dbPath (db.oldNumbers l l') w w')
    (hgone : ∀ n ∈ db.oldNumbers l l', w'.file (sstablePath db.dbPath n) = none) :
    (db.switch l l' out).Owns [] w' := by
  intro name hname hfile
  have hlevels : (db.switch l l' out).version.levels =
      Function.update (Function.update db.version.levels l []) l' out.newFiles := rfl
  have hthere : w.file (dbFile db.dbPath name) ≠ none := by
    rcases hw.file (dbFile db.dbPath name) with hsame | ⟨hnone, -⟩
    · rwa [← hsame]
    · exact absurd hnone hfile
  refine .inl ?_
  rw [hlevels]
  rcases h name hname hthere with ⟨m, fm, hfm, rfl⟩ | ⟨fm, hfm, heq⟩
  · have hold : ∀ {k}, m = k → fm.number ∈ db.oldNumbers l l' → False := fun _ hmem =>
      hfile (hgone _ hmem)
    have hne : m ≠ l := fun hm => hold hm (List.mem_map_of_mem
      (List.mem_append_left _ (hm ▸ hfm)))
    have hne' : m ≠ l' := fun hm => hold hm (List.mem_map_of_mem
      (List.mem_append_right _ (hm ▸ hfm)))
    refine ⟨m, fm, ?_, rfl⟩
    rwa [Function.update_of_ne hne', Function.update_of_ne hne]
  · refine ⟨l', fm, ?_, heq⟩
    rwa [Function.update_self]

end Owns

section Clears

variable {n : UInt64} {db db' db'' : DB} {new new' new'' : List FileMetaData} {w w' w'' : World}
  {s s' : Status} {b b' b'' : Nat}

theorem DB.Room.mono (h : db.Room n b) (hb : b' ≤ b) : db.Room n b' :=
  ⟨h.le_next, by have := h.budget; omega⟩

/-- A number is handed out. -/
theorem DB.Room.next (h : db.Room n (b + 1)) : (db.withNext (db.version.nextFileNumber + 1)).Room n b :=
  have hnext := next_lt_succ h.budget
  ⟨UInt64.le_trans h.le_next (UInt64.le_of_lt hnext.1), hnext.2⟩

theorem DB.Weighs.nil (db : DB) (w : World) : db.Weighs [] w := fun _ hfm =>
  absurd hfm List.not_mem_nil

theorem Clears.refl (h : db.Room n b) (new : List FileMetaData) (s : Status) :
    Clears n db new w s db new w b :=
  ⟨SameShell.refl db, h, Ages.refl _ _ w, fun _ => id, id⟩

/-- After a section that ended well another one goes on. -/
theorem Clears.trans (h : Clears n db new w s db' new' w' b') (hs : s.ok = true)
    (h' : Clears n db' new' w' s' db'' new'' w'' b'') : Clears n db new w s' db'' new'' w'' b'' := by
  have hages := h'.ages
  rw [h.shell.dbPath] at hages
  exact ⟨h.shell.trans h'.shell, h'.room, h.ages.trans hages,
    fun hs' howns => h'.owns hs' (h.owns hs howns), fun hw => h'.weighs (h.weighs hw)⟩

/-- How a section ends that works on the tables. -/
abbrev Clearing (n : UInt64) (db : DB) (w : World) : Status × DB → World → Nat → Prop :=
  fun r w' b' => Clears n db [] w r.1 r.2 [] w' b'

/-- What is left of the tables when the process dies. -/
abbrev Aging (n : UInt64) (db : DB) (w : World) : World → Nat → Prop :=
  fun w' _ => Ages db.dbPath (n ≤ ·) w w'

end Clears

section Tables

variable {n : UInt64} {db : DB} {new : List FileMetaData} {w : World} {b : Nat}

theorem Exact.of_table {d : Path} {w' : World} {fm : FileMetaData} {number : UInt64}
    (h : Exact d w fm) (hn : fm.number ≠ number) (hw : OnlyAt (sstablePath d number) w w') :
    Exact d w' fm := by
  intro data hdata
  rw [hw.bytes fun heq => hn (sstablePath_inj d heq)] at hdata
  exact h data hdata

theorem Exact.of_noTable {d p : Path} {w' : World} {fm : FileMetaData} (h : Exact d w fm)
    (hp : NoTable d p) (hw : OnlyAt p w w') : Exact d w' fm := by
  intro data hdata
  rw [sstablePath, hw.bytes (hp _ (tableName_sstName fm.number))] at hdata
  exact h data hdata

/-- The size of a file, where no call fails. -/
theorem observes_fileSize_exact {E : Env} (hf : ¬E.fails) (path : Path) (w : World) :
    Observes E (fileSize path)
      (fun size => ∀ data, w.bytes path = some data → size = UInt64.ofNat data.length) w :=
  Observes.probe (fun data hdata => by rw [hdata]) fun hfails => absurd hfails hf

/-- What is known of a table that was built, but what is in it. -/
structure BuiltAs (db : DB) (w : World) (r : Except Status (FileMetaData × SSTableReader) × DB)
    (w' : World) : Prop where
  next : r.2 = db.withNext (db.version.nextFileNumber + 1)
  file : OnlyAt (sstablePath db.dbPath db.version.nextFileNumber) w w'
  error : ∀ s, r.1 = .error s → s.ok = false
  number : ∀ p, r.1 = .ok p → p.1.number = db.version.nextFileNumber
  exact : ∀ p, r.1 = .ok p → Exact db.dbPath w' p.1

/-- A table is built in the file of its number. -/
theorem wp_buildTable_file (db : DB) (held : Nat) (entries : List SSTableEntry) (w : World) (b : Nat) :
    wp mortal (db.buildTable held entries) (fun r w' b' => b' + 1 ≤ b ∧ BuiltAs db w r w')
      (fun w' _ => OnlyAt (sstablePath db.dbPath db.version.nextFileNumber) w w') w b := by
  rw [buildTable]
  refine wp_bind (wp_tick fun b₁ hb => ?_)
  refine wp_then (wp_spent (effects_writeTable entries db.options.bloomBitsPerKey w b₁)) ?_
    fun _ _ hw => hw.1
  rintro s w₁ b₂ ⟨⟨hw₁, -⟩, hb₂⟩
  have hfailed : ∀ {s : Status}, s.ok = false →
      BuiltAs db w (.error s, db.withNext (db.version.nextFileNumber + 1)) w₁ := fun hs =>
    ⟨rfl, hw₁, fun s' h => Except.error.inj h ▸ hs, fun p hp => (by cases hp),
      fun p hp => (by cases hp)⟩
  refine wp_ite (fun hs => wp_pure ⟨by omega, hfailed (by simpa using hs)⟩) fun _ => ?_
  refine wp_observes (observes_fileSize_exact id _ w₁) (fun _ => hw₁) fun size hsize => ?_
  refine wp_then (wp_spent (effects_openReader (R := Eq) held _ w₁ b₂)) ?_ ?_
  · rintro r _ b₃ ⟨⟨rfl, hr⟩, hb₃⟩
    cases r with
    | error s => exact wp_pure ⟨by omega, hfailed (hr s rfl).1⟩
    | ok reader =>
        refine wp_pure ⟨by omega, rfl, hw₁, fun s h => (by cases h), fun p hp => ?_, fun p hp => ?_⟩
        · rw [← Except.ok.inj hp]
        · rw [← Except.ok.inj hp]
          exact hsize
  · rintro _ _ ⟨rfl, -⟩
    exact hw₁

theorem wp_flushBatch_clears (h : db.Room n b) (out : Output) (batch : List SSTableEntry) :
    wp mortal (db.flushBatch out batch)
      (fun r w' b' => Clears n db out.newFiles w r.1 r.2.1 r.2.2.newFiles w' b') (Aging n db w) w
      b := by
  rw [flushBatch]
  refine wp_ite (fun _ => wp_pure (.refl h _ _)) fun _ => ?_
  refine wp_then (wp_buildTable_file _ _ _ w b) ?_ fun _ _ hw => .of_table h.le_next hw
  rintro ⟨built, db'⟩ w' b' ⟨hb, hbuilt⟩
  obtain rfl : db' = _ := hbuilt.next
  have hw := hbuilt.file
  have hages : Ages db.dbPath (n ≤ ·) w w' := .of_table h.le_next hw
  have hroom := (h.mono hb).next
  have hlt : db.version.nextFileNumber < db.version.nextFileNumber + 1 :=
    (next_lt_succ (h.mono hb).budget).1
  have hold : db.Weighs out.newFiles w →
      (db.withNext (db.version.nextFileNumber + 1)).Weighs out.newFiles w' := fun hweighs fm hfm =>
    ⟨UInt64.lt_trans (hweighs fm hfm).1 hlt,
      (hweighs fm hfm).2.of_table (UInt64.ne_of_lt (hweighs fm hfm).1) hw⟩
  have hshell : SameShell db (db.withNext (db.version.nextFileNumber + 1)) := ⟨rfl, rfl, rfl, rfl⟩
  cases built with
  | error s =>
      refine wp_pure ⟨hshell, hroom, hages, fun hs => ?_, hold⟩
      have hno : s.ok = false := hbuilt.error s rfl
      rw [hno] at hs
      cases hs
  | ok p =>
      have hnumber : p.1.number = db.version.nextFileNumber := hbuilt.number p rfl
      refine wp_pure ⟨hshell, hroom, hages, fun _ howns => ?_, fun hweighs fm hfm => ?_⟩
      · rw [← hnumber] at hw
        exact (howns.built hw).congr rfl rfl
      · rcases List.mem_append.mp hfm with hfm | hfm
        · exact hold hweighs fm hfm
        · obtain rfl := List.mem_singleton.mp hfm
          exact ⟨hnumber ▸ hlt, hbuilt.exact p rfl⟩

theorem wp_writeMerged_clears (h : db.Room n b) (dropTombstones : Bool) (target : UInt64)
    (entries : List SSTableEntry) (out : Output) (batch : List SSTableEntry) (size : UInt64) :
    wp mortal (writeMerged dropTombstones target entries db out batch size)
      (fun r w' b' => Clears n db out.newFiles w r.1 r.2.1 r.2.2.newFiles w' b') (Aging n db w) w
      b := by
  induction entries generalizing db out batch size w b with
  | nil => exact wp_flushBatch_clears h out batch
  | cons entry rest ih =>
      rw [writeMerged]
      refine wp_ite (fun _ => ih h out batch size) fun _ => ?_
      refine wp_ite (fun _ => ?_) fun _ => ih h out _ _
      refine wp_then (wp_flushBatch_clears h out _) ?_ fun _ _ hw => hw
      rintro ⟨s, db₁, out₁⟩ w₁ b₁ h₁
      refine wp_ite (fun _ => wp_pure h₁) fun hs => ?_
      refine wp_mono (ih h₁.room out₁ [] 0) (fun _ _ _ h₂ => h₁.trans (by simpa using hs) h₂)
        fun w' _ hw' => ?_
      rw [Aging, h₁.shell.dbPath] at hw'
      exact h₁.ages.trans hw'

/-- The old tables of a compaction go. -/
theorem wp_installOutput_clears (h : db.Room n b) (level target : Fin kMaxLevels) (out : Output) :
    wp mortal (db.installOutput level target out)
      (fun r w' b' => Clears n db out.newFiles w r.1 r.2 [] w' b') (Aging n db w) w b := by
  have hroom : (db.switch level target out).Room n b := ⟨h.le_next, h.budget⟩
  refine wp_installOutput (Or.inl trivial) (fun hf => hf.elim) ?_ ?_ ?_
  · intro w₁ w' hw₁ hw' hgone
    refine ⟨⟨rfl, rfl, rfl, rfl⟩, hroom, (Ages.of_saved hw₁).trans (.of_removed hw'),
      fun _ howns => ?_, fun _ => .nil _ _⟩
    exact (howns.of_saved hw₁).switch hw' (hgone.resolve_left id)
  · exact fun _ w' hw' => .of_onlyAt (noTable_tmp _) hw'
  · exact fun _ w₁ w' hw₁ hw' => (Ages.of_saved hw₁).trans (.of_removed hw')

theorem wp_compactLocked_clears (h : db.Room n b) (level : Fin kMaxLevels) :
    wp mortal (db.compactLocked level) (Clearing n db w) (Aging n db w) w b := by
  rw [compactLocked]
  split
  · exact wp_pure (.refl h _ _)
  refine wp_then (wp_spent (effects_mergeReaders (R := Eq) _ _ w b)) ?_ ?_
  · rintro merged _ b₁ ⟨⟨rfl, -⟩, hb₁⟩
    cases merged with
    | error s => exact wp_pure (.refl (h.mono hb₁) _ _)
    | ok merged =>
        refine wp_then (wp_writeMerged_clears (h.mono hb₁) _ _ _ {} [] 0) ?_ fun _ _ hw => hw
        rintro ⟨s, db₁, out⟩ w₁ b₂ h₁
        refine wp_ite (fun hs => wp_pure ⟨h₁.shell, h₁.room, h₁.ages, fun hok => ?_,
          fun _ => .nil _ _⟩) fun hs => ?_
        · have hno : s.ok = false := by simpa using hs
          rw [hno] at hok
          cases hok
        · refine wp_mono (wp_installOutput_clears h₁.room _ _ out)
            (fun _ _ _ h₂ => h₁.trans (by simpa using hs) h₂) fun w' _ hw' => ?_
          rw [Aging, h₁.shell.dbPath] at hw'
          exact h₁.ages.trans hw'
  · rintro _ _ ⟨rfl, -⟩
    exact Ages.refl _ _ w

end Tables

section Sections

variable {n : UInt64} {db : DB} {w : World} {b : Nat}

/-- The log of the object is closed, or it is the one of the directory. -/
def DB.OwnLog (db : DB) : Prop := ∀ log ∈ db.wal, log.Idle (walPath db.dbPath)

theorem WalOf.ownLog (h : WalOf db w) : db.OwnLog := by
  intro log hlog
  rcases h with hwal | ⟨hopen, -⟩
  · rw [hwal, Option.mem_some_iff] at hlog
    rw [← hlog]
    exact WriteAheadLog.idle_closed _
  · rw [hopen, Option.mem_some_iff] at hlog
    rw [← hlog]
    exact ⟨rfl, Or.inr rfl⟩

/-- A rotation changes the file of the log alone. -/
theorem wp_rotateWal_file {E : Env} (h : db.OwnLog) :
    wp E db.rotateWal (fun r w' b' => OnlyAt (walPath db.dbPath) w w' ∧
        (∃ wal, r.2 = { db with wal := wal }) ∧ b' = b)
      (fun w' _ => OnlyAt (walPath db.dbPath) w w') w b := by
  rw [rotateWal]
  cases hwal : db.wal with
  | none => exact wp_abort (OnlyAt.refl _ w)
  | some log =>
      refine wp_bind (WriteAheadLog.wp_close (h log hwal) (fun w₁ hw₁ => ?_)
        (fun _ s w₁ hs hw₁ => ?_) fun _ w₁ hw₁ => hw₁.only)
      · have hgone := hw₁.only.trans (delete_onlyAt w₁ (walPath db.dbPath))
        have hopen : ∀ w₂, OnlyAt (walPath db.dbPath) w w₂ →
            wp E (WriteAheadLog.open (walPath db.dbPath) >>= fun r =>
                pure (r.1, { db with wal := some r.2 }))
              (fun r w' b' => OnlyAt (walPath db.dbPath) w w' ∧
                (∃ wal, r.2 = { db with wal := wal }) ∧ b' = b)
              (fun w' _ => OnlyAt (walPath db.dbPath) w w') w₂ b := fun w₂ hw₂ =>
          wp_bind (WriteAheadLog.wp_open
            (fun w₃ hw₃ _ => wp_pure ⟨hw₂.trans hw₃, ⟨_, rfl⟩, rfl⟩)
            (fun _ s _ => wp_pure ⟨hw₂, ⟨_, rfl⟩, rfl⟩) fun _ w₃ hw₃ _ => hw₂.trans hw₃)
        exact wp_bind (wp_remove (hopen _ hgone) (fun _ => hopen _ hw₁.only)
          fun _ => ⟨hw₁.only, hgone⟩)
      · simp only [hs, Bool.not_false, if_true]
        exact wp_pure ⟨hw₁.only, ⟨_, rfl⟩, rfl⟩

theorem Clears.of_wal {s : Status} {new : List FileMetaData} {wal : Option WriteAheadLog} {w' : World}
    (h : db.Room n b) (hw : OnlyAt (walPath db.dbPath) w w') :
    Clears n db new w s { db with wal := wal } new w' b :=
  ⟨⟨rfl, rfl, rfl, rfl⟩, ⟨h.le_next, h.budget⟩, .of_onlyAt (noTable_wal _) hw, fun _ howns =>
    (howns.of_onlyAt (noTable_wal _) hw).congr rfl rfl, fun hweighs fm hfm =>
      ⟨(hweighs fm hfm).1, (hweighs fm hfm).2.of_noTable (noTable_wal _) hw⟩⟩

theorem wp_flushMemTableLocked_clears (h : db.Room n b) (hlog : db.OwnLog) :
    wp mortal db.flushMemTableLocked (Clearing n db w) (Aging n db w) w b := by
  cases hne : db.memtable.empty with
  | true =>
      rw [flushMemTableLocked, if_pos hne]
      exact wp_pure (.refl h _ _)
  | false =>
      rw [flushMemTableLocked_eq db hne, persistMemTable, bind_assoc]
      refine wp_then (wp_buildTable_file _ _ _ w b) ?_ fun _ _ hw => .of_table h.le_next hw
      rintro ⟨built, db₁⟩ w₁ b₁ ⟨hb₁, hbuilt⟩
      obtain rfl : db₁ = _ := hbuilt.next
      have hw₁ := hbuilt.file
      have hages : Ages db.dbPath (n ≤ ·) w w₁ := .of_table h.le_next hw₁
      have hroom := (h.mono hb₁).next
      cases built with
      | error s =>
          refine wp_bind (wp_pure (wp_pure ⟨⟨rfl, rfl, rfl, rfl⟩, hroom, hages, fun hs => ?_,
            fun _ => .nil _ _⟩))
          have hno : s.ok = false := hbuilt.error s rfl
          rw [hno] at hs
          cases hs
      | ok p =>
          have hnumber : p.1.number = db.version.nextFileNumber := hbuilt.number p rfl
          rw [← hnumber] at hw₁
          refine wp_bind (wp_bind (Version.wp_save (Or.inl trivial) (fun w₂ hw₂ => ?_)
            (fun hf => hf.elim) fun _ w₂ hw₂ => ?_))
          · simp only [Status.ok_OK, Bool.not_true, Bool.false_eq_true, if_false]
            refine wp_pure ?_
            have hpushed : Clears n db [] w .OK { (db.withNext (db.version.nextFileNumber + 1)).pushL0
                p.1 p.2 with memtable := db.memtable.clear } [] w₂ b₁ := by
              refine ⟨⟨rfl, rfl, rfl, rfl⟩, ⟨hroom.le_next, hroom.budget⟩,
                hages.trans (.of_saved hw₂), fun _ howns => ?_, fun _ => .nil _ _⟩
              have hnew : (db.withNext (db.version.nextFileNumber + 1)).Owns [p.1] w₁ :=
                (howns.built hw₁).congr rfl rfl
              exact ((hnew.pushL0 p.2).of_saved hw₂).congr rfl rfl
            refine wp_mono (wp_rotateWal_file hlog) ?_ fun w' _ hw' =>
              hpushed.ages.trans (.of_onlyAt (noTable_wal _) hw')
            rintro ⟨s, db'⟩ w' _ ⟨hw', ⟨wal, hdb'⟩, rfl⟩
            obtain rfl : db' = _ := hdb'
            exact hpushed.trans rfl (.of_wal hpushed.room hw')
          · refine hages.trans ?_
            exact hw₂.elim (Ages.of_onlyAt (noTable_tmp _)) Ages.of_saved

end Sections

section Logging

variable {fuel : Nat} {opts : WriteOptions} {batch : WriteBatch} {db : DB} {w : World} {b : Nat}
  {tree disk : Tree} {Q : Status × DB → World → Nat → Prop} {C : World → Nat → Prop}

/-- A write is skipped or refused, dies in the append to the log, or goes on with its
record in the log. -/
theorem wp_write_logged (h : InvOn none tree disk w db b) (hkept : ∀ s, Q (s, db) w b)
    (hdied : ∀ n w', Grew (walPath db.dbPath) ((WriteAheadLog.frame batch.rep).take n) w w' → C w' b)
    (hlogged : batch.empty = false → ∀ w₁, w.bytes (walPath db.dbPath) ≠ none →
      Grew (walPath db.dbPath) (WriteAheadLog.frame batch.rep) w w₁ →
      InvOn none tree disk w₁ (db.applied batch) b →
      wp mortal (db.finishWrite fuel batch) Q C w₁ b) :
    wp mortal (db.write fuel opts batch) Q C w b := by
  cases hne : batch.empty with
  | true =>
      rw [DB.write, if_pos hne]
      exact wp_pure (hkept _)
  | false =>
  cases hnc : db.closed with
  | true =>
      rw [DB.write, if_neg (by rw [hne]; simp), if_pos hnc]
      exact wp_pure (hkept _)
  | false =>
  rcases h.holds.wal with hwal | ⟨hopen, hfile⟩
  · have hsame : { db with wal := some ⟨none, walPath db.dbPath⟩ } = db := by rw [← hwal]
    rw [write_eq hne hnc hwal]
    refine wp_bind (wp_pure ?_)
    simp only [hsame]
    exact wp_pure (hkept _)
  · have hsame : { db with wal := some ⟨some ⟨walPath db.dbPath, []⟩, walPath db.dbPath⟩ } = db := by
      rw [← show db.wal = _ from hopen]
    rw [write_eq hne hnc hopen]
    refine wp_bind (WriteAheadLog.wp_addRecord rfl (Or.inl trivial) (fun w₁ hw₁ _ => ?_)
      (fun hf => hf.elim) fun _ => hdied)
    simp only [Status.ok_OK, Bool.not_true, Bool.false_eq_true, if_false, hsame]
    exact hlogged hne w₁ hfile hw₁ (h.applied hopen (by simp) hw₁)

end Logging

/-- The directory holds every table that its manifest names, and these are at a stage. -/
def Rests (P : Nat → Levels FileMetaData → World → Prop) (k : Nat) (d : Path) (w : World) (b : Nat) :
    Prop :=
  ∃ disk, OnDisk disk d w ∧ disk.next.toNat + b < 2 ^ 64 ∧ P k disk.version.levels w

section Upkeep

variable {P : Nat → Levels FileMetaData → World → Prop} {k : Nat} {d p : Path} {w w' : World}
  {levels : Levels FileMetaData}

theorem Upkeep.of_noTable (hP : Upkeep d P) (h : P k levels w) (hp : NoTable d p)
    (hw : OnlyAt p w w') : P k levels w' :=
  hP.waned h fun _ fm _ => .inl (hw.bytes (hp _ (tableName_sstName fm.number)))

theorem Upkeep.of_saved {v : Version} (hP : Upkeep d P) (h : P k levels w)
    (hw : Version.Saved v (manifestPath d) w w') : P k levels w' :=
  hP.waned h fun _ fm _ => .inl (by
    rw [World.bytes, World.bytes, hw.file _ (sstablePath_ne_manifest d fm.number)
      (sstablePath_ne_tmp d fm.number)])

theorem Upkeep.of_removed {numbers : List UInt64} (hP : Upkeep d P) (h : P k levels w)
    (hw : Removed d numbers w w') : P k levels w' :=
  hP.waned h fun _ fm _ => (hw.file (sstablePath d fm.number)).imp
    (fun heq => by rw [World.bytes, World.bytes, heq]) fun hnone => by rw [World.bytes, hnone.1]; rfl

/-- The tables of a tree are not written under a later number. -/
theorem Upkeep.of_fresh {t : Tree} {n : UInt64} (hP : Upkeep d P) (h : P k t.version.levels w)
    (hn : t.next ≤ n) (hw : Fresh d n w w') : P k t.version.levels w' := by
  refine hP.waned h fun l fm hfm => .inl ?_
  obtain ⟨f, hf, rfl⟩ := List.mem_map.mp hfm
  exact hw.bytes_table (UInt64.lt_of_lt_of_le (t.number_lt l f hf) hn)

end Upkeep

section Rests

variable {P : Nat → Levels FileMetaData → World → Prop} {k : Nat} {d : Path} {db : DB} {w w' : World}
  {b b' : Nat} {c? : Option Content} {tree disk : Tree}

theorem Rests.mono (h : Rests P k d w b) (hb : b' ≤ b) : Rests P k d w b' := by
  obtain ⟨disk, hdisk, hbudget, hp⟩ := h
  exact ⟨disk, hdisk, by omega, hp⟩

theorem Rests.next (hP : Upkeep d P) (h : Rests P k d w b) : Rests P (k + 1) d w b := by
  obtain ⟨disk, hdisk, hbudget, hp⟩ := h
  exact ⟨disk, hdisk, hbudget, hP.next hp⟩

theorem InvOn.rests (h : InvOn c? tree disk w db b) (hp : P k disk.version.levels w) :
    Rests P k db.dbPath w b := by
  have hle := UInt64.le_iff_toNat_le.mp h.holds.next_le
  exact ⟨disk, h.holds.onDisk, by have := h.holds.budget; omega, hp⟩

theorem Rests.onlyAt_wal (hP : Upkeep d P) (h : Rests P k d w b) (hw : OnlyAt (walPath d) w w') :
    Rests P k d w' b := by
  obtain ⟨disk, hdisk, hbudget, hp⟩ := h
  exact ⟨disk, hdisk.onlyAt hw (sstablePath_ne_wal d) (wal_ne_manifest d).symm, hbudget,
    hP.of_noTable hp (noTable_wal d) hw⟩

theorem InvOn.room (h : InvOn c? tree disk w db b) : db.Room db.version.nextFileNumber b := by
  refine ⟨UInt64.le_refl _, ?_⟩
  rw [h.holds.version]
  exact h.holds.budget

/-- A flush takes the tables to the next stage at most, wherever the process dies. -/
theorem wp_flushMemTableLocked_keeps (hP : Upkeep db.dbPath P) (h : Settled none tree w db b)
    (hp : P k db.version.levels w) :
    wp mortal db.flushMemTableLocked (fun r w' _ => P (k + 1) r.2.version.levels w')
      (Rests P (k + 1) db.dbPath) w b := by
  cases hne : db.memtable.empty with
  | true =>
      rw [flushMemTableLocked, if_pos hne]
      exact wp_pure (hP.next hp)
  | false =>
      have hversion : db.version.nextFileNumber = tree.next := by rw [h.holds.version]; rfl
      have hkept : ∀ {w'}, Fresh db.dbPath tree.next w w' → P k tree.version.levels w' := fun hw' =>
        hP.of_fresh (h.holds.version ▸ hp) (UInt64.le_refl _) hw'
      rw [flushMemTableLocked_eq db hne, persistMemTable, bind_assoc]
      have hbuild : wp mortal (db.buildTable db.held db.memtable.flushEntries)
          (fun r w' b' => ∃ fm reader, r = (.ok (fm, reader),
            db.withNext (db.version.nextFileNumber + 1)) ∧ b = b' + 1 ∧
              Fresh db.dbPath tree.next w w' ∧ db.held < maxOpenFiles ∧
                Built (db.memtable.toTable h.holds.short hne) db.dbPath tree.next w' fm reader)
          (Rests P k db.dbPath) w b := by
        refine wp_buildTable (t := db.memtable.toTable h.holds.short hne) (Or.inl trivial)
          (fun _ w' b' hle hw' => ?_) (fun hf => hf.elim) fun fm r w' b' hb hw' hbuilt hheld => ?_
        · rw [hversion] at hw'
          exact ((h.fresh hw').mono hle).rests (hkept hw')
        · rw [hversion] at hw' hbuilt
          exact ⟨fm, r, rfl, hb, hw', hheld, hbuilt⟩
      refine wp_then (wp_and hbuild (wp_buildTable_file db _ _ w b)) ?_
        fun _ _ hw => hw.1.next hP
      rintro r w' b' ⟨⟨fm, reader, rfl, rfl, hw', hheld, hbuilt⟩, -, hexact⟩
      rw [hversion]
      obtain ⟨tree', -, -, -, hpush⟩ := (h.fresh hw').pushL0 hbuilt (MemTable.layerOf_flushEntries _)
        hheld rfl
      have hpushed : P (k + 1) tree'.version.levels w' := by
        have hold : P k db.version.levels w' := by
          rw [h.holds.version]
          exact hkept hw'
        have hnew : P (k + 1) ((db.withNext (tree.next + 1)).pushL0 fm reader).version.levels w' :=
          hP.push hold (hexact.exact (fm, reader) rfl)
        rwa [hpush.holds.version] at hnew
      refine wp_bind (wp_bind (Version.wp_save (Or.inl trivial) (fun w₂ hw₂ => ?_)
        (fun hf => hf.elim) fun _ w₂ hw₂ => ?_))
      · simp only [Status.ok_OK, Bool.not_true, Bool.false_eq_true, if_false]
        have hp₂ := hP.of_saved hpushed hw₂
        refine wp_pure (wp_mono (wp_spent (wp_rotateWal_file h.holds.wal.ownLog)) ?_ fun w' _ hw' =>
          (((hpush.saved hw₂).rests hp₂).onlyAt_wal hP hw'.1).mono hw'.2)
        rintro ⟨s, db'⟩ w₃ _ ⟨⟨hw₃, ⟨wal, hdb'⟩, -⟩, -⟩
        obtain rfl : db' = _ := hdb'
        rw [← hpush.holds.version] at hp₂
        exact hP.of_noTable hp₂ (noTable_wal _) hw₃
      · rcases hw₂ with hw₂ | hw₂
        · exact ((hpush.onlyAt_tmp hw₂).rests
            (hP.of_noTable (hkept hw') (noTable_tmp _) hw₂)).next hP
        · exact (hpush.saved hw₂).rests (hP.of_saved hpushed hw₂)

/-- A compaction reads and merges, writes tables of known sizes, and installs them. -/
theorem wp_compactLocked_exact {l l' : Fin kMaxLevels} {Q : Status × DB → World → Nat → Prop}
    {C : World → Nat → Prop} (h : InvOn c? tree disk w db b) (hl : l'.val = l.val + 1)
    (hC : ∀ w' b', b' ≤ b → Fresh db.dbPath tree.next w w' → C w' b')
    (hinstall : ∀ next out built w' b', tree.next ≤ next → next.toNat + b' = tree.next.toNat + b →
      Fresh db.dbPath tree.next w w' → Outputs db.dbPath tree.next next w' out built →
      entriesOf built = tree.compactionEntries l l' →
      (∀ fm ∈ out.newFiles, Exact db.dbPath w' fm) →
      wp mortal ((db.withNext next).installOutput l l' out) Q C w' b') :
    wp mortal (db.compactLocked l) Q C w b := by
  have hversion : db.version.nextFileNumber = tree.next := by rw [h.holds.version]; rfl
  refine wp_compactLocked_merged h.holds.aligned hl
    (fun _ => hC w b (Nat.le_refl b) (Fresh.refl _ _ _)) (fun hf => hf.elim) ?_
  have hwritten : wp mortal (writeMerged (l.val + 1 == kMaxLevels - 1) db.targetFileBytes
      (mergedEntries (mergeInputs tree.levels l l')) db {} [] 0)
      (fun r w' b' => ∃ next out built, r = (.OK, db.withNext next, out) ∧ tree.next ≤ next ∧
        next.toNat + b' = tree.next.toNat + b ∧ Fresh db.dbPath tree.next w w' ∧
          Outputs db.dbPath tree.next next w' out built ∧
            entriesOf built = outputEntries tree.levels l l') C w b := by
    refine wp_writeMerged trivial db.targetFileBytes_pos
      (mergedEntries_ascending (mergeInputs tree.levels l l')) (fun e he => mergedEntries_valid he)
      rfl (fun hno => absurd rfl hno) (Outputs.nil db.dbPath tree.next _ w) (by simp)
      (hversion ▸ UInt64.le_refl _) (hversion ▸ h.holds.budget)
      (fun _ w' b' hle hw' => hC w' b' hle (hversion ▸ hw')) (fun hf => hf.elim)
      fun next out built w' b' hle hspent hw' hout hentries _ => ?_
    rw [hversion] at hle hspent hw'
    refine ⟨next, out, built, rfl, hle, hspent, hw', hout, ?_⟩
    rw [hentries, outputEntries, hl]
    rfl
  refine wp_then (wp_and hwritten (wp_writeMerged_clears h.room _ _ _ {} [] 0)) ?_ fun _ _ hw => hw.1
  rintro r w' b' ⟨⟨next, out, built, rfl, hle, hspent, hw', hout, hentries⟩, hclears⟩
  simp only [Status.ok_OK, Bool.not_true, Bool.false_eq_true, if_false]
  rw [tree.outputEntries_eq] at hentries
  exact hinstall next out built w' b' hle hspent hw' hout hentries fun fm hfm =>
    (hclears.weighs (.nil _ _) fm hfm).2

/-- A compaction keeps the tables at their stage, wherever the process dies. -/
theorem wp_compactLocked_keeps (hP : Upkeep db.dbPath P) (h : Settled none tree w db b)
    (hp : P k db.version.levels w) (l : Fin kMaxLevels) :
    wp mortal (db.compactLocked l) (fun r w' _ => P k r.2.version.levels w')
      (Rests P k db.dbPath) w b := by
  by_cases hlast : l.val + 1 ≥ kMaxLevels
  · rw [compactLocked, dif_pos hlast]
    exact wp_pure hp
  have hl : (⟨l.val + 1, Nat.lt_of_not_le hlast⟩ : Fin kMaxLevels).val = l.val + 1 := rfl
  have hkept : ∀ {w'}, Fresh db.dbPath tree.next w w' → P k tree.version.levels w' := fun hw' =>
    hP.of_fresh (h.holds.version ▸ hp) (UInt64.le_refl _) hw'
  refine wp_compactLocked_exact h hl (fun w' b' hle hw' => ((h.fresh hw').mono hle).rests (hkept hw'))
    fun next out built w' b' hle hspent hw' hout hentries hexact => ?_
  obtain ⟨tree', hlevels, -, -, hswitch⟩ :=
    (h.fresh hw').switch hl hle (hspent.trans_lt h.holds.budget) hout hentries
  have hreplaced : P k tree'.version.levels w' := by
    have hold : P k db.version.levels w' := by
      rw [h.holds.version]
      exact hkept hw'
    have hnew : P k ((db.withNext next).switch l
        ⟨l.val + 1, Nat.lt_of_not_le hlast⟩ out).version.levels w' := hP.replace hold (fun h0 => by cases h0) hexact
    rwa [hswitch.holds.version] at hnew
  refine wp_installOutput (Or.inl trivial) (fun hf => hf.elim) (fun w₁ w₂ hw₁ hw₂ _ => ?_)
    (fun _ w₁ hw₁ => (hswitch.onlyAt_tmp hw₁).rests (hP.of_noTable (hkept hw') (noTable_tmp _) hw₁))
    fun _ w₁ w₂ hw₁ hw₂ => ?_
  · have hp₂ := hP.of_removed (hP.of_saved hreplaced hw₁) hw₂
    rwa [← hswitch.holds.version] at hp₂
  · change Removed db.dbPath (db.oldNumbers _ _) w₁ w₂ at hw₂
    refine (InvOn.removed (hswitch.saved hw₁) ?_ hw₂).rests
      (hP.of_removed (hP.of_saved hreplaced hw₁) hw₂)
    rw [DB.oldNumbers_eq h.holds.version]
    exact Tree.replaced_number hlevels fun f hf => (hout.numbers f hf).1

end Rests

section Clearing

variable {P : Nat → Levels FileMetaData → World → Prop} {k : Nat} {n : UInt64} {db : DB} {w : World}
  {b : Nat} {tree : Tree}

/-- How a section ends that looks after the tables. -/
structure Cleared (P : Nat → Levels FileMetaData → World → Prop) (k : Nat) (n : UInt64) (db : DB)
    (w : World) (r : Status × DB) (w' : World) (b' : Nat) : Prop where
  ok : r.1.ok = true
  clears : Clears n db [] w r.1 r.2 [] w' b'
  inv : ∃ tree, Settled none tree w' r.2 b'
  keeps : P k r.2.version.levels w'

/-- What such a section leaves when the process dies. -/
structure Dropped (P : Nat → Levels FileMetaData → World → Prop) (k : Nat) (n : UInt64) (db : DB)
    (w w' : World) (b' : Nat) : Prop where
  ages : Ages db.dbPath (n ≤ ·) w w'
  rests : Rests P k db.dbPath w' b'

theorem InvOn.room_from (h : Settled none tree w db b) (hn : n ≤ db.version.nextFileNumber) :
    db.Room n b := ⟨hn, h.room.budget⟩

theorem Cleared.trans {k' : Nat} {r r' : Status × DB} {w₁ w₂ : World} {b₁ b₂ : Nat}
    (h : Cleared P k n db w r w₁ b₁) (h' : Cleared P k' n r.2 w₁ r' w₂ b₂) :
    Cleared P k' n db w r' w₂ b₂ :=
  ⟨h'.ok, h.clears.trans h.ok h'.clears, h'.inv, h'.keeps⟩

theorem Cleared.dropped {k' : Nat} {r : Status × DB} {w₁ w₂ : World} {b₁ b₂ : Nat}
    (h : Cleared P k n db w r w₁ b₁) (h' : Dropped P k' n r.2 w₁ w₂ b₂) :
    Dropped P k' n db w w₂ b₂ := by
  obtain ⟨hages, hrests⟩ := h'
  rw [h.clears.shell.dbPath] at hages hrests
  exact ⟨h.clears.ages.trans hages, hrests⟩

theorem Cleared.upkeep {r : Status × DB} {w₁ : World} {b₁ : Nat} (h : Cleared P k n db w r w₁ b₁)
    (hP : Upkeep db.dbPath P) : Upkeep r.2.dbPath P := by
  rw [h.clears.shell.dbPath]
  exact hP

theorem wp_compactLocked_cleared (hP : Upkeep db.dbPath P) (h : Settled none tree w db b)
    (hp : P k db.version.levels w) (hn : n ≤ db.version.nextFileNumber) (l : Fin kMaxLevels) :
    wp mortal (db.compactLocked l) (Cleared P k n db w) (Dropped P k n db w) w b := by
  by_cases hlast : l.val + 1 ≥ kMaxLevels
  · rw [compactLocked, dif_pos hlast]
    exact wp_pure ⟨rfl, .refl (h.room_from hn) _ _, ⟨tree, h⟩, hp⟩
  let next : Fin kMaxLevels := ⟨l.val + 1, Nat.lt_of_not_le hlast⟩
  have hinv : wp mortal (db.compactLocked l)
      (fun r w' b' => r.1.ok = true ∧ ∃ tree, Settled none tree w' r.2 b')
      (fun _ _ => True) w b := by
    refine wp_compactLocked_inv trivial h (show next.val = l.val + 1 from rfl)
      (fun _ _ _ _ _ => trivial) fun s db' w' b' tree' disk' _ h' hmoved _ hs => ?_
    have hok := hs.resolve_right id
    exact ⟨hok, tree', hmoved.settled hok rfl ▸ h'⟩
  refine wp_mono (wp_and (wp_and hinv (wp_compactLocked_clears (h.room_from hn) l))
    (wp_compactLocked_keeps hP h hp l)) ?_ fun _ _ hw => ⟨hw.1.2, hw.2⟩
  rintro r w' b' ⟨⟨⟨hok, hinv'⟩, hclears⟩, hkeeps⟩
  exact ⟨hok, hclears, hinv', hkeeps⟩

theorem wp_compactionLoop_cleared (hP : Upkeep db.dbPath P) (h : Settled none tree w db b)
    (hp : P k db.version.levels w) (hn : n ≤ db.version.nextFileNumber) (fuel : Nat) :
    wp mortal (compactionLoop fuel db) (Cleared P k n db w) (Dropped P k n db w) w b := by
  induction fuel generalizing db w b tree with
  | zero => exact wp_outOfFuel trivial
  | succ fuel ih =>
      rw [compactionLoop]
      cases db.needsCompactionLocked with
      | none => exact wp_pure ⟨rfl, .refl (h.room_from hn) _ _, ⟨tree, h⟩, hp⟩
      | some level =>
          refine wp_then (wp_compactLocked_cleared hP h hp hn level) ?_ fun _ _ hw => hw
          rintro ⟨s, db₁⟩ w₁ b₁ h₁
          refine wp_ite (fun _ => wp_pure h₁) fun _ => ?_
          obtain ⟨tree₁, hinv₁⟩ := h₁.inv
          exact wp_mono (ih (h₁.upkeep hP) hinv₁ h₁.keeps h₁.clears.room.le_next)
            (fun _ _ _ h₂ => h₁.trans h₂) fun _ _ hw => h₁.dropped hw

theorem wp_flushMemTableLocked_cleared (hP : Upkeep db.dbPath P) (h : Settled none tree w db b)
    (hp : P k db.version.levels w) (hn : n ≤ db.version.nextFileNumber) :
    wp mortal db.flushMemTableLocked (Cleared P (k + 1) n db w) (Dropped P (k + 1) n db w) w b := by
  have hinv : wp mortal db.flushMemTableLocked
      (fun r w' b' => r.1.ok = true ∧ ∃ tree, Settled none tree w' r.2 b')
      (fun _ _ => True) w b := by
    refine wp_flushMemTableLocked trivial h (fun _ _ _ _ _ => trivial)
      fun s db' w' b' tree' disk' _ h' hflushed hs => ?_
    have hok := (hs.resolve_right id).1
    refine ⟨hok, tree', ?_⟩
    rcases hflushed.ok hok with ⟨-, rfl, rfl, -⟩ | ⟨-, rfl, -⟩
    · exact h'
    · exact h'
  refine wp_mono (wp_and (wp_and hinv (wp_flushMemTableLocked_clears (h.room_from hn)
    h.holds.wal.ownLog)) (wp_flushMemTableLocked_keeps hP h hp)) ?_ fun _ _ hw => ⟨hw.1.2, hw.2⟩
  rintro r w' b' ⟨⟨⟨hok, hinv'⟩, hclears⟩, hkeeps⟩
  exact ⟨hok, hclears, hinv', hkeeps⟩

theorem wp_flush_cleared (hP : Upkeep db.dbPath P) (h : Settled none tree w db b)
    (hp : P k db.version.levels w) (hn : n ≤ db.version.nextFileNumber) (fuel : Nat) :
    wp mortal (db.flush fuel) (Cleared P (k + 1) n db w) (Dropped P (k + 1) n db w) w b := by
  rw [flush]
  refine wp_then (wp_flushMemTableLocked_cleared hP h hp hn) ?_ fun _ _ hw => hw
  rintro ⟨s, db₁⟩ w₁ b₁ h₁
  refine wp_ite (fun _ => wp_pure h₁) fun _ => ?_
  obtain ⟨tree₁, hinv₁⟩ := h₁.inv
  exact wp_mono (wp_compactionLoop_cleared (h₁.upkeep hP) hinv₁ h₁.keeps h₁.clears.room.le_next fuel)
    (fun _ _ _ h₂ => h₁.trans h₂) fun _ _ hw => h₁.dropped hw

theorem wp_maybeFlushLocked_cleared (hP : Upkeep db.dbPath P) (h : Settled none tree w db b)
    (hp : P k db.version.levels w) (hn : n ≤ db.version.nextFileNumber) (fuel : Nat) :
    wp mortal (db.maybeFlushLocked fuel) (Cleared P (k + 1) n db w) (Dropped P (k + 1) n db w) w
      b := by
  rw [maybeFlushLocked]
  exact wp_ite (fun _ => wp_flush_cleared hP h hp hn fuel) fun _ =>
    wp_compactionLoop_cleared hP h (hP.next hp) hn fuel

/-- What a section of a method does to the tables. -/
structure Minds (P : Nat → Levels FileMetaData → World → Prop) (k : Nat) (n : UInt64) (db : DB)
    (w : World) (db' : DB) (w' : World) : Prop where
  ages : Ages db.dbPath (n ≤ ·) w w'
  owns : db.Owns [] w → db'.Owns [] w'
  keeps : P k db'.version.levels w'

theorem Cleared.minds {r : Status × DB} {w' : World} {b' : Nat} (h : Cleared P k n db w r w' b') :
    Minds P k n db w r.2 w' :=
  ⟨h.clears.ages, h.clears.owns h.ok, h.keeps⟩

theorem Minds.refl (n : UInt64) (hp : P k db.version.levels w) : Minds P k n db w db w :=
  ⟨Ages.refl _ _ w, id, hp⟩

theorem Minds.next {db' : DB} {w' : World} (h : Minds P k n db w db' w') (hP : Upkeep db.dbPath P) :
    Minds P (k + 1) n db w db' w' := ⟨h.ages, h.owns, hP.next h.keeps⟩

/-- The log may change, and all of the object but its version. -/
theorem Minds.of_wal {db' : DB} {w' : World} (hP : Upkeep db.dbPath P) (hp : P k db.version.levels w)
    (hw : OnlyAt (walPath db.dbPath) w w') (hpath : db'.dbPath = db.dbPath)
    (hversion : db'.version = db.version) : Minds P k n db w db' w' :=
  ⟨.of_onlyAt (noTable_wal _) hw, fun howns =>
    (howns.of_onlyAt (noTable_wal _) hw).congr hpath (by rw [hversion]), by
      rw [hversion]
      exact hP.of_noTable hp (noTable_wal _) hw⟩

theorem wp_finishWrite_minds {batch : WriteBatch} (hP : Upkeep db.dbPath P)
    (h : Settled none tree w (db.applied batch) b) (hp : P k db.version.levels w)
    (hn : n ≤ db.version.nextFileNumber) (fuel : Nat) :
    wp mortal (db.finishWrite fuel batch) (fun r w' _ => Minds P (k + 1) n db w r.2 w')
      (Dropped P (k + 1) n db w) w b := by
  have hsame : ∀ db' : DB, db'.dbPath = db.dbPath → db'.version = db.version →
      Minds P (k + 1) n db w db' w := fun db' hpath hversion =>
    (Minds.of_wal hP hp (OnlyAt.refl _ w) hpath hversion).next hP
  simp only [finishWrite, applyBatchLocked_eq]
  refine wp_ite (fun _ => wp_pure (hsame _ rfl rfl)) fun _ =>
    wp_ite (fun _ => wp_pure (hsame _ rfl rfl)) fun _ => ?_
  refine wp_mono (@wp_maybeFlushLocked_cleared _ _ n (db.applied batch) _ _ _ hP h hp hn fuel)
    (fun r w' b' h' => ?_) fun _ _ hw => ⟨hw.ages, hw.rests⟩
  exact ⟨h'.minds.ages, fun howns => h'.minds.owns (howns.congr rfl rfl), h'.keeps⟩

theorem wp_write_minds (hP : Upkeep db.dbPath P) (h : Settled none tree w db b)
    (hp : P k db.version.levels w) (hn : n ≤ db.version.nextFileNumber) (fuel : Nat)
    (opts : WriteOptions) (batch : WriteBatch) :
    wp mortal (db.write fuel opts batch) (fun r w' _ => Minds P (k + 1) n db w r.2 w')
      (Dropped P (k + 1) n db w) w b := by
  refine wp_write_logged h (fun _ => .refl n (hP.next hp)) (fun j w' hw' => ?_)
    fun _ w₁ _ hw₁ hinv => ?_
  · exact ⟨.of_onlyAt (noTable_wal _) hw'.only,
      ((h.rests (h.holds.version ▸ hp)).onlyAt_wal hP hw'.only).next hP⟩
  · have hlogged : Minds P k n db w db w₁ := .of_wal hP hp hw₁.only rfl rfl
    exact wp_mono (wp_finishWrite_minds hP hinv hlogged.keeps hn fuel)
      (fun r w' _ h' => ⟨hlogged.ages.trans h'.ages, fun howns => h'.owns (hlogged.owns howns),
        h'.keeps⟩)
      fun w' _ hw' => ⟨hlogged.ages.trans hw'.ages, hw'.rests⟩

theorem wp_backgroundIteration_minds (hP : Upkeep db.dbPath P) (h : Settled none tree w db b)
    (hp : P k db.version.levels w) (hn : n ≤ db.version.nextFileNumber) (fuel : Nat) :
    wp mortal (db.backgroundIteration fuel) (fun db' w' _ => Minds P (k + 1) n db w db' w')
      (Dropped P (k + 1) n db w) w b := by
  rw [backgroundIteration]
  refine wp_ite (fun _ => wp_pure (.refl n (hP.next hp))) fun _ => ?_
  refine wp_then (@wp_flush_cleared _ _ n { db with bgWorkRequested := false } _ _ _ hP
    (h.withFlags false db.shuttingDown db.closed) hp hn fuel) ?_ fun _ _ hw => ⟨hw.ages, hw.rests⟩
  rintro r w' _ h'
  exact wp_pure ⟨h'.minds.ages, fun howns => h'.minds.owns (howns.congr rfl rfl), h'.keeps⟩

theorem wp_closeEnd_minds (hP : Upkeep db.dbPath P) (h : Settled none tree w db b)
    (hp : P k db.version.levels w) (hn : n ≤ db.version.nextFileNumber) :
    wp mortal db.closeEnd (fun r w' _ => Minds P (k + 1) n db w r.2 w') (Dropped P (k + 1) n db w) w
      b := by
  rw [closeEnd]
  refine wp_then (wp_flushMemTableLocked_cleared hP h hp hn) ?_ fun _ _ hw => hw
  rintro ⟨s, db₁⟩ w₁ b₁ h₁
  obtain ⟨tree₁, hinv₁⟩ := h₁.inv
  have hP₁ : Upkeep db₁.dbPath P := h₁.upkeep hP
  have hp₁ : P (k + 1) db₁.version.levels w₁ := h₁.keeps
  have hlog : db₁.OwnLog := hinv₁.holds.wal.ownLog
  obtain ⟨log, hwal⟩ : ∃ log, db₁.wal = some log := by
    rcases hinv₁.holds.wal with hclosed | ⟨hopen, -⟩
    · exact ⟨_, hclosed⟩
    · exact ⟨_, hopen⟩
  have hpath : db₁.dbPath = db.dbPath := h₁.clears.shell.dbPath
  have hversion : db₁.version = tree₁.version := hinv₁.holds.version
  simp only [hwal]
  -- the log is closed, and then the version is saved once more
  have hclosed : ∀ w₂, Grew (walPath db₁.dbPath) [] w₁ w₂ →
      Settled none tree₁ w₂ { db₁ with wal := some ⟨none, walPath db₁.dbPath⟩ } b₁ ∧
        P (k + 1) tree₁.version.levels w₂ := fun w₂ hw₂ =>
    ⟨hinv₁.onlyAt_wal hw₂.only (Or.inl rfl) (by simp),
      hversion ▸ hP₁.of_noTable hp₁ (noTable_wal _) hw₂.only⟩
  have hdropped : ∀ w₂ w₃, Grew (walPath db₁.dbPath) [] w₁ w₂ → Rests P (k + 1) db₁.dbPath w₃ b₁ →
      Ages db₁.dbPath (n ≤ ·) w₂ w₃ → Dropped P (k + 1) n db w w₃ b₁ := fun w₂ w₃ hw₂ hw₃ hages =>
    h₁.dropped ⟨(Ages.of_onlyAt (noTable_wal _) hw₂.only).trans hages, hw₃⟩
  refine wp_bind (WriteAheadLog.wp_close (hlog log hwal) (fun w₂ hw₂ => ?_) (fun hf => hf.elim)
    fun _ w₂ hw₂ => hdropped w₂ w₂ hw₂ ((hclosed w₂ hw₂).1.rests (hclosed w₂ hw₂).2)
      (Ages.refl _ _ _))
  obtain ⟨hinv₂, hp₂⟩ := hclosed w₂ hw₂
  refine wp_bind (Version.wp_save (Or.inl trivial) (fun w₃ hw₃ => wp_pure ?_) (fun hf => hf.elim)
    fun _ w₃ hw₃ => ?_)
  · have hw₃' : Version.Saved db₁.version (manifestPath db₁.dbPath) w₂ w₃ := hw₃
    have hages : Ages db₁.dbPath (n ≤ ·) w₁ w₃ :=
      (Ages.of_onlyAt (noTable_wal _) hw₂.only).trans (.of_saved hw₃')
    rw [hpath] at hages
    refine ⟨h₁.clears.ages.trans hages, fun howns => ?_, ?_⟩
    · exact (((h₁.minds.owns howns).of_onlyAt (noTable_wal _) hw₂.only).of_saved hw₃').congr rfl rfl
    · have hp₃ := hP₁.of_saved hp₂ hw₃'
      rwa [← hversion] at hp₃
  · rcases hw₃ with hw₃ | hw₃
    · exact hdropped w₂ w₃ hw₂ ((hinv₂.onlyAt_tmp hw₃).rests
        (hP₁.of_noTable hp₂ (noTable_tmp _) hw₃)) (.of_onlyAt (noTable_tmp _) hw₃)
    · exact hdropped w₂ w₃ hw₂ ((hinv₂.saved hw₃).rests (hP₁.of_saved hp₂ hw₃)) (.of_saved hw₃)

end Clearing

section Opening

variable {d : Path} {db : DB} {w w' : World} {b : Nat} {options : Options} {disk : Tree}

/-- The tables stay or go, and none is written. -/
abbrev Wanes (d : Path) (w w' : World) : Prop := Ages d (fun _ => False) w w'

theorem TableName.ne_nil {name : Bytes} (h : TableName name) : name ≠ [] := by
  rintro rfl
  exact absurd h.extension (by decide)

theorem Ages.of_swept {free : UInt64 → Prop} {names : List Bytes} (hw : db.Swept names w w') :
    Ages db.dbPath free w w' := fun _ _ _ => (hw.file _).imp_right And.left

theorem OnDisk.swept (h : OnDisk disk db.dbPath w) (hversion : db.version = disk.version)
    (hpath : db.dbPath.getLast? ≠ some separator) (hw : db.Swept (w.entries db.dbPath) w w') :
    OnDisk disk db.dbPath w' := by
  have hnames : ∀ n ∈ w.entries db.dbPath, separator ∉ n := fun n hn => (mem_entries_iff.mp hn).2.1
  have hlive : ∀ l, ∀ f ∈ disk.levels l, f.info ∈ db.version.levels l := fun l f hf => by
    rw [hversion]
    exact List.mem_map_of_mem hf
  refine ⟨?_, h.stored.congr fun l f hf => hw.bytes_live hnames hpath (hlive l f hf)⟩
  · have hman : w'.bytes (manifestPath db.dbPath) = w.bytes (manifestPath db.dbPath) :=
      hw.bytes_other hnames separator_notMem_names.2.1 (by decide)
    rw [hman]
    exact h.manifest

theorem OnDisk.saved (h : OnDisk disk d w)
    (hw : Version.Saved disk.version (manifestPath d) w w') : OnDisk disk d w' :=
  ⟨Or.inl hw.manifest, h.stored.congr fun _ _ _ => by
    rw [World.bytes, World.bytes, hw.file _ (sstablePath_ne_manifest d _) (sstablePath_ne_tmp d _)]⟩

/-- A sweep leaves no table but those of the version. -/
theorem DB.Owns.of_swept (hpath : db.dbPath.getLast? ≠ some separator)
    (hw : db.Swept (w.entries db.dbPath) w w')
    (hgone : ∀ name ∈ w.entries db.dbPath, db.sweepSelects name = true →
      w'.file (appendPath db.dbPath name) = none) : db.Owns [] w' := by
  intro name hname hfile
  have hthere : w.file (dbFile db.dbPath name) ≠ none := by
    rcases hw.file (dbFile db.dbPath name) with hsame | ⟨hnone, -⟩
    · rwa [← hsame]
    · exact absurd hnone hfile
  have hmem : name ∈ w.entries db.dbPath := mem_entries_iff.mpr ⟨hname.ne_nil, hname.plain, hthere⟩
  have hkept : ¬db.sweepSelects name = true := fun hs => hfile (by
    rw [World.file, ← canonical_appendPath _ hname.plain]
    exact hgone name hmem hs)
  rw [sweepSelects_iff hpath hname.plain, not_and, not_not] at hkept
  exact .inl ((live_iff hname.plain).mp (hkept hname.extension))

theorem logged_congr (hw : w'.bytes (walPath d) = w.bytes (walPath d)) : logged d w' = logged d w := by
  rw [logged, logged, hw]

/-- What `Open` makes of a directory with all its tables. -/
structure Takes (disk : Tree) (d : Path) (options : Options) (w : World) (r : Status × DB)
    (w' : World) : Prop where
  ok : r.1.ok = true
  dbPath : r.2.dbPath = d
  options : r.2.options = options
  owns : r.2.Owns [] w'
  wanes : Wanes d w w'
  version : r.2.version = disk.version
  memtable : r.2.memtable = replayRecords {} (logged d w)
  closed : r.2.closed = false
  logOpen : r.2.LogOpen
  log : logged d w' = logged d w

theorem Takes.of_wanes {r : Status × DB} {w₁ : World} (h : Takes disk d options w₁ r w')
    (hw : Wanes d w w₁) (hlog : logged d w₁ = logged d w) : Takes disk d options w r w' :=
  { h with
    wanes := hw.trans h.wanes
    memtable := by rw [← hlog]; exact h.memtable
    log := h.log.trans hlog }

/-- What it leaves when the process dies. -/
structure Waned (disk : Tree) (d : Path) (w w' : World) (b' : Nat) : Prop where
  wanes : Wanes d w w'
  onDisk : OnDisk disk d w'
  budget : disk.next.toNat + b' < 2 ^ 64

theorem wp_openLog_takes (h : OnDisk disk db.dbPath w) (hversion : db.version = disk.version)
    (hb : disk.next.toNat + b < 2 ^ 64) (howns : db.Owns [] w) (hclosed : db.closed = false)
    (hmem : db.memtable = replayRecords {} (logged db.dbPath w)) (existed : Bool) :
    wp mortal (db.openLog existed) (fun r w' _ => Takes disk db.dbPath db.options w r w')
      (Waned disk db.dbPath w) w b := by
  rw [openLog]
  have hlog : ∀ {w'}, OnlyAt (walPath db.dbPath) w w' → OnDisk disk db.dbPath w' := fun hw' =>
    h.onlyAt hw' (sstablePath_ne_wal _) (wal_ne_manifest _).symm
  have hwanes : ∀ {w'}, OnlyAt (walPath db.dbPath) w w' → Wanes db.dbPath w w' := fun hw' =>
    .of_onlyAt (noTable_wal _) hw'
  refine wp_bind (WriteAheadLog.wp_open (fun w₁ hw₁ hbytes => ?_) (fun hf => hf.elim)
    fun _ w₁ hw₁ _ => ⟨hwanes hw₁, hlog hw₁, hb⟩)
  simp only [Status.ok_OK, Bool.not_true, Bool.false_eq_true, if_false]
  have howns₁ := howns.of_onlyAt (noTable_wal _) hw₁
  have hsame : logged db.dbPath w₁ = logged db.dbPath w := by
    rw [logged, hbytes]
    rfl
  refine wp_ite (fun _ => wp_pure ⟨rfl, rfl, rfl, howns₁.congr rfl rfl, hwanes hw₁, hversion,
    hmem, hclosed, rfl, hsame⟩) fun _ => ?_
  refine wp_bind (Version.wp_save (Or.inl trivial) (fun w₂ hw₂ => wp_pure ?_) (fun hf => hf.elim)
    fun _ w₂ hw₂ => ?_)
  · refine ⟨rfl, rfl, rfl, (howns₁.of_saved hw₂).congr rfl rfl, (hwanes hw₁).trans (.of_saved hw₂),
      hversion, hmem, hclosed, rfl, (logged_congr ?_).trans hsame⟩
    rw [World.bytes, World.bytes, hw₂.file _ (wal_ne_manifest _) (wal_ne_tmp _)]
  · rcases hw₂ with hw₂ | hw₂
    · exact ⟨(hwanes hw₁).trans (.of_onlyAt (noTable_tmp _) hw₂),
        (hlog hw₁).onlyAt hw₂ (sstablePath_ne_tmp _) (manifest_ne_tmp _), hb⟩
    · have hw₂' : Version.Saved disk.version (manifestPath db.dbPath) w₁ w₂ := hversion ▸ hw₂
      exact ⟨(hwanes hw₁).trans (.of_saved hw₂), (hlog hw₁).saved hw₂', hb⟩

/-- A replay in which no call fails delivers the records of the log. -/
theorem observes_replayAll_calm {E : Env} (hf : ¬E.fails) (d : Path) (w : World) :
    Observes E (WriteAheadLog.replayAll (walPath d)) (fun r => r = (.OK, logged d w)) w := by
  rw [logged]
  cases hb : w.bytes (walPath d) with
  | none => exact (WriteAheadLog.observes_replayAll_missing hb).mono fun r hr => hr.resolve_right hf
  | some data => exact (WriteAheadLog.observes_replayAll hb).mono fun r hr => hr.resolve_right hf

theorem wp_openTables_takes (h : OnDisk disk d w) (hb : disk.next.toNat + b < 2 ^ 64)
    (howns : DB.Owns { dbPath := d, options := options, version := disk.version } [] w)
    (existed : Bool) :
    wp mortal (openTables { dbPath := d, options := options, version := disk.version } existed)
      (fun r w' _ => Takes disk d options w r w') (Waned disk d w) w b := by
  have hcrash : mortal.crashes → Waned disk d w w b := fun _ => ⟨Ages.refl _ _ w, h, hb⟩
  rw [openTables]
  refine wp_observes (observes_openLevels disk.levels trivial (List.nodup_finRange _)
    (fun _ => rfl) (fun _ _ => rfl) fun l f hf => Or.inl (h.stored l f hf)) hcrash fun r hr => ?_
  obtain ⟨s, db⟩ := r
  obtain ⟨readers, rfl, ⟨-, rfl, -, -⟩ | ⟨-, hwhy⟩⟩ := hr
  swap
  · rcases hwhy with hf | ⟨l, f, hf, hn⟩
    · exact hf.elim
    · exact absurd (h.stored l f hf) hn
  simp only [Status.ok_OK, Bool.not_true, Bool.false_eq_true, if_false]
  refine wp_observes (observes_replayAll_calm id d w) hcrash fun r hr => ?_
  subst hr
  simp only [Status.ok_OK, Bool.not_true, Bool.false_eq_true, if_false]
  exact @wp_openLog_takes ⟨d, options, replayRecords {} (logged d w), none, disk.version, readers,
    false, false, false⟩ _ _ _ h rfl hb howns rfl rfl existed

theorem wp_openBody_takes (h : OnDisk disk d w) (hb : disk.next.toNat + b < 2 ^ 64)
    (hpath : d.getLast? ≠ some separator) (hdir : w.directory = true) (existed : Bool) :
    wp mortal (openBody { dbPath := d, options := options } existed)
      (fun r w' _ => Takes disk d options w r w') (Waned disk d w) w b := by
  have hcrash : mortal.crashes → Waned disk d w w b := fun _ => ⟨Ages.refl _ _ w, h, hb⟩
  have hrest : wp mortal (do
      sweep { dbPath := d, options := options, version := disk.version }
      openTables { dbPath := d, options := options, version := disk.version } existed)
        (fun r w' _ => Takes disk d options w r w') (Waned disk d w) w b := by
    have hnames : ∀ n ∈ w.entries d, separator ∉ n := fun n hn => (mem_entries_iff.mp hn).2.1
    have hswept : ∀ {w'}, DB.Swept { dbPath := d, options := options, version := disk.version }
        (w.entries d) w w' → Wanes d w w' ∧ OnDisk disk d w' := fun hw' =>
      ⟨Ages.of_swept hw', @OnDisk.swept ⟨d, options, {}, none, disk.version, fun _ => [], false,
        false, false⟩ _ _ _ h rfl hpath hw'⟩
    refine wp_bind (wp_sweep (fun w₁ hw₁ hgone => ?_)
      fun _ w₁ hw₁ => ⟨(hswept hw₁).1, (hswept hw₁).2, hb⟩)
    have howns : DB.Owns { dbPath := d, options := options, version := disk.version } [] w₁ := by
      refine DB.Owns.of_swept hpath hw₁ ((hgone.resolve_left id).resolve_left fun hno => ?_)
      rw [hdir] at hno
      cases hno
    have hlog : logged d w₁ = logged d w :=
      logged_congr (hw₁.bytes_other hnames separator_notMem_names.1 (by decide))
    exact wp_mono (wp_openTables_takes (hswept hw₁).2 hb howns existed)
      (fun r w' _ h' => h'.of_wanes (hswept hw₁).1 hlog)
      fun w' _ h' => ⟨(hswept hw₁).1.trans h'.wanes, h'.onDisk, h'.budget⟩
  rw [openBody_eq]
  rcases h.manifest with hman | ⟨hman, rfl⟩
  · refine wp_observes (Version.observes_load disk.version_sized hman _) hcrash fun r hr => ?_
    obtain rfl := hr.resolve_right fun hf => hf.1
    simp only [Status.ok_OK, Bool.not_true, Bool.false_eq_true, false_and, if_false]
    exact hrest
  · refine wp_observes (Version.observes_load_missing hman _) hcrash fun r hr => ?_
    obtain ⟨s, v⟩ := r
    obtain ⟨hv, hs, hwhy⟩ := hr
    obtain rfl : v = {} := hv
    have hnf : s.isNotFound = true := hwhy.resolve_right id
    simp only [hnf, Bool.not_true, Bool.false_eq_true, and_false, if_false]
    exact hrest

/-- How an `Open` ends that returns: it is refused, or there is an object. -/
def OpensOn (disk : Tree) (d : Path) (options : Options) (w : World) (r : Status × Option DB)
    (w' : World) : Prop :=
  w' = w ∧ Refused options w ∧ r.2 = none ∨
    ∃ db, r.2 = some db ∧ Takes disk d options w (r.1, db) w'

/-- An `Open` of a directory with all its tables. -/
theorem wp_openObject_takes (h : OnDisk disk d w) (hb : disk.next.toNat + b < 2 ^ 64)
    (hpath : d.getLast? ≠ some separator) (options : Options) :
    wp mortal (openObject d options) (fun r w' _ => OpensOn disk d options w r w') (Waned disk d w) w
      b := by
  have hcrash : mortal.crashes → Waned disk d w w b := fun _ => ⟨Ages.refl _ _ w, h, hb⟩
  -- how `Open` itself ends
  let ends : Except Status DB → World → Nat → Prop := fun r w' _ =>
    w' = w ∧ Refused options w ∧ (∃ s, r = .error s) ∨
      ∃ db, r = .ok db ∧ Takes disk d options w (.OK, db) w'
  have hrefused : ∀ s, Refused options w →
      wp mortal (pure (.error s) : Prog World (Except Status DB)) ends (Waned disk d w) w b :=
    fun s hwhy => wp_pure (.inl ⟨rfl, hwhy, s, rfl⟩)
  have hbody : ∀ existed w₁, Wanes d w w₁ → logged d w₁ = logged d w → OnDisk disk d w₁ →
      w₁.directory = true →
      wp mortal (openBody { dbPath := d, options := options } existed >>= fun r =>
          if !r.1.ok then r.2.destroy >>= fun _ => pure (.error r.1) else pure (.ok r.2))
        ends (Waned disk d w) w₁ b := by
    intro existed w₁ hw₁ hlog hdisk₁ hdir
    refine wp_then (wp_openBody_takes hdisk₁ hb hpath hdir existed) ?_
      fun w' _ h' => ⟨hw₁.trans h'.wanes, h'.onDisk, h'.budget⟩
    rintro ⟨s, db⟩ w₂ b₂ h₂
    have hok : s.ok = true := h₂.ok
    simp only [hok, Bool.not_true, Bool.false_eq_true, if_false]
    exact wp_pure (.inr ⟨db, rfl, { h₂.of_wanes hw₁ hlog with ok := rfl }⟩)
  have hopen : wp mortal (DB.open options d) ends (Waned disk d w) w b := by
    have hexists : Observes mortal directoryExists (fun r => r = w.directory) w :=
      Observes.probe rfl fun hf _ => hf.elim
    rw [DB.open]
    refine wp_observes hexists hcrash fun existed hexisted => ?_
    cases existed with
    | true =>
        simp only [Bool.not_true, Bool.false_eq_true, false_and, if_false, ensureDirectory, if_true,
          pure_bind, true_and]
        exact wp_ite (fun herr => hrefused _ (Or.inr ⟨hexisted.symm, herr⟩)) fun _ =>
          hbody true w (Ages.refl _ _ w) rfl h hexisted.symm
    | false =>
        simp only [Bool.not_false, true_and, Bool.false_eq_true, false_and, if_false,
          ensureDirectory]
        have hcreated : Wanes d w { w with directory := true } := fun _ _ _ => .inl rfl
        refine wp_ite (fun hno => hrefused _ (Or.inl ⟨hexisted.symm, by simpa using hno⟩)) fun _ =>
          wp_bind (wp_call (hbody false _ hcreated rfl ⟨h.manifest, h.stored⟩ rfl)
            (fun hf => hf.elim) fun hc n => ?_)
        by_cases hn : n = 0
        · rw [if_pos hn]
          exact hcrash hc
        · rw [if_neg hn]
          exact ⟨hcreated, ⟨h.manifest, h.stored⟩, hb⟩
  rw [openObject]
  refine wp_then hopen ?_ fun _ _ hw => hw
  rintro r w' b' (⟨rfl, hwhy, s, rfl⟩ | ⟨db, rfl, h'⟩)
  · exact wp_pure (.inl ⟨rfl, hwhy, rfl⟩)
  · exact wp_pure (.inr ⟨db, rfl, h'⟩)

end Opening

/-- The tables of an open database are those of its version, and a directory
without a process has those that its manifest names. They are at a stage. -/
def Machine.Neat (P : Nat → Levels FileMetaData → World → Prop) (k : Nat) (d : Path) (b : Nat)
    (m : Machine) : Prop :=
  match m.db with
  | none => Rests P k d m.world b
  | some db => db.Owns [] m.world ∧ P k db.version.levels m.world

/-- The numbers that the process may still hand out. -/
def Machine.free (m : Machine) (n : UInt64) : Prop :=
  match m.db with
  | none => False
  | some db => db.version.nextFileNumber ≤ n

section Steps

variable {P : Nat → Levels FileMetaData → World → Prop} {k : Nat} {d : Path} {m m' : Machine}
  {b t : Nat}

theorem Machine.Neat.next (hP : Upkeep d P) (h : m.Neat P k d b) : m.Neat P (k + 1) d b := by
  obtain ⟨w, db?⟩ := m
  cases db? with
  | none => exact Rests.next hP h
  | some db => exact ⟨h.1, hP.next h.2⟩

theorem Upkeep.of_wanes {disk : Tree} {w w' : World} (hP : Upkeep d P)
    (h : P k disk.version.levels w) (hw : Wanes d w w') : P k disk.version.levels w' :=
  hP.waned h fun _ fm _ => (hw _ (tableName_sstName fm.number) fun _ hn => hn.elim).imp
    (fun heq => by rw [World.bytes, World.bytes, sstablePath, heq])
    fun hnone => by rw [World.bytes, sstablePath, hnone]; rfl

theorem Rests.wp_reopen {w : World} (hP : Upkeep d P) (h : Rests P k d w b)
    (hpath : d.getLast? ≠ some separator) (options : Options) (free : UInt64 → Prop) :
    wp mortal (openObject d options)
      (fun r w' b' => Ages d free w w' ∧ Machine.Neat P k d b' ⟨w', r.2⟩)
      (fun w' b' => Ages d free w w' ∧ Rests P k d w' b') w b := by
  have hwaned : ∀ {w'}, Wanes d w w' → Ages d free w w' := fun hw' => hw'.mono fun _ hn => hn.elim
  obtain ⟨disk, hdisk, hb, hp⟩ := h
  refine wp_mono (wp_spent (wp_openObject_takes hdisk hb hpath options)) ?_ fun w' b' hw =>
    ⟨hwaned hw.1.wanes, disk, hw.1.onDisk, hw.1.budget, hP.of_wanes hp hw.1.wanes⟩
  rintro ⟨s, db?⟩ w' b' ⟨⟨rfl, -, hnone⟩ | ⟨db, hdb, h'⟩, hle⟩
  · obtain rfl : db? = none := hnone
    exact ⟨Ages.refl _ _ _, disk, hdisk, by omega, hp⟩
  · obtain rfl : db? = some db := hdb
    have hversion : db.version = disk.version := h'.version
    refine ⟨hwaned h'.wanes, h'.owns, ?_⟩
    rw [hversion]
    exact hP.of_wanes hp h'.wanes

/-- A section of a method in a process that stands. -/
theorem Standing.wp_neat {w : World} {db : DB} (hP : Upkeep d P)
    (hst : Standing none (¬mortal.fails) d w db b) (h : db.Owns [] w) (hp : P k db.version.levels w)
    (hpath : d.getLast? ≠ some separator) (op : Op) (fuel : Nat) :
    wp mortal (op.prog fuel d (some db))
      (fun r w' b' => Ages d (db.version.nextFileNumber ≤ ·) w w' ∧
        Machine.Neat P (k + 1) d b' ⟨w', r.2⟩)
      (fun w' b' => Ages d (db.version.nextFileNumber ≤ ·) w w' ∧ Rests P (k + 1) d w' b') w b := by
  obtain ⟨tree, disk, hinv, hsettled⟩ := hst.inv
  obtain rfl : disk = tree := hsettled id
  have hd := hst.dbPath
  subst hd
  have hn := UInt64.le_refl db.version.nextFileNumber
  have hsame : ∀ {s : Status} {db' : DB}, db'.dbPath = db.dbPath → db'.version = db.version →
      Ages db.dbPath (db.version.nextFileNumber ≤ ·) w w ∧
        Machine.Neat P (k + 1) db.dbPath b ⟨w, some db'⟩ := fun hpath' hversion =>
    ⟨Ages.refl _ _ w, h.congr hpath' (by rw [hversion]), by rw [hversion]; exact hP.next hp⟩
  have hdropped : ∀ w' b', Dropped P (k + 1) db.version.nextFileNumber db w w' b' →
      Ages db.dbPath (db.version.nextFileNumber ≤ ·) w w' ∧ Rests P (k + 1) db.dbPath w' b' :=
    fun w' b' hw => ⟨hw.ages, hw.rests⟩
  cases op with
  | write opts batch =>
      refine wp_bind (wp_mono (wp_write_minds hP hinv hp hn fuel opts batch) (fun r w' b' h' => ?_)
        hdropped)
      exact wp_pure ⟨h'.ages, h'.owns h, h'.keeps⟩
  | flush =>
      refine wp_bind (wp_mono (wp_flush_cleared hP hinv hp hn fuel) (fun r w' b' h' => ?_) hdropped)
      exact wp_pure ⟨h'.minds.ages, h'.minds.owns h, h'.keeps⟩
  | background =>
      refine wp_bind (wp_mono (wp_backgroundIteration_minds hP hinv hp hn fuel) (fun r w' b' h' => ?_)
        hdropped)
      exact wp_pure ⟨h'.ages, h'.owns h, h'.keeps⟩
  | compact level =>
      refine wp_bind (wp_mono (wp_compactLocked_cleared hP hinv (hP.next hp) hn level)
        (fun r w' b' h' => ?_) hdropped)
      exact wp_pure ⟨h'.minds.ages, h'.minds.owns h, h'.keeps⟩
  | closeBegin =>
      have hbegun : db.closeBegin.dbPath = db.dbPath ∧ db.closeBegin.version = db.version := by
        rw [DB.closeBegin]
        split <;> exact ⟨rfl, rfl⟩
      exact wp_pure (hsame (s := .OK) hbegun.1 hbegun.2)
  | closeEnd =>
      refine wp_ite (fun _ => ?_) fun _ => wp_pure (hsame (s := .OK) rfl rfl)
      refine wp_bind (wp_mono (wp_closeEnd_minds hP hinv hp hn) (fun r w' b' h' => ?_) hdropped)
      exact wp_pure ⟨h'.ages, h'.owns h, h'.keeps⟩
  | reopen options =>
      refine wp_ite (fun _ => ?_) fun _ => wp_pure (hsame (s := .OK) rfl rfl)
      rw [hinv.holds.version] at hp
      exact ((hinv.rests hp).next hP).wp_reopen hP hpath options _

theorem Machine.Neat.wp_prog (hP : Upkeep d P) (h : m.Neat P k d b)
    (hst : m.Stands none (¬mortal.fails) d b) (hpath : d.getLast? ≠ some separator) (op : Op)
    (fuel : Nat) :
    wp mortal (op.prog fuel d m.db)
      (fun r w' b' => Ages d m.free m.world w' ∧ Machine.Neat P (k + 1) d b' ⟨w', r.2⟩)
      (fun w' b' => Ages d m.free m.world w' ∧ Rests P (k + 1) d w' b') m.world b := by
  obtain ⟨w, db?⟩ := m
  cases db? with
  | some db => exact Standing.wp_neat hP hst h.1 h.2 hpath op fuel
  | none =>
      cases op with
      | reopen options => exact (Rests.next hP h).wp_reopen hP hpath options _
      | _ => exact wp_pure ⟨Ages.refl _ _ w, Rests.next hP h⟩

/-- A step leaves a neat directory neat, and the tables in it stay or go. -/
theorem Step.neat {A : Machine → Op → Nat → List Fault → Prop} {e : Event} (hP : Upkeep d P)
    (hs : Step mortal A d m e t m') (h : m.Neat P k d b) (hst : m.Stands none (¬mortal.fails) d b)
    (hpath : d.getLast? ≠ some separator) (ht : t ≤ b) :
    Ages d m.free m.world m'.world ∧ m'.Neat P (k + 1) d (b - t) := by
  cases hs with
  | @returned op fuel fs rest s db' w' t admits allowed run =>
      exact (h.wp_prog hP hst hpath op fuel).of_returned admits run ht
  | @crashed op fuel fs w' t crashes admits allowed run =>
      exact (h.wp_prog hP hst hpath op fuel).of_crashed admits run ht
  | killed crashes =>
      refine ⟨Ages.refl _ _ _, Machine.Neat.next hP ?_⟩
      obtain ⟨w, db?⟩ := m
      cases db? with
      | none => exact h
      | some db =>
          have hst' : Standing none (¬mortal.fails) d w db b := hst
          obtain ⟨tree, disk, hinv, hsettled⟩ := hst'.inv
          obtain rfl : disk = tree := hsettled id
          have hd := hst'.dbPath
          subst hd
          have hp : P k db.version.levels w := h.2
          rw [hinv.holds.version] at hp
          exact hinv.rests hp

theorem Run.neat {A : Machine → Op → Nat → List Fault → Prop} {m₀ : Machine} {es : List Event}
    (hP : Upkeep d P) (hr : Run mortal A d m₀ es t m) (h : m₀.Neat P k d b)
    (hst : m₀.Stands none (¬mortal.fails) d b) (hpath : d.getLast? ≠ some separator) (ht : t ≤ b) :
    m.Neat P (k + es.length) d (b - t) ∧ m.Stands none (¬mortal.fails) d (b - t) := by
  have hstands : ∀ {es' t' m'}, Run mortal A d m₀ es' t' m' → t' ≤ b →
      m'.Stands none (¬mortal.fails) d (b - t') := fun hr' ht' =>
    hr'.stands trivial trivial (fun _ => rfl) (Or.inl rfl) hst (by simp) ht'
  refine ⟨?_, hstands hr ht⟩
  induction hr with
  | start => exact h
  | @step es t t' m m' e run last ih =>
      rw [← Nat.sub_sub, List.length_append, List.length_singleton, ← Nat.add_assoc]
      exact (last.neat hP (ih (by omega)) (hstands run (by omega)) hpath (by omega)).2

end Steps

section Runs

variable {P : Nat → Levels FileMetaData → World → Prop} {d : Path} {w : World} {es : List Event}
  {t : Nat} {m : Machine}

theorem Blank.neat (h : Blank d w) {b : Nat} (hb : 1 + b < 2 ^ 64)
    (hp : P 0 Tree.initial.version.levels w) : Machine.Neat P 0 d b ⟨w, none⟩ :=
  ⟨Tree.initial, ⟨Or.inr ⟨h.manifest, rfl⟩, fun _ _ hf => absurd hf List.not_mem_nil⟩, hb, hp⟩

/-- A run from a directory without a manifest takes the tables to the stage of its
events. -/
theorem Run.neat_of_blank (hP : Upkeep d P) (hblank : Blank d w) (hp : P 0 Tree.initial.version.levels w)
    (hpath : d.getLast? ≠ some separator) (hr : Run mortal Free d ⟨w, none⟩ es t m) {b : Nat}
    (hb : t + b + 1 < 2 ^ 64) :
    m.Neat P es.length d b ∧ m.Stands none (¬mortal.fails) d b := by
  have hreached := hr.neat (b := t + b) hP (hblank.neat (by omega) hp)
    (hblank.start none (by simp) (by omega)) hpath (Nat.le_add_right t b)
  rwa [Nat.add_sub_cancel_left, Nat.zero_add] at hreached

theorem upkeep_true (d : Path) : Upkeep d fun _ _ _ => True :=
  ⟨fun _ => trivial, fun _ _ => trivial, fun _ _ => trivial, fun _ _ _ => trivial⟩

/-- The tables of an open database and its manifest are those of its version. -/
theorem Standing.directory {db : DB} {b : Nat} (hst : Standing none (¬mortal.fails) d w db b)
    (h : db.Owns [] w) :
    (w.bytes (manifestPath d) = some db.version.encode ∨
      w.bytes (manifestPath d) = none ∧ db.version = {}) ∧
    ∀ name, TableName name → (w.file (dbFile d name) ≠ none ↔
      ∃ l, ∃ fm ∈ db.version.levels l, name = sstName fm.number) := by
  obtain ⟨tree, disk, hinv, hsettled⟩ := hst.inv
  obtain rfl : disk = tree := hsettled id
  obtain rfl := hst.dbPath
  have hversion := hinv.holds.version
  refine ⟨?_, fun name hname => ⟨fun hfile => ?_, ?_⟩⟩
  · rw [hversion]
    exact hinv.holds.onDisk.manifest.imp_right fun ⟨hnone, hinitial⟩ =>
      ⟨hnone, by rw [hinitial]; exact Tree.version_initial⟩
  · exact (h name hname hfile).resolve_right fun ⟨fm, hfm, _⟩ => absurd hfm List.not_mem_nil
  · rintro ⟨l, fm, hfm, rfl⟩ hnone
    rw [hinv.holds.aligned.version] at hfm
    obtain ⟨f, hf, rfl⟩ := List.mem_map.mp hfm
    obtain ⟨data, hdata, -⟩ := hinv.holds.stored l f hf
    have hgone : w.bytes (sstablePath db.dbPath f.number) = none := by
      rw [World.bytes, show w.file (sstablePath db.dbPath f.number) = none from hnone]
      rfl
    rw [hgone] at hdata
    cases hdata

/-- The tables in a neat directory have numbers that are not free. -/
theorem Machine.Neat.not_free {b k : Nat} (h : m.Neat P k d b)
    (hst : m.Stands none (¬mortal.fails) d b) {name : Bytes} (hname : TableName name) (hfile : m.world.file (dbFile d name) ≠ none) :
    ∀ n, m.free n → name ≠ sstName n := by
  obtain ⟨w, db?⟩ := m
  cases db? with
  | none => exact fun n hn => hn.elim
  | some db =>
      have hst' : Standing none (¬mortal.fails) d w db b := hst
      obtain ⟨tree, disk, hinv, -⟩ := hst'.inv
      obtain ⟨l, fm, hfm, rfl⟩ := ((hst'.directory h.1).2 name hname).mp hfile
      intro n hn heq
      rw [hinv.holds.aligned.version] at hfm
      obtain ⟨f, hf, rfl⟩ := List.mem_map.mp hfm
      have hlt := tree.number_lt l f hf
      have hle : db.version.nextFileNumber ≤ n := hn
      rw [← sstName_inj heq, hinv.holds.version] at hle
      exact absurd hlt (UInt64.not_lt.mpr hle)

/-- Whenever the process is between two sections the tables in the directory are
those of its version, and the manifest is that version. A table in the directory
is never written again. -/
theorem directory_of_version (hblank : Blank d w) (hpath : d.getLast? ≠ some separator)
    (hr : Run mortal Free d ⟨w, none⟩ es t m) (ht : t + 1 < 2 ^ 64) :
    (∀ db, m.db = some db →
      (m.world.bytes (manifestPath d) = some db.version.encode ∨
        m.world.bytes (manifestPath d) = none ∧ db.version = {}) ∧
      ∀ name, TableName name → (m.world.file (dbFile d name) ≠ none ↔
        ∃ l, ∃ fm ∈ db.version.levels l, name = sstName fm.number)) ∧
    ∀ e t' m', Step mortal Free d m e t' m' → t + t' + 1 < 2 ^ 64 → ∀ name, TableName name →
      m.world.file (dbFile d name) ≠ none →
        m'.world.file (dbFile d name) = m.world.file (dbFile d name) ∨
          m'.world.file (dbFile d name) = none := by
  have hneat : ∀ b, t + b + 1 < 2 ^ 64 → m.Neat (fun _ _ _ => True) es.length d b ∧
      m.Stands none (¬mortal.fails) d b := fun b hb =>
    hr.neat_of_blank (upkeep_true d) hblank trivial hpath hb
  refine ⟨fun db hdb => ?_, fun e t' m' hs hb name hname hfile => ?_⟩
  · obtain ⟨hm, hst⟩ := hneat 0 ht
    rw [Machine.Neat, hdb] at hm
    rw [Machine.Stands, hdb] at hst
    exact Standing.directory hst hm.1
  · obtain ⟨hm, hst⟩ := hneat t' hb
    exact (hs.neat (upkeep_true d) hm hst hpath (Nat.le_refl t')).1 name hname
      (hm.not_free hst hname hfile)

/-- After a write that is flushed and one that is not there is one table. -/
theorem directory_of_version_twoWrites : ∃ es m db, twoWrites = some (es, 1, m) ∧ m.db = some db ∧
    ((m.world.bytes (manifestPath [0x64]) = some db.version.encode ∨
        m.world.bytes (manifestPath [0x64]) = none ∧ db.version = {}) ∧
      ∀ name, TableName name → (m.world.file (dbFile [0x64] name) ≠ none ↔
        ∃ l, ∃ fm ∈ db.version.levels l, name = sstName fm.number)) ∧
    ∀ e t' m', Step mortal Free [0x64] m e t' m' → 1 + t' + 1 < 2 ^ 64 → ∀ name, TableName name →
      m.world.file (dbFile [0x64] name) ≠ none →
        m'.world.file (dbFile [0x64] name) = m.world.file (dbFile [0x64] name) ∨
          m'.world.file (dbFile [0x64] name) = none := by
  obtain ⟨es, m, db, hr, hdb, hes, -⟩ := twoWrites_run
  obtain ⟨hall, hsteps⟩ := directory_of_version ⟨rfl, rfl⟩ (by decide)
    (twoWrites_reached (fun _ _ _ => trivial) hr hes) (by decide)
  exact ⟨es, m, db, hr, hdb, hall db hdb, hsteps⟩

end Runs

end ClomDB
