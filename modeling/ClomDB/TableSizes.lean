import ClomDB.Directory

/-!
# The sizes of the tables

Where no call fails, the sizes in the version are the lengths of the files, and
the statistics of an open database count the tables that are in its directory.
-/

namespace ClomDB

open FaultProgram FileSystem FileSystem.World DB

/-- The names of the tables in a directory. -/
def tableNames (w : World) (d : Path) : List Bytes :=
  (w.entries d).filter fun name => FileSystem.extension name = sstExtension

/-- The length of a table, zero if it is not there. -/
def tableLength (w : World) (d : Path) (name : Bytes) : Nat :=
  ((w.bytes (dbFile d name)).getD []).length

/-- The names of the tables of a version, level by level. -/
def listedNames (v : Version) : List Bytes :=
  (List.finRange kMaxLevels).flatMap fun l => (v.levels l).map fun fm => sstName fm.number

/-- The listed tables that are there have the sizes that the listing says. -/
def Measured (d : Path) (levels : Levels FileMetaData) (w : World) : Prop :=
  ∀ l, ∀ fm ∈ levels l, Exact d w fm

section Measured

variable {d : Path} {w w' : World} {levels : Levels FileMetaData} {fm : FileMetaData}
  {new : List FileMetaData} {l l' : Fin kMaxLevels}

/-- The tables that stay keep their sizes. -/
theorem Measured.waned (h : Measured d levels w) (hw : ∀ l, ∀ fm ∈ levels l,
    w'.bytes (sstablePath d fm.number) = w.bytes (sstablePath d fm.number) ∨
      w'.bytes (sstablePath d fm.number) = none) : Measured d levels w' := by
  intro l fm hfm data hdata
  rcases hw l fm hfm with hsame | hnone
  · rw [hsame] at hdata
    exact h l fm hfm data hdata
  · rw [hnone] at hdata
    cases hdata

theorem Measured.push (h : Measured d levels w) (hfm : Exact d w fm) :
    Measured d (Function.update levels 0 (levels 0 ++ [fm])) w := by
  intro l g hg
  by_cases hl : l = 0
  · subst hl
    rw [Function.update_self, List.mem_append, List.mem_singleton] at hg
    rcases hg with hg | rfl
    · exact h 0 g hg
    · exact hfm
  · rw [Function.update_of_ne hl] at hg
    exact h l g hg

theorem Measured.replace (h : Measured d levels w) (hnew : ∀ fm ∈ new, Exact d w fm) :
    Measured d (Function.update (Function.update levels l []) l' new) w := by
  intro k g hg
  by_cases hk' : k = l'
  · subst hk'
    rw [Function.update_self] at hg
    exact hnew g hg
  by_cases hk : k = l
  · subst hk
    rw [Function.update_of_ne hk', Function.update_self] at hg
    cases hg
  · rw [Function.update_of_ne hk', Function.update_of_ne hk] at hg
    exact h k g hg

theorem upkeep_measured (d : Path) : Upkeep d fun _ levels w => Measured d levels w where
  next := id
  waned := Measured.waned
  push := Measured.push
  replace h _ := h.replace

end Measured

section Names

variable {d : Path} {w : World} {name : Bytes}

theorem mem_tableNames : name ∈ tableNames w d ↔
    TableName name ∧ w.file (dbFile d name) ≠ none := by
  rw [tableNames, List.mem_filter, mem_entries_iff, decide_eq_true_eq]
  constructor
  · rintro ⟨⟨-, hsep, hfile⟩, hext⟩
    exact ⟨⟨hsep, hext⟩, hfile⟩
  · rintro ⟨hname, hfile⟩
    exact ⟨⟨hname.ne_nil, hname.plain, hfile⟩, hname.extension⟩

theorem mem_listedNames {v : Version} : name ∈ listedNames v ↔
    ∃ l, ∃ fm ∈ v.levels l, name = sstName fm.number := by
  simp only [listedNames, List.mem_flatMap, List.mem_finRange, true_and, List.mem_map, eq_comm]

/-- No name occurs twice in a directory. -/
theorem entries_nodup (w : World) (d : Path) : (w.entries d).Nodup := by
  rw [entries]
  refine w.files.keys_nodup.filterMap fun k k' name hk hk' => ?_
  simp only [Option.mem_def, Option.ite_none_right_eq_some, Option.some.injEq] at hk hk'
  obtain ⟨⟨⟨rest, rfl⟩, -⟩, rfl⟩ := hk
  obtain ⟨⟨⟨rest', rfl⟩, -⟩, heq⟩ := hk'
  rw [List.drop_left, List.drop_left] at heq
  rw [heq]

theorem tableNames_nodup (w : World) (d : Path) : (tableNames w d).Nodup :=
  (entries_nodup w d).filter _

/-- No table of a tree is listed twice, in one level or in two. -/
theorem Tree.listedNames_nodup (t : Tree) : (listedNames t.version).Nodup := by
  have hlevel : ∀ l, (t.version.levels l).map (fun fm => sstName fm.number) =
      ((t.levels l).map TableFile.number).map sstName := fun l => by
    rw [List.map_map]
    exact List.map_map
  rw [listedNames, List.nodup_flatMap]
  constructor
  · intro l _
    rw [hlevel]
    exact (t.nodup l).map fun m n hmn => sstName_inj hmn
  · refine (List.nodup_finRange _).imp fun {l l'} hne name hl hl' => hne ?_
    obtain ⟨fm, hfm, rfl⟩ := List.mem_map.mp hl
    obtain ⟨fm', hfm', heq⟩ := List.mem_map.mp hl'
    obtain ⟨f, hf, rfl⟩ := List.mem_map.mp hfm
    obtain ⟨f', hf', rfl⟩ := List.mem_map.mp hfm'
    exact t.distinct l l' f hf f' hf' (sstName_inj heq).symm

end Names

section Sums

variable {α β : Type} {files : List FileMetaData}

theorem sum_ofNat (xs : List α) (f : α → Nat) :
    (xs.map fun x => UInt64.ofNat (f x)).sum = UInt64.ofNat (xs.map f).sum := by
  induction xs with
  | nil => rfl
  | cons x xs ih =>
      rw [List.map_cons, List.sum_cons, ih, List.map_cons, List.sum_cons, UInt64.ofNat_add]

/-- The loop of `GetStats` adds the sizes of the files. -/
theorem levelBytes_eq_sum (files : List FileMetaData) :
    levelBytes files = (files.map FileMetaData.fileSize).sum := by
  have hloop : ∀ total : UInt64, files.foldl (fun total fm => total + fm.fileSize) total =
      total + (files.map FileMetaData.fileSize).sum := by
    induction files with
    | nil => simp
    | cons fm files ih =>
        intro total
        rw [List.foldl_cons, ih, List.map_cons, List.sum_cons, UInt64.add_assoc]
  rw [levelBytes, hloop, UInt64.zero_add]

theorem sum_flatMap (ls : List β) (f : β → List α) (g : α → Nat) :
    ((ls.flatMap f).map g).sum = (ls.map fun l => ((f l).map g).sum).sum := by
  rw [List.map_flatMap, List.flatMap_def, List.sum_flatten, List.map_map]
  rfl

end Sums

section Runs

variable {d : Path} {w : World} {db : DB} {es : List Event} {t : Nat} {m : Machine}

/-- The tables in the directory of an open database are those of its version. -/
theorem Standing.tableNames_perm {b : Nat} (hst : Standing none (¬mortal.fails) d w db b)
    (h : db.Owns [] w) : (tableNames w d).Perm (listedNames db.version) := by
  obtain ⟨tree, disk, hinv, -⟩ := hst.inv
  have hnodup : (listedNames db.version).Nodup := by
    rw [hinv.holds.version]
    exact tree.listedNames_nodup
  rw [List.perm_ext_iff_of_nodup (tableNames_nodup w d) hnodup]
  intro name
  rw [mem_tableNames, mem_listedNames]
  constructor
  · rintro ⟨hname, hfile⟩
    exact ((hst.directory h).2 name hname).mp hfile
  · rintro ⟨l, fm, hfm, rfl⟩
    have hname := tableName_sstName fm.number
    exact ⟨hname, ((hst.directory h).2 _ hname).mpr ⟨l, fm, hfm, rfl⟩⟩

/-- The size of a listed table is the length of its file. -/
theorem Standing.fileSize_eq {b : Nat} (hst : Standing none (¬mortal.fails) d w db b)
    (h : db.Owns [] w) (hsizes : Measured d db.version.levels w) {l : Fin kMaxLevels}
    {fm : FileMetaData} (hfm : fm ∈ db.version.levels l) :
    fm.fileSize = UInt64.ofNat (tableLength w d (sstName fm.number)) := by
  have hfile := ((hst.directory h).2 _ (tableName_sstName fm.number)).mpr ⟨l, fm, hfm, rfl⟩
  obtain rfl := hst.dbPath
  obtain ⟨f, hf⟩ := Option.ne_none_iff_exists'.mp hfile
  have hbytes : w.bytes (dbFile db.dbPath (sstName fm.number)) = some f.data := by
    rw [World.bytes, hf]
    rfl
  rw [hsizes l fm hfm f.data hbytes, tableLength, hbytes]
  rfl

/-- Whenever the process is between two sections, the sizes in the version are the
lengths of the files, and the statistics count the tables in the directory. -/
theorem stats_of_directory (hblank : Blank d w) (hpath : d.getLast? ≠ some separator)
    (hr : Run mortal Free d ⟨w, none⟩ es t m) (ht : t + 1 < 2 ^ 64) (hdb : m.db = some db) :
    (∀ l, ∀ fm ∈ db.version.levels l,
      fm.fileSize = UInt64.ofNat (tableLength m.world d (sstName fm.number))) ∧
    (∀ l, db.getStats.bytesPerLevel l = UInt64.ofNat
      ((db.version.levels l).map fun fm => tableLength m.world d (sstName fm.number)).sum) ∧
    ((List.finRange kMaxLevels).map fun l => (db.getStats.filesPerLevel l).toNat).sum =
      (tableNames m.world d).length ∧
    ((List.finRange kMaxLevels).map db.getStats.bytesPerLevel).sum =
      UInt64.ofNat ((tableNames m.world d).map (tableLength m.world d)).sum := by
  obtain ⟨hm, hst⟩ := hr.neat_of_blank (upkeep_measured d) hblank
    (fun _ _ hfm => absurd hfm List.not_mem_nil) hpath (b := 0) ht
  rw [Machine.Neat, hdb] at hm
  rw [Machine.Stands, hdb] at hst
  obtain ⟨howns, hsizes⟩ := hm
  have hperm : (tableNames m.world d).Perm (listedNames db.version) :=
    Standing.tableNames_perm hst howns
  have hfile : ∀ l, ∀ fm ∈ db.version.levels l,
      fm.fileSize = UInt64.ofNat (tableLength m.world d (sstName fm.number)) := fun l fm hfm =>
    Standing.fileSize_eq hst howns hsizes hfm
  have hlevel : ∀ l, db.getStats.bytesPerLevel l = UInt64.ofNat
      ((db.version.levels l).map fun fm => tableLength m.world d (sstName fm.number)).sum := by
    intro l
    change levelBytes (db.version.levels l) = _
    rw [levelBytes_eq_sum, ← sum_ofNat]
    exact congrArg List.sum (List.map_congr_left fun fm hfm => hfile l fm hfm)
  refine ⟨hfile, hlevel, ?_, ?_⟩
  · obtain ⟨tree, disk, hinv, -⟩ := hst.inv
    rw [hperm.length_eq, listedNames, List.length_flatMap]
    refine congrArg List.sum (List.map_congr_left fun l _ => ?_)
    have hsized : (db.version.levels l).length ≤ maxOpenFiles := by
      rw [hinv.holds.version]
      exact List.length_map TableFile.info ▸ tree.sized l
    rw [getStats, List.length_map]
    exact UInt64.toNat_ofNat_of_lt' (hsized.trans_lt (by decide))
  · have htotal : ((listedNames db.version).map (tableLength m.world d)).sum =
        ((List.finRange kMaxLevels).map fun l => ((db.version.levels l).map fun fm =>
          tableLength m.world d (sstName fm.number)).sum).sum := by
      rw [listedNames, sum_flatMap]
      simp only [List.map_map, Function.comp_def]
    rw [(hperm.map _).sum_eq, htotal, ← sum_ofNat]
    exact congrArg List.sum (List.map_congr_left fun l _ => hlevel l)

/-- After a write that is flushed and one that is not. -/
theorem stats_of_directory_twoWrites : ∃ es m db, twoWrites = some (es, 1, m) ∧ m.db = some db ∧
    (∀ l, ∀ fm ∈ db.version.levels l,
      fm.fileSize = UInt64.ofNat (tableLength m.world [0x64] (sstName fm.number))) ∧
    (∀ l, db.getStats.bytesPerLevel l = UInt64.ofNat
      ((db.version.levels l).map fun fm => tableLength m.world [0x64] (sstName fm.number)).sum) ∧
    ((List.finRange kMaxLevels).map fun l => (db.getStats.filesPerLevel l).toNat).sum =
      (tableNames m.world [0x64]).length ∧
    ((List.finRange kMaxLevels).map db.getStats.bytesPerLevel).sum =
      UInt64.ofNat ((tableNames m.world [0x64]).map (tableLength m.world [0x64])).sum := by
  obtain ⟨es, m, db, hr, hdb, hes, -⟩ := twoWrites_run
  exact ⟨es, m, db, hr, hdb, stats_of_directory ⟨rfl, rfl⟩ (by decide)
    (twoWrites_reached (fun _ _ _ => trivial) hr hes) (by decide) hdb⟩

end Runs

end ClomDB
