import ClomDB.Compaction

/-!
# Compaction as a newest-wins merge

The entries that `CompactLocked` writes, told by what decides each key: the
newest table of the source level that has it, and the target level otherwise.
-/

namespace ClomDB

open FaultProgram FileSystem FileSystem.World SSTable DB

/-- An entry of the table with the highest number among those that have its key. -/
def NewestOf (tables : List TableFile) (e : SSTableEntry) : Prop :=
  ∃ f ∈ tables, e ∈ f.table.entries ∧
    ∀ g ∈ tables, (∃ e' ∈ g.table.entries, e'.key = e.key) → g.number ≤ f.number

/-- The entry that a compaction of `l` into `l'` takes for its key. -/
def Decides (files : Levels TableFile) (l l' : Fin kMaxLevels) (e : SSTableEntry) : Prop :=
  NewestOf (files l) e ∨
    e ∈ entriesOf (files l') ∧ ∀ e' ∈ entriesOf (files l), e'.key ≠ e.key

/-- No two tables have a key in common. -/
def Apart (f g : TableFile) : Prop :=
  ∀ e ∈ f.table.entries, ∀ e' ∈ g.table.entries, e.key ≠ e'.key

instance : Std.Symm Apart := ⟨fun _ _ h e he e' he' heq => h e' he' e he heq.symm⟩

theorem TableFile.Before.apart {f g : TableFile} (h : f.Before g) : Apart f g := by
  intro e he e' he' heq
  have hf : f.layer e.key ≠ none := by
    rw [TableFile.layer, Table.layer, layerOf, KeyedRun.find_of_mem f.table.ascending he]
    simp
  have hg : g.layer e.key ≠ none := by
    rw [heq, TableFile.layer, Table.layer, layerOf, KeyedRun.find_of_mem g.table.ascending he']
    simp
  exact h.layer.elim hf hg

theorem mem_entriesOf {tables : List TableFile} {e : SSTableEntry} :
    e ∈ entriesOf tables ↔ ∃ f ∈ tables, e ∈ f.table.entries := List.mem_flatMap

/-- The first table of a list that has a key decides it. -/
def firstEntry (k : Bytes) (tables : List TableFile) : Option SSTableEntry :=
  (tables.map fun f => f.table.entries).findSome? (KeyedRun.find SSTableEntry.key k)

theorem firstEntry_eq_none {k : Bytes} {tables : List TableFile} :
    firstEntry k tables = none ↔ ∀ e ∈ entriesOf tables, e.key ≠ k := by
  rw [firstEntry, List.findSome?_eq_none_iff]
  constructor
  · intro h e he
    obtain ⟨f, hf, hef⟩ := mem_entriesOf.mp he
    exact KeyedRun.find_eq_none_iff.mp (h _ (List.mem_map_of_mem hf)) e hef
  · intro h run hrun
    obtain ⟨f, hf, rfl⟩ := List.mem_map.mp hrun
    exact KeyedRun.find_eq_none_iff.mpr fun e he => h e (mem_entriesOf.mpr ⟨f, hf, he⟩)

theorem firstEntry_eq_some {k : Bytes} {tables : List TableFile} {e : SSTableEntry} :
    firstEntry k tables = some e ↔ ∃ before f after, tables = before ++ f :: after ∧
      e ∈ f.table.entries ∧ e.key = k ∧ ∀ g ∈ before, ∀ e' ∈ g.table.entries, e'.key ≠ k := by
  rw [firstEntry, List.findSome?_eq_some_iff]
  constructor
  · rintro ⟨before, run, after, hsplit, hrun, hbefore⟩
    obtain ⟨pre, post, rfl, rfl, hpost⟩ := List.map_eq_append_iff.mp hsplit
    obtain ⟨f, post, rfl, rfl, rfl⟩ := List.map_eq_cons_iff.mp hpost
    obtain ⟨he, hk⟩ := KeyedRun.mem_of_find hrun
    exact ⟨pre, f, post, rfl, he, hk, fun g hg =>
      KeyedRun.find_eq_none_iff.mp (hbefore _ (List.mem_map_of_mem hg))⟩
  · rintro ⟨pre, f, post, rfl, he, rfl, hbefore⟩
    refine ⟨pre.map _, f.table.entries, post.map _, List.map_append, ?_, fun run hrun => ?_⟩
    · exact KeyedRun.find_of_mem f.table.ascending he
    · obtain ⟨g, hg, rfl⟩ := List.mem_map.mp hrun
      exact KeyedRun.find_eq_none_iff.mpr (hbefore g hg)

/-- A key that occurs has a first table. -/
theorem exists_firstEntry {tables : List TableFile} {e : SSTableEntry} (he : e ∈ entriesOf tables) :
    ∃ e₁ before f₁ after, tables = before ++ f₁ :: after ∧ e₁ ∈ f₁.table.entries ∧
      e₁.key = e.key ∧ ∀ g ∈ before, ∀ e' ∈ g.table.entries, e'.key ≠ e.key := by
  have hsome : firstEntry e.key tables ≠ none := fun hnone =>
    firstEntry_eq_none.mp hnone e he rfl
  obtain ⟨e₁, hfirst⟩ := Option.ne_none_iff_exists'.mp hsome
  exact ⟨e₁, firstEntry_eq_some.mp hfirst⟩

/-- The first of the tables in descending order of their numbers is the newest. -/
theorem firstEntry_eq_some_iff_newest {k : Bytes} {tables ordered : List TableFile}
    {e : SSTableEntry} (hmem : ∀ f, f ∈ ordered ↔ f ∈ tables)
    (hone : ∀ f ∈ tables, ∀ g ∈ tables, f.number = g.number → f = g)
    (horder : ordered.Pairwise fun f g => g.number ≤ f.number ∨ Apart f g) :
    firstEntry k ordered = some e ↔ NewestOf tables e ∧ e.key = k := by
  rw [firstEntry_eq_some]
  constructor
  · rintro ⟨before, f, after, rfl, he, rfl, hbefore⟩
    refine ⟨⟨f, (hmem f).mp (by simp), he, fun g hg hkey => ?_⟩, rfl⟩
    obtain ⟨e', he', hk⟩ := hkey
    rcases List.mem_append.mp ((hmem g).mpr hg) with hg | hg
    · exact absurd hk (hbefore g hg e' he')
    · rcases List.mem_cons.mp hg with rfl | hg
      · exact UInt64.le_refl _
      · have hafter := (List.pairwise_cons.mp (List.pairwise_append.mp horder).2.1).1 g hg
        exact hafter.resolve_right fun hapart => hapart e he e' he' hk.symm
  · rintro ⟨⟨f, hf, he, hnewest⟩, rfl⟩
    -- some table of the list is the first with the key
    obtain ⟨e₁, before, f₁, after, hsplit, he₁, hk₁, hbefore⟩ :=
      exists_firstEntry (mem_entriesOf.mpr ⟨f, (hmem f).mpr hf, he⟩)
    have hf₁ : f₁ ∈ tables := (hmem f₁).mp (by simp [hsplit])
    have hle := hnewest f₁ hf₁ ⟨e₁, he₁, hk₁⟩
    -- and it is no older than the newest one
    have hge : f.number ≤ f₁.number := by
      have hfo := (hmem f).mpr hf
      rw [hsplit] at hfo horder
      rcases List.mem_append.mp hfo with hfb | hfb
      · exact absurd rfl (hbefore f hfb e he)
      · rcases List.mem_cons.mp hfb with rfl | hfa
        · exact UInt64.le_refl _
        · have hafter := (List.pairwise_cons.mp (List.pairwise_append.mp horder).2.1).1 f hfa
          exact hafter.resolve_right fun hapart => hapart e₁ he₁ e he hk₁
    obtain rfl := hone f hf f₁ hf₁ (UInt64.le_antisymm hge hle)
    exact ⟨before, f, after, hsplit, he, rfl, hbefore⟩

/-- Where no two tables have a key in common, any entry is the first. -/
theorem firstEntry_eq_some_iff_mem {k : Bytes} {tables ordered : List TableFile}
    {e : SSTableEntry} (hmem : ∀ f, f ∈ ordered ↔ f ∈ tables)
    (hapart : tables.Pairwise Apart) :
    firstEntry k ordered = some e ↔ e ∈ entriesOf tables ∧ e.key = k := by
  rw [firstEntry_eq_some, mem_entriesOf]
  constructor
  · rintro ⟨before, f, after, rfl, he, rfl, -⟩
    exact ⟨⟨f, (hmem f).mp (by simp), he⟩, rfl⟩
  · rintro ⟨⟨f, hf, he⟩, rfl⟩
    obtain ⟨e₁, before, f₁, after, hsplit, he₁, hk₁, hbefore⟩ :=
      exists_firstEntry (mem_entriesOf.mpr ⟨f, (hmem f).mpr hf, he⟩)
    have hsame : f₁ = f := by
      by_contra hne
      exact hapart.forall ((hmem f₁).mp (by simp [hsplit])) hf hne e₁ he₁ e he hk₁
    subst hsame
    have hentry : e₁ = e := by
      have hfind := KeyedRun.find_of_mem f₁.table.ascending he₁
      rw [hk₁, KeyedRun.find_of_mem f₁.table.ascending he] at hfind
      exact (Option.some.inj hfind).symm
    exact ⟨before, f₁, after, hsplit, he, rfl, hbefore⟩

theorem getElem?_mergeRuns {runs : List (List SSTableEntry)}
    (h : ∀ run ∈ runs, KeyedRun.Ascending SSTableEntry.key run) (k : Bytes) :
    (mergeRuns runs)[k]? = runs.reverse.findSome? (KeyedRun.find SSTableEntry.key k) := by
  induction runs using List.reverseRecOn with
  | nil => simp [mergeRuns]
  | append_singleton runs run ih =>
      rw [mergeRuns_append_singleton, KeyedRun.getElem?_insertAll _ (h run (by simp)),
        List.reverse_append, List.reverse_singleton, List.singleton_append, List.findSome?_cons,
        ih fun r hr => h r (by simp [hr])]
      cases KeyedRun.find SSTableEntry.key k run <;> rfl

theorem mem_mergedEntries {runs : List (List SSTableEntry)} {e : SSTableEntry} :
    e ∈ mergedEntries runs ↔ (mergeRuns runs)[e.key]? = some e := by
  rw [mergedEntries, List.mem_map]
  constructor
  · rintro ⟨p, hp, rfl⟩
    have hget := Std.ExtTreeMap.mem_toList_iff_getElem?_eq_some.mp hp
    rwa [mergeRuns_keyed runs _ _ hget]
  · intro hget
    exact ⟨(e.key, e), Std.ExtTreeMap.mem_toList_iff_getElem?_eq_some.mpr hget, rfl⟩

/-- The numbers of the tables: distinct, and handed out before. -/
structure Numbered (files : Levels TableFile) (next : UInt64) : Prop where
  lt : ∀ l, ∀ f ∈ files l, f.number < next
  distinct : ∀ l l', ∀ f ∈ files l, ∀ g ∈ files l', f.number = g.number → l = l'
  nodup : ∀ l, ((files l).map TableFile.number).Nodup

section Newest

variable {files : Levels TableFile} {next : UInt64} {l l' : Fin kMaxLevels}

/-- The source level is walked from the newest table to the oldest. -/
theorem mergeOrder_newest (hdisjoint : l ≠ 0 → (files l).Pairwise TableFile.Before) :
    (mergeOrder l (files l)).reverse.Pairwise fun f g => g.number ≤ f.number ∨ Apart f g := by
  rw [mergeOrder, List.reverse_reverse]
  split
  next => exact (pairwise_sorted (files l)).imp fun h => Or.inl (of_decide_eq_true h)
  next hl => exact (hdisjoint hl).imp fun h => Or.inr h.apart

/-- The source level decides the keys it has by its newest table. -/
theorem firstEntry_source (hnum : Numbered files next)
    (hdisjoint : l ≠ 0 → (files l).Pairwise TableFile.Before) {k : Bytes} {e : SSTableEntry} :
    firstEntry k (mergeOrder l (files l)).reverse = some e ↔ NewestOf (files l) e ∧ e.key = k :=
  firstEntry_eq_some_iff_newest (fun f => by rw [List.mem_reverse, mem_mergeOrder])
    (fun _ hf _ hg => List.inj_on_of_nodup_map (hnum.nodup l) hf hg) (mergeOrder_newest hdisjoint)

/-- The merged entries are those that decide their keys. -/
theorem mem_mergedEntries_iff (hnum : Numbered files next) (hl' : l' ≠ 0)
    (hdisjoint : ∀ l, l ≠ 0 → (files l).Pairwise TableFile.Before) {e : SSTableEntry} :
    e ∈ mergedEntries (mergeInputs files l l') ↔ Decides files l l' e := by
  have htarget : ∀ e' : SSTableEntry, firstEntry e.key (files l').reverse = some e' ↔
      e' ∈ entriesOf (files l') ∧ e'.key = e.key := fun e' =>
    firstEntry_eq_some_iff_mem (fun f => List.mem_reverse)
      ((hdisjoint l' hl').imp TableFile.Before.apart)
  have hnone : firstEntry e.key (mergeOrder l (files l)).reverse = none ↔
      ∀ e' ∈ entriesOf (files l), e'.key ≠ e.key := by
    rw [firstEntry_eq_none]
    refine forall_congr' fun e' => imp_congr_left ?_
    simp only [mem_entriesOf, List.mem_reverse, mem_mergeOrder]
  have hfirst : (mergeRuns (mergeInputs files l l'))[e.key]? =
      (firstEntry e.key (mergeOrder l (files l)).reverse).or
        (firstEntry e.key (files l').reverse) := by
    rw [getElem?_mergeRuns (mergeInputs_ascending files l l'), mergeInputs, ← List.map_reverse,
      List.reverse_append, List.map_append, List.findSome?_append]
    rfl
  rw [mem_mergedEntries, hfirst, Option.or_eq_some_iff,
    firstEntry_source hnum (hdisjoint l), hnone, htarget, Decides]
  exact or_congr (and_iff_left rfl) (and_comm.trans (and_congr_left fun _ => and_iff_left rfl))

/-- Every key of the two levels is decided. -/
theorem exists_decides (hnum : Numbered files next)
    (hdisjoint : l ≠ 0 → (files l).Pairwise TableFile.Before) {e : SSTableEntry}
    (he : e ∈ entriesOf (files l) ++ entriesOf (files l')) :
    ∃ e', e'.key = e.key ∧ Decides files l l' e' := by
  by_cases hkey : ∀ e' ∈ entriesOf (files l), e'.key ≠ e.key
  · rcases List.mem_append.mp he with he | he
    · exact absurd rfl (hkey e he)
    · exact ⟨e, rfl, Or.inr ⟨he, hkey⟩⟩
  · push Not at hkey
    obtain ⟨e₀, he₀, hk₀⟩ := hkey
    have hmem : e₀ ∈ entriesOf (mergeOrder l (files l)).reverse := by
      obtain ⟨f, hf, hef⟩ := mem_entriesOf.mp he₀
      exact mem_entriesOf.mpr ⟨f, List.mem_reverse.mpr (mem_mergeOrder.mpr hf), hef⟩
    obtain ⟨e₁, hfirst⟩ := exists_firstEntry hmem
    obtain ⟨hnewest, hk₁⟩ := (firstEntry_source hnum hdisjoint).mp (firstEntry_eq_some.mpr hfirst)
    exact ⟨e₁, hk₁.trans hk₀, Or.inl hnewest⟩

theorem mem_kept {dropTombstones : Bool} {es : List SSTableEntry} {e : SSTableEntry} :
    e ∈ kept dropTombstones es ↔ e ∈ es ∧ (dropTombstones = true → e.type ≠ .kDelete) := by
  cases dropTombstones with
  | false => simp [kept]
  | true => simp [kept]

theorem kept_sublist (dropTombstones : Bool) (es : List SSTableEntry) :
    (kept dropTombstones es).Sublist es := by
  rw [kept]
  split
  · exact List.filter_sublist
  · exact List.Sublist.refl es

end Newest

/-- The tables a compaction of `l` into `l'` leaves on `l'`. -/
structure Merged (files : Levels TableFile) (l l' : Fin kMaxLevels) (target : UInt64)
    (out : List TableFile) : Prop where
  ascending : KeyedRun.Ascending SSTableEntry.key (entriesOf out)
  entries : ∀ e, e ∈ entriesOf out ↔ Decides files l l' e ∧ (l' = 5 → e.type ≠ .kDelete)
  decided : ∀ e ∈ entriesOf (files l) ++ entriesOf (files l'),
    ∃ e', e'.key = e.key ∧ Decides files l l' e'
  cut : ∀ f ∈ out.dropLast, Cut target f.table.entries

section Aligned

variable {files : Levels TableFile} {w w' : World} {db : DB}

/-- Of the directory only the files of the tables count. -/
theorem Aligned.of_bytes {db' : DB} (h : Aligned files w db) (hpath : db'.dbPath = db.dbPath)
    (hlevels : db'.version.levels = db.version.levels) (hreaders : db'.openReaders = db.openReaders)
    (hw : ∀ l, ∀ f ∈ files l,
      w'.bytes (sstablePath db.dbPath f.number) = w.bytes (sstablePath db.dbPath f.number)) :
    Aligned files w' db' where
  version := by
    rw [hlevels]
    exact h.version
  readers := by
    rw [hpath, hreaders]
    exact h.readers
  stored := fun l f hf => by
    obtain ⟨data, hdata, hstored⟩ := h.stored l f hf
    rw [hpath]
    exact ⟨data, (hw l f hf).trans hdata, hstored⟩

theorem Aligned.fresh (ha : Aligned files w db) (hnum : Numbered files db.version.nextFileNumber)
    (hw : Fresh db.dbPath db.version.nextFileNumber w w') : Aligned files w' db :=
  ha.of_bytes rfl rfl rfl fun l f hf => hw.bytes_table (hnum.lt l f hf)

/-- Other tables on one level. -/
theorem Aligned.update (h : Aligned files w db) (l : Fin kMaxLevels) {tables : List TableFile}
    {readers : List SSTableReader}
    (hread : List.Forall₂ (TableFile.ReadIn · db.dbPath ·) tables readers)
    (hstored : ∀ f ∈ tables, f.StoredIn db.dbPath w) :
    Aligned (Function.update files l tables) w
      { db with
        version := db.version.setLevel l (tables.map TableFile.info)
        openReaders := Function.update db.openReaders l readers } := by
  refine ⟨fun l' => ?_, fun l' => ?_, fun l' f hf => ?_⟩
  · by_cases hl : l' = l
    · subst hl
      simp [Version.setLevel]
    · simp [Version.setLevel, hl, h.version]
  · by_cases hl : l' = l
    · subst hl
      simpa using hread
    · simpa [hl] using h.readers l'
  · by_cases hl : l' = l
    · subst hl
      rw [Function.update_self] at hf
      exact hstored f hf
    · rw [Function.update_of_ne hl] at hf
      exact h.stored l' f hf

/-- New tables in the place of two levels. -/
theorem Aligned.replace (h : Aligned files w db) (l l' : Fin kMaxLevels) {built : List TableFile}
    {out : Output} (hfiles : out.newFiles = built.map TableFile.info)
    (hread : List.Forall₂ (TableFile.ReadIn · db.dbPath ·) built out.newReaders)
    (hstored : ∀ f ∈ built, f.StoredIn db.dbPath w) :
    Aligned (Function.update (Function.update files l []) l' built) w (db.switch l l' out) := by
  have hcleared := h.update l List.Forall₂.nil fun f hf => absurd hf List.not_mem_nil
  have hreplaced := hcleared.update l' hread hstored
  rw [← hfiles] at hreplaced
  exact hreplaced

/-- Where the new tables are, and the old ones are gone, everything is aligned again. -/
theorem Aligned.switch {l l' : Fin kMaxLevels} {next : UInt64} {out : Output}
    {built : List TableFile} (ha : Aligned files w db)
    (hnum : Numbered files db.version.nextFileNumber) (hne : l ≠ l')
    (hout : Outputs db.dbPath db.version.nextFileNumber next w out built)
    (hw : ∀ n, n ∉ db.oldNumbers l l' →
      w'.bytes (sstablePath db.dbPath n) = w.bytes (sstablePath db.dbPath n)) :
    Aligned (Function.update (Function.update files l []) l' built) w'
      ((db.withNext next).switch l l' out) := by
  have hold : ∀ n, n ∈ db.oldNumbers l l' ↔
      ∃ f, (f ∈ files l ∨ f ∈ files l') ∧ f.number = n := by
    intro n
    rw [DB.oldNumbers, ha.version, ha.version, ← List.map_append, List.map_map, List.mem_map]
    simp only [List.mem_append, Function.comp_apply]
    rfl
  have hbase : Aligned files w (db.withNext next) := ha.of_bytes rfl rfl rfl fun _ _ _ => rfl
  have hreplaced : Aligned (Function.update (Function.update files l []) l' built) w
      ((db.withNext next).switch l l' out) :=
    hbase.replace l l' hout.files hout.readers hout.stored
  -- none of the new tables has one of the old numbers
  refine hreplaced.of_bytes rfl rfl rfl fun m f hf => hw _ fun hn => ?_
  obtain ⟨g, hg, heq⟩ := (hold _).mp hn
  by_cases hm' : m = l'
  · subst hm'
    rw [Function.update_self] at hf
    have hlt : g.number < db.version.nextFileNumber := hg.elim (hnum.lt _ g) (hnum.lt _ g)
    rw [heq] at hlt
    exact UInt64.lt_irrefl _ (UInt64.lt_of_lt_of_le hlt (hout.numbers f hf).1)
  · rw [Function.update_of_ne hm'] at hf
    by_cases hm : m = l
    · subst hm
      rw [Function.update_self] at hf
      cases hf
    · rw [Function.update_of_ne hm] at hf
      rcases hg with hg | hg
      · exact hm (hnum.distinct m l f hf g hg heq.symm)
      · exact hm' (hnum.distinct m l' f hf g hg heq.symm)

/-- A built table on top of L0. -/
theorem Aligned.pushL0 {t : Table} {n : UInt64} {fm : FileMetaData} {r : SSTableReader}
    (h : Aligned files w db) (hb : Built t db.dbPath n w fm r) :
    Aligned (Function.update files 0 (files 0 ++ [hb.file])) w (db.pushL0 fm r) := by
  have hpushed := h.update 0 (List.rel_append (h.readers 0) (List.Forall₂.cons hb.readIn
    List.Forall₂.nil)) fun f hf => ?_
  · rw [List.map_append, ← h.version] at hpushed
    exact hpushed
  · rcases List.mem_append.mp hf with hf | hf
    · exact h.stored 0 f hf
    · rw [List.mem_singleton.mp hf]
      exact hb.storedIn

end Aligned

/-- One run is merged into itself. -/
theorem mergedEntries_singleton {run : List SSTableEntry}
    (h : KeyedRun.Ascending SSTableEntry.key run) : mergedEntries [run] = run := by
  refine KeyedRun.ext_find (mergedEntries_ascending _) h fun k => ?_
  rw [mergedEntries, (mergeRuns_keyed _).find_values, getElem?_mergeRuns (by simpa using h)]
  simp only [List.reverse_singleton, List.findSome?_cons, List.findSome?_nil]
  cases KeyedRun.find SSTableEntry.key k run <;> rfl

/-- Where all runs have one entry for the same key, the last one wins. -/
theorem mergedEntries_oneKey {runs : List (List SSTableEntry)} {e : SSTableEntry}
    (h : ∀ run ∈ runs, ∃ e', run = [e'] ∧ e'.key = e.key) : mergedEntries (runs ++ [[e]]) = [e] := by
  have hasc : ∀ run ∈ runs ++ [[e]], KeyedRun.Ascending SSTableEntry.key run := by
    intro run hrun
    rcases List.mem_append.mp hrun with hrun | hrun
    · obtain ⟨e', rfl, -⟩ := h run hrun
      exact List.pairwise_singleton _ _
    · rw [List.mem_singleton.mp hrun]
      exact List.pairwise_singleton _ _
  refine KeyedRun.ext_find (mergedEntries_ascending _) (List.pairwise_singleton _ _) fun k => ?_
  rw [mergedEntries, (mergeRuns_keyed _).find_values, getElem?_mergeRuns hasc, List.reverse_append,
    List.reverse_singleton, List.singleton_append, List.findSome?_cons]
  cases hk : KeyedRun.find SSTableEntry.key k [e] with
  | some e' => rfl
  | none =>
      -- the other runs do not have the key either
      refine List.findSome?_eq_none_iff.mpr fun run hrun => ?_
      obtain ⟨e', rfl, hkey⟩ := h run (List.mem_reverse.mp hrun)
      rw [KeyedRun.find_eq_none_iff] at hk ⊢
      intro e'' he''
      rw [List.mem_singleton.mp he'', hkey]
      exact hk e List.mem_cons_self

/-- Two tables of L0 in the order of the merge. -/
theorem mergeOrder_pair (f g : TableFile) :
    mergeOrder 0 [f, g] = if g.number ≤ f.number then [g, f] else [f, g] := by
  rw [mergeOrder, if_pos rfl]
  by_cases h : g.number ≤ f.number
  · rw [if_pos h, List.mergeSort_of_pairwise]
    · rfl
    · simpa using h
  · simp [List.mergeSort, h, List.MergeSort.Internal.splitInTwo]

/-- A single entry that is kept and small makes one table. -/
theorem writeMerged_single {dropTombstones : Bool} {target : UInt64} {e : SSTableEntry}
    (db : DB) (out : Output) (hkeep : ¬(dropTombstones = true ∧ e.type = .kDelete))
    (hsmall : ¬(0 + UInt64.ofNat (e.key.length + e.value.length) ≥ target)) :
    writeMerged dropTombstones target [e] db out [] 0 = db.flushBatch out [e] := by
  rw [writeMerged, if_neg hkeep]
  simp only [if_neg hsmall]
  rw [writeMerged]
  rfl

/-- The table of one key and its value. -/
def oneEntry (key value : UInt8) : Table where
  entries := [⟨[key], .kPut, [value]⟩]
  nonempty := List.cons_ne_nil _ _
  ascending := List.pairwise_singleton _ _
  valid := by
    intro e he
    rw [List.mem_singleton.mp he]
    exact ⟨by simp, by simp, Or.inl rfl⟩

/-- Its record under a number. -/
def oneEntryFile (n : UInt64) (key value : UInt8) : TableFile where
  info := ⟨n, [key], [key], 0⟩
  table := oneEntry key value
  minKey_eq := rfl
  maxKey_eq := rfl

/-- The reader of a file without a filter. -/
def TableFile.reader (f : TableFile) (d : Path) : SSTableReader where
  path := sstablePath d f.number
  index := (layout 0 f.table.entries).2.map fun p => ⟨p.1, p.2⟩
  filter := []
  minKey := f.table.minKey
  maxKey := f.table.maxKey
  fileSize := (tableImage f.table.entries []).length

/-- A database with given tables, each in a file without a filter. -/
def sampleDB (files : Levels TableFile) (next : UInt64) : DB where
  dbPath := []
  options := {}
  version := ⟨fun l => (files l).map TableFile.info, next⟩
  openReaders := fun l => (files l).map fun f => f.reader []

/-- Its directory. -/
def sampleWorld (files : List TableFile) : World :=
  files.foldr (fun f w => w.put (sstablePath [] f.number)
    ⟨tableImage f.table.entries [], 0, Nat.zero_le _⟩) ⟨true, ∅⟩

theorem sampleWorld_bytes {files : List TableFile} (h : (files.map TableFile.number).Nodup)
    {f : TableFile} (hf : f ∈ files) :
    (sampleWorld files).bytes (sstablePath [] f.number) = some (tableImage f.table.entries []) := by
  induction files with
  | nil => cases hf
  | cons g files ih =>
      obtain ⟨hg, hfiles⟩ := List.nodup_cons.mp h
      rcases List.mem_cons.mp hf with rfl | hf
      · exact bytes_put_same _ _ _
      · have hne : f.number ≠ g.number := fun heq => hg (heq ▸ List.mem_map_of_mem hf)
        rw [← ih hfiles hf]
        exact (put_onlyAt _ _ _).bytes fun heq => hne (sstablePath_inj _ heq)

theorem sample_aligned {files : Levels TableFile} {all : List TableFile} {next : UInt64}
    (hall : ∀ l, ∀ f ∈ files l, f ∈ all) (hnodup : (all.map TableFile.number).Nodup)
    (hsize : ∀ f ∈ all, (tableImage f.table.entries []).length ≤ maxFileBytes) :
    Aligned files (sampleWorld all) (sampleDB files next) := by
  refine ⟨fun l => rfl, fun l => ?_, fun l f hf => ?_⟩
  · simp only [sampleDB]
    rw [List.forall₂_map_right_iff, List.forall₂_same]
    exact fun f _ => ⟨rfl, rfl, fun _ _ => rfl, rfl, rfl⟩
  · exact ⟨_, sampleWorld_bytes hnodup (hall l f hf), [], fun _ _ => rfl, rfl,
      hsize f (hall l f hf)⟩

/-- A table on L0 and one on the fourth level. -/
def twoTables : Levels TableFile := fun l =>
  if l = 0 then [oneEntryFile 1 0x61 0x78] else if l = 3 then [oneEntryFile 2 0x62 0x79] else []

theorem twoTables_aligned (next : UInt64) :
    Aligned twoTables (sampleWorld [oneEntryFile 1 0x61 0x78, oneEntryFile 2 0x62 0x79])
      (sampleDB twoTables next) := by
  refine sample_aligned (fun l f hf => ?_) (by decide) (by decide)
  rw [twoTables] at hf
  split at hf
  · rw [List.mem_singleton.mp hf]
    exact List.mem_cons_self
  · split at hf
    · rw [List.mem_singleton.mp hf]
      exact List.mem_cons_of_mem _ List.mem_cons_self
    · cases hf

theorem twoTables_disjoint (l : Fin kMaxLevels) : (twoTables l).Pairwise TableFile.Before := by
  rw [twoTables]
  split
  · exact List.pairwise_singleton _ _
  · split
    · exact List.pairwise_singleton _ _
    · exact List.Pairwise.nil

theorem twoTables_numbered : Numbered twoTables 3 where
  lt := by decide
  distinct := by decide
  nodup := by decide

/-- A compaction whose merge is a single small entry, where every execution exists. -/
theorem wp_compactLocked_single {files : Levels TableFile} {w : World} {db : DB} {b : Nat}
    {l l' : Fin kMaxLevels} {t : Table} {e : SSTableEntry} {filter : Bytes}
    {Q : Status × DB → World → Nat → Prop} {C : World → Nat → Prop}
    (ha : Aligned files w db) (hl : l'.val = l.val + 1) (ht : t.entries = [e])
    (hmerged : mergedEntries (mergeInputs files l l') = t.entries) (htype : e.type = .kPut)
    (hsmall : e.key.length + e.value.length < 2 ^ 21) (hheld : db.held < maxOpenFiles)
    (hfilter : BloomFilter.build (t.entries.map SSTableEntry.key) db.options.bloomBitsPerKey =
      some filter)
    (hfit : (tableImage t.entries filter).length ≤ maxFileBytes)
    (hinstall : ∀ fm r w' b', b = b' + 1 →
      OnlyAt (sstablePath db.dbPath db.version.nextFileNumber) w w' →
      Built t db.dbPath db.version.nextFileNumber w' fm r →
      wp Env.sure ((db.withNext (db.version.nextFileNumber + 1)).installOutput l l' ⟨[fm], [r]⟩)
        Q C w' b') :
    wp Env.sure (db.compactLocked l) Q C w b := by
  have hkeep : ¬((l.val + 1 == kMaxLevels - 1) = true ∧ e.type = .kDelete) := by
    rw [htype]
    exact fun h => absurd h.2 (by decide)
  have hbelow : ¬(0 + UInt64.ofNat (e.key.length + e.value.length) ≥ db.targetFileBytes) := by
    have hle := db.targetFileBytes_ge
    have hk : kMinCompactionOutputFileBytes.toNat = 2 ^ 21 := by decide
    rw [UInt64.zero_add, ge_iff_le, UInt64.le_iff_toNat_le, UInt64.toNat_ofNat',
      Nat.mod_eq_of_lt (by omega)]
    omega
  have hsingle : writeMerged (l.val + 1 == kMaxLevels - 1) db.targetFileBytes [e] db {} [] 0 =
      db.flushBatch {} [e] := writeMerged_single db {} hkeep hbelow
  refine wp_compactLocked_merged ha hl (fun hc => hc.elim) (fun hf => hf.elim) ?_
  rw [hmerged, ht, hsingle, ← ht, flushBatch, if_neg t.nonempty]
  refine wp_bind (wp_bind (wp_buildTable_onlyAt (Or.inr ⟨hheld, filter, hfilter, hfit⟩)
    (fun hc => ?_) (fun hf => hf.elim) fun fm r w' b' hb hw' hbuilt _ => ?_))
  · rw [hfilter] at hc
    exact absurd hc (by simp [Env.sure])
  · refine wp_pure ?_
    simp only [Status.ok_OK, Bool.not_true, Bool.false_eq_true, if_false]
    exact hinstall fm r w' b' hb hw' hbuilt

/-- A file of the new version is a new one or one of the old version. -/
theorem mem_switch_levels {db : DB} {l l' m : Fin kMaxLevels} {out : Output} {fm : FileMetaData}
    (h : fm ∈ (db.switch l l' out).version.levels m) : fm ∈ out.newFiles ∨ fm ∈ db.version.levels m := by
  simp only [DB.switch, Version.setLevel] at h
  by_cases hm' : m = l'
  · subst hm'
    rw [Function.update_self] at h
    exact Or.inl h
  · rw [Function.update_of_ne hm'] at h
    by_cases hm : m = l
    · subst hm
      rw [Function.update_self] at h
      cases h
    · rw [Function.update_of_ne hm] at h
      exact Or.inr h

end ClomDB
