import ClomDB.Layout

/-!
# The orphan sweep

`Open` removes the tables that the manifest does not name. It tells them by
their path strings, which the two sides of the comparison spell differently
when the path of the database ends with a separator.
-/

namespace ClomDB.DB

open FaultProgram FileSystem FileSystem.World

/-- The entry is the file of a table in the version. -/
def Live (db : DB) (name : Bytes) : Prop :=
  ∃ p ∈ db.livePaths, canonical (appendPath db.dbPath name) = canonical p

theorem mem_livePaths {db : DB} {p : Path} : p ∈ db.livePaths ↔
    ∃ lvl, ∃ fm ∈ db.version.levels lvl, p = sstablePath db.dbPath fm.number := by
  simp only [livePaths, List.mem_flatMap, List.mem_finRange, true_and, List.mem_map, eq_comm]

theorem live_iff {db : DB} {name : Bytes} (hname : separator ∉ name) : db.Live name ↔
    ∃ lvl, ∃ fm ∈ db.version.levels lvl, name = sstName fm.number := by
  have hpath : ∀ n, canonical (appendPath db.dbPath name) = canonical (sstablePath db.dbPath n) ↔
      name = sstName n := fun n => by
    rw [canonical_appendPath _ hname, sstablePath,
      canonical_dbFile_inj hname (separator_notMem_sstName n)]
  constructor
  · rintro ⟨p, hp, heq⟩
    obtain ⟨lvl, fm, hfm, rfl⟩ := mem_livePaths.mp hp
    exact ⟨lvl, fm, hfm, (hpath _).mp heq⟩
  · rintro ⟨lvl, fm, hfm, heq⟩
    exact ⟨_, mem_livePaths.mpr ⟨lvl, fm, hfm, rfl⟩, (hpath _).mpr heq⟩

/-- A table's name has the extension the sweep looks for. -/
theorem extension_sstName (n : UInt64) : extension (sstName n) = sstExtension := by
  have hlen : 0 < (zeroPad n).length := List.length_pos_iff.mpr (zeroPad_ne_nil n)
  have hdot : ∀ c ∈ zeroPad n, c ≠ 0x2e := fun c hc h => by
    rw [h] at hc
    exact absurd (mem_zeroPad hc).1 (by decide)
  have hname : sstName n = zeroPad n ++ [0x2e] ++ [0x73, 0x73, 0x74] := by
    rw [List.append_assoc]
    rfl
  have hstem : ((sstName n).reverse.dropWhile (· ≠ 0x2e)).reverse = zeroPad n ++ [0x2e] := by
    rw [hname, List.reverse_append, List.reverse_append]
    simp
  rw [extension, if_neg fun h => ?_]
  · simp only [hstem]
    rw [if_neg (by rw [List.length_append, List.length_singleton]; omega), hname,
      List.drop_left]
    rfl
  · have : (sstName n).length ≤ 2 := by
      rcases h with h | h <;> rw [h] <;> simp
    rw [hname] at this
    simp at this

/-- Without a separator at the end of the path, the sweep selects the tables
that are not live. -/
theorem sweepSelects_iff {db : DB} (hpath : db.dbPath.getLast? ≠ some separator) {name : Bytes}
    (hname : separator ∉ name) :
    db.sweepSelects name = true ↔ extension name = sstExtension ∧ ¬db.Live name := by
  have hsame : appendPath db.dbPath name ∈ db.livePaths ↔ db.Live name := by
    rw [live_iff hname, mem_livePaths, appendPath, if_neg hpath]
    refine exists_congr fun lvl => exists_congr fun fm => and_congr_right fun _ => ?_
    rw [sstablePath, dbFile, List.append_right_inj, List.cons_inj_right]
  rw [sweepSelects, decide_eq_true_iff, hsame]

/-- With one, it selects every table. -/
theorem sweepSelects_of_separator {db : DB} (hpath : db.dbPath.getLast? = some separator)
    {name : Bytes} (hname : separator ∉ name) (hext : extension name = sstExtension) :
    db.sweepSelects name = true := by
  refine decide_eq_true ⟨hext, fun hmem => ?_⟩
  obtain ⟨lvl, fm, -, heq⟩ := mem_livePaths.mp hmem
  rw [appendPath, if_pos hpath, sstablePath, dbFile, List.append_right_inj] at heq
  exact hname (by rw [heq]; exact List.mem_cons_self)

/-- What a sweep over some names does: selected files may go. -/
structure Swept (db : DB) (names : List Bytes) (w w' : World) : Prop where
  directory : w'.directory = w.directory
  file : ∀ q, w'.file q = w.file q ∨ w'.file q = none ∧ ∃ name ∈ names,
    db.sweepSelects name = true ∧ canonical q = canonical (appendPath db.dbPath name)

section Sweeping

variable {E : Env} {C : World → Nat → Prop} {db : DB} {names : List Bytes} {w w' w'' : World}
  {b : Nat}

theorem Swept.refl (db : DB) (names : List Bytes) (w : World) : db.Swept names w w :=
  ⟨rfl, fun _ => Or.inl rfl⟩

theorem Swept.cons (h : db.Swept names w w') (name : Bytes) : db.Swept (name :: names) w w' :=
  ⟨h.directory, fun q => (h.file q).imp_right fun ⟨hq, n, hn, hs⟩ =>
    ⟨hq, n, List.mem_cons_of_mem _ hn, hs⟩⟩

theorem Swept.delete {name : Bytes} (hs : db.sweepSelects name = true)
    (h : db.Swept names (w.delete (appendPath db.dbPath name)) w') :
    db.Swept (name :: names) w w' := by
  refine ⟨h.directory, fun q => ?_⟩
  by_cases hq : canonical q = canonical (appendPath db.dbPath name)
  · refine Or.inr ⟨?_, name, List.mem_cons_self, hs, hq⟩
    rcases h.file q with hw | ⟨hw, -⟩
    · rw [hw, file_delete, if_pos hq]
    · exact hw
  · rcases h.file q with hw | ⟨hw, n, hn, hsel⟩
    · exact Or.inl (hw.trans (file_delete_of_ne hq))
    · exact Or.inr ⟨hw, n, List.mem_cons_of_mem _ hn, hsel⟩

/-- A sweep leaves the files alone that are not tables. -/
theorem Swept.bytes_other (h : db.Swept names w w') (hnames : ∀ n ∈ names, separator ∉ n)
    {name : Bytes} (hname : separator ∉ name) (hext : extension name ≠ sstExtension) :
    w'.bytes (dbFile db.dbPath name) = w.bytes (dbFile db.dbPath name) := by
  rcases h.file (dbFile db.dbPath name) with hsame | ⟨-, n, hn, hs, heq⟩
  · rw [World.bytes, World.bytes, hsame]
  · rw [canonical_appendPath _ (hnames n hn), canonical_dbFile_inj hname (hnames n hn)] at heq
    subst heq
    exact absurd (of_decide_eq_true hs).1 hext

/-- A sweep leaves the tables of the version alone when the path does not end
with a separator. -/
theorem Swept.bytes_live (h : db.Swept names w w') (hnames : ∀ n ∈ names, separator ∉ n)
    (hpath : db.dbPath.getLast? ≠ some separator) {lvl : Fin kMaxLevels} {fm : FileMetaData}
    (hfm : fm ∈ db.version.levels lvl) :
    w'.bytes (sstablePath db.dbPath fm.number) = w.bytes (sstablePath db.dbPath fm.number) := by
  rcases h.file (sstablePath db.dbPath fm.number) with hsame | ⟨-, n, hn, hs, heq⟩
  · rw [World.bytes, World.bytes, hsame]
  · have hnsep := hnames n hn
    rw [canonical_appendPath _ hnsep, sstablePath,
      canonical_dbFile_inj (separator_notMem_sstName _) hnsep] at heq
    subst heq
    exact absurd ((live_iff hnsep).mpr ⟨lvl, fm, hfm, rfl⟩)
      ((sweepSelects_iff hpath hnsep).mp hs).2

/-- Files that are gone stay gone. -/
theorem Swept.file_eq_none (h : db.Swept names w w') {q : Path} (hq : w.file q = none) :
    w'.file q = none :=
  (h.file q).elim (fun hw => hw.trans hq) And.left

theorem wp_sweepLoop {Q : Unit → World → Nat → Prop}
    (hQ : ∀ w', db.Swept names w w' → (E.fails ∨ ∀ name ∈ names, db.sweepSelects name = true →
      w'.file (appendPath db.dbPath name) = none) → Q () w' b)
    (hC : E.crashes → ∀ w', db.Swept names w w' → C w' b) :
    wp E (db.sweepLoop names) Q C w b := by
  induction names generalizing w Q with
  | nil => exact wp_pure (hQ w (.refl _ _ _) (Or.inr (by simp)))
  | cons name names ih =>
      rw [sweepLoop]
      by_cases hs : db.sweepSelects name = true
      · rw [if_pos hs]
        refine wp_bind (wp_remove (ih (fun w' hw' hgone => hQ w' (hw'.delete hs) ?_)
          fun hc w' hw' => hC hc w' (hw'.delete hs)) (fun hf => ?_) fun hc => ?_)
        · refine hgone.imp_right fun h => List.forall_mem_cons.mpr ⟨fun _ => ?_, h⟩
          exact hw'.file_eq_none (file_delete_same _ _)
        · exact ih (fun w' hw' _ => hQ w' (hw'.cons name) (Or.inl hf))
            fun hc w' hw' => hC hc w' (hw'.cons name)
        · exact ⟨hC hc w (.refl _ _ _), hC hc _ (Swept.delete hs (.refl _ _ _))⟩
      · rw [if_neg hs]
        refine ih (fun w' hw' hgone => hQ w' (hw'.cons name) (hgone.imp_right fun h => ?_))
          fun hc w' hw' => hC hc w' (hw'.cons name)
        exact List.forall_mem_cons.mpr ⟨fun h' => absurd h' hs, h⟩

/-- A sweep removes selected entries of the directory, and nothing else. -/
theorem wp_sweep {Q : Unit → World → Nat → Prop}
    (hQ : ∀ w', db.Swept (w.entries db.dbPath) w w' → (E.fails ∨ w.directory = false ∨
      ∀ name ∈ w.entries db.dbPath, db.sweepSelects name = true →
        w'.file (appendPath db.dbPath name) = none) → Q () w' b)
    (hC : E.crashes → ∀ w', db.Swept (w.entries db.dbPath) w w' → C w' b) :
    wp E db.sweep Q C w b := by
  have hlist : Observes E directoryExists (fun r => r = w.directory ∨ E.fails) w :=
    Observes.probe (Or.inl rfl) fun hf _ => Or.inr hf
  have hnames : Observes E (directoryIterator db.dbPath)
      (fun r => r = w.entries db.dbPath ∨ E.fails ∧ r = []) w :=
    Observes.probe (Or.inl rfl) fun hf _ => Or.inr ⟨hf, rfl⟩
  have hcrash : E.crashes → C w b := fun hc => hC hc w (.refl _ _ _)
  rw [sweep]
  refine wp_observes hlist hcrash fun listed hl => ?_
  cases listed with
  | false => exact wp_pure (hQ w (.refl _ _ _) (hl.elim (fun h => Or.inr (Or.inl h.symm)) Or.inl))
  | true =>
      refine wp_observes hnames hcrash fun r hr => ?_
      rcases hr with rfl | ⟨hf, rfl⟩
      · exact wp_sweepLoop (fun w' hw' hgone => hQ w' hw' (hgone.imp_right Or.inr)) hC
      · exact wp_pure (hQ w (.refl _ _ _) (Or.inl hf))

end Sweeping

/-- What the sweep is for: of the entries that are tables, exactly the live ones stay. -/
def KeepsLive (db : DB) (w w' : World) : Prop :=
  ∀ name ∈ w.entries db.dbPath,
    (db.Live name → w'.file (appendPath db.dbPath name) = w.file (appendPath db.dbPath name)) ∧
    (¬db.Live name → extension name = sstExtension →
      w'.file (appendPath db.dbPath name) = none)

section Live

variable {db : DB} {w w' : World}

theorem live_extension {name : Bytes} (hname : separator ∉ name) (h : db.Live name) :
    extension name = sstExtension := by
  obtain ⟨_, _, _, rfl⟩ := (live_iff hname).mp h
  exact extension_sstName _

theorem Swept.keepsLive (hpath : db.dbPath.getLast? ≠ some separator)
    (h : db.Swept (w.entries db.dbPath) w w')
    (hgone : ∀ name ∈ w.entries db.dbPath, db.sweepSelects name = true →
      w'.file (appendPath db.dbPath name) = none) : db.KeepsLive w w' := by
  intro name hname
  have hsep := (mem_entries_iff.mp hname).2.1
  refine ⟨fun hlive => ?_, fun hdead hext =>
    hgone name hname ((sweepSelects_iff hpath hsep).mpr ⟨hext, hdead⟩)⟩
  rcases h.file (appendPath db.dbPath name) with hw | ⟨-, n, hn, hs, heq⟩
  · exact hw
  · have hnsep := (mem_entries_iff.mp hn).2.1
    rw [canonical_appendPath _ hsep, canonical_appendPath _ hnsep,
      canonical_dbFile_inj hsep hnsep] at heq
    subst heq
    exact absurd hlive ((sweepSelects_iff hpath hsep).mp hs).2

/-- Every live table is lost when the path ends with a separator. -/
theorem not_keepsLive (hpath : db.dbPath.getLast? = some separator)
    (hgone : ∀ name ∈ w.entries db.dbPath, db.sweepSelects name = true →
      w'.file (appendPath db.dbPath name) = none)
    {name : Bytes} (hname : name ∈ w.entries db.dbPath) (hlive : db.Live name) :
    ¬db.KeepsLive w w' := by
  obtain ⟨-, hsep, hfile⟩ := mem_entries_iff.mp hname
  intro h
  have hkept := (h name hname).1 hlive
  rw [hgone name hname (sweepSelects_of_separator hpath hsep (live_extension hsep hlive))] at hkept
  refine hfile ?_
  rw [World.file, ← canonical_appendPath _ hsep]
  exact hkept.symm

end Live

/-- The sweep keeps the live tables and removes the others, exactly when the
path of the database does not end with a separator or no table is live. -/
theorem sweep_keepsLive_iff (db : DB) {w : World} (hw : w.directory = true) (b : Nat) :
    wp Env.sure db.sweep (fun _ w' _ => db.KeepsLive w w' ↔
      db.dbPath.getLast? ≠ some separator ∨ ∀ name ∈ w.entries db.dbPath, ¬db.Live name)
      (fun _ _ => False) w b := by
  refine wp_sweep (fun w' hswept hgone => ?_) fun hc => hc.elim
  have hall := (hgone.resolve_left id).resolve_left (by rw [hw]; decide)
  by_cases hpath : db.dbPath.getLast? = some separator
  · constructor
    · exact fun h => Or.inr fun name hname hlive => not_keepsLive hpath hall hname hlive h
    · rintro (h | h)
      · exact absurd hpath h
      · refine fun name hname => ⟨fun hlive => absurd hlive (h name hname), fun _ hext => ?_⟩
        exact hall name hname
          (sweepSelects_of_separator hpath (mem_entries_iff.mp hname).2.1 hext)
  · exact ⟨fun _ => Or.inl hpath, fun _ => hswept.keepsLive hpath hall⟩

/-- A database with one table, below a given path. -/
def oneTable (dbPath : Path) : DB :=
  { dbPath := dbPath, options := {}
    version := ⟨Function.update (fun _ => []) 0 [⟨1, [], [], 0⟩], 2⟩ }

/-- A directory that holds the file of the table with number 1. -/
def oneFile (dbPath : Path) : World := World.put ⟨true, ∅⟩ (sstablePath dbPath 1) .empty

theorem sweep_keepsLive_iff_oneFile :
    wp Env.sure (oneTable [0x61]).sweep (fun _ w' _ => (oneTable [0x61]).KeepsLive (oneFile [0x61]) w' ↔
      (oneTable [0x61]).dbPath.getLast? ≠ some separator ∨
        ∀ name ∈ (oneFile [0x61]).entries [0x61], ¬(oneTable [0x61]).Live name)
      (fun _ _ => False) (oneFile [0x61]) 0 :=
  sweep_keepsLive_iff (oneTable [0x61]) rfl 0

/-- Below a path with a separator at its end the sweep removes a live table. -/
theorem sweep_removes_live :
    ¬∀ (db : DB) (w : World) (b : Nat), w.directory = true →
      wp Env.sure db.sweep (fun _ w' _ => db.KeepsLive w w') (fun _ _ => False) w b := by
  intro h
  have hwp : ∀ b, wp Env.sure (oneTable [0x61, separator]).sweep
      (fun _ w' _ => ¬(oneTable [0x61, separator]).KeepsLive (oneFile [0x61, separator]) w')
      (fun _ _ => False) (oneFile [0x61, separator]) b := by
    refine fun b => wp_sweep (fun w' _ hgone => ?_) fun hc => hc.elim
    have hall := (hgone.resolve_left id).resolve_left (by decide)
    have hentry : sstName 1 ∈ (oneFile [0x61, separator]).entries [0x61, separator] :=
      mem_entries_iff.mpr ⟨by decide, separator_notMem_sstName 1,
        by rw [oneFile]; exact ne_of_eq_of_ne (file_put_same _ _ _) (by simp)⟩
    exact not_keepsLive (by decide) hall hentry ((live_iff (separator_notMem_sstName 1)).mpr
      ⟨0, ⟨1, [], [], 0⟩, by simp [oneTable], rfl⟩)
  obtain ⟨a, w', rest, t, hrun, hlost⟩ := wp.returns hwp
  exact hlost ((h _ _ t rfl).of_returned (Env.admits_nil _) hrun (Nat.le_refl t))

end ClomDB.DB
