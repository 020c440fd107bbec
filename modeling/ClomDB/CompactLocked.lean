import ClomDB.Compaction

/-!
# Compactions and the invariant

A compaction keeps the invariant, whatever fails and wherever the process
dies, and so does the loop that compacts while a level is too large. Every
round of the loop moves tables one level down, so the loop ends.
-/

namespace ClomDB

open FaultProgram FileSystem FileSystem.World LayeredMap SSTable DB

variable {E : Env} {C : World → Nat → Prop} {w : World} {b : Nat} {db : DB}
  {c? : Option Content} {tree disk : Tree}

theorem Holds.aligned (h : Holds tree disk w db b) : Aligned tree.levels w db where
  version := fun l => by rw [h.version]; rfl
  readers := h.readers
  stored := h.stored

namespace Tree

/-- Sorting L0 with the highest number first turns its listing round. -/
theorem sorted_newest (t : Tree) :
    ((t.levels 0).mergeSort fun f g => decide (g.number ≤ f.number)) = (t.levels 0).reverse := by
  have hsorted : (t.levels 0).reverse.Pairwise fun f g => decide (g.number ≤ f.number) = true :=
    List.pairwise_reverse.mpr (t.recent.imp fun h => decide_eq_true (UInt64.le_of_lt h))
  refine List.Perm.eq_of_pairwise (fun f g hf hg hfg hgf => ?_)
    (pairwise_sorted _) hsorted
    ((List.mergeSort_perm _ _).trans (List.reverse_perm _).symm)
  exact List.inj_on_of_nodup_map (t.nodup 0) (List.mem_mergeSort.mp hf)
    (List.mem_reverse.mp hg)
    (UInt64.le_antisymm (of_decide_eq_true hgf) (of_decide_eq_true hfg))

/-- L0 is listed with the lowest number first. -/
theorem sorted_oldest (t : Tree) :
    ((t.levels 0).mergeSort fun f g => decide (f.number ≤ g.number)) = t.levels 0 :=
  List.mergeSort_of_pairwise (t.recent.imp fun h => decide_eq_true (UInt64.le_of_lt h))

/-- On L0 the tables are listed in the order of the merge. -/
theorem mergeOrder_eq (t : Tree) (l : Fin kMaxLevels) :
    mergeOrder l (t.levels l) = (readOrder l (t.levels l)).reverse := by
  rw [mergeOrder, readOrder]
  split
  next h =>
    subst h
    rw [t.sorted_newest]
  next => rfl

theorem outputEntries_eq (t : Tree) (l l' : Fin kMaxLevels) :
    outputEntries t.levels l l' = t.compactionEntries l l' := by
  have h5 : (l'.val == kMaxLevels - 1) = decide (l' = 5) := by
    rw [Bool.eq_iff_iff, beq_iff_eq, decide_eq_true_iff, Fin.ext_iff]
    rfl
  rw [outputEntries, mergeInputs, t.mergeOrder_eq, compactionEntries, compactionRuns, h5, kept]
  by_cases hl : l' = 5
  · rw [if_pos hl, if_pos (decide_eq_true hl)]
  · rw [if_neg hl, if_neg (by simpa using hl)]

end Tree

theorem DB.oldNumbers_eq (h : db.version = tree.version) (l l' : Fin kMaxLevels) :
    db.oldNumbers l l' = (tree.levels l ++ tree.levels l').map TableFile.number := by
  rw [DB.oldNumbers, h]
  simp only [Tree.version, ← List.map_append, List.map_map]
  rfl

/-- The output tables in place of the two levels change nothing. -/
theorem InvOn.switch {l l' : Fin kMaxLevels} {next : UInt64} {out : Output}
    {built : List TableFile} {b' : Nat} (h : InvOn c? tree disk w db b)
    (hl : l'.val = l.val + 1) (hnext : tree.next ≤ next) (hbudget : next.toNat + b' < 2 ^ 64)
    (hout : Outputs db.dbPath tree.next next w out built)
    (hentries : entriesOf built = tree.compactionEntries l l') :
    ∃ tree', tree'.levels = tree.replacedLevels l l' built ∧ tree'.next = next ∧
      view tree'.layer = view tree.layer ∧
      InvOn c? tree' disk w ((db.withNext next).switch l l' out) b' := by
  obtain ⟨hh, hr⟩ := h
  have hl0 : l' ≠ 0 := fun h => by rw [h] at hl; exact absurd hl (by simp)
  have hnodup : (built.map TableFile.number).Nodup :=
    List.pairwise_map.mpr (hout.increasing.imp UInt64.ne_of_lt)
  have hdisjoint : built.Pairwise TableFile.Before :=
    pairwise_before (hentries ▸ tree.compactionEntries_ascending l l')
  have hbottom : l' = 5 → ∀ f ∈ built, ∀ e ∈ f.table.entries, e.type ≠ .kDelete := by
    intro h5 f hf e he
    have hmem : e ∈ entriesOf built := List.mem_flatMap.mpr ⟨f, hf, he⟩
    exact (Tree.mem_compactionEntries (hentries ▸ hmem)).2 h5
  let tree' := tree.replace l l' built next hl0 hnext hout.numbers hnodup hdisjoint hbottom
    hout.sized
  have hview : view tree'.layer = view tree.layer := tree.replacedLevels_view hl hentries
  refine ⟨tree', rfl, rfl, hview, ?_, fun c hc => ?_⟩
  · refine ⟨?_, fun m => ?_, fun m f hf => ?_, hh.onDisk, UInt64.le_trans hh.next_le hnext,
      hbudget, hh.short, hh.wal⟩
    · simp only [DB.switch, DB.withNext, Version.setLevel, hh.version, Tree.version, tree',
        Tree.replace]
      congr 1
      funext m
      by_cases hm' : m = l'
      · subst hm'
        rw [Function.update_self, Tree.replacedLevels_target, hout.files]
      · by_cases hm : m = l
        · subst hm
          rw [Function.update_of_ne hm', Function.update_self, Tree.replacedLevels_source hm']
          rfl
        · rw [Function.update_of_ne hm', Function.update_of_ne hm,
            Tree.replacedLevels_other hm hm']
    · by_cases hm' : m = l'
      · subst hm'
        simp only [DB.switch, Function.update_self, tree', Tree.replace,
          Tree.replacedLevels_target]
        exact hout.readers
      · by_cases hm : m = l
        · subst hm
          simp only [DB.switch, Function.update_of_ne hm', Function.update_self, tree',
            Tree.replace, Tree.replacedLevels_source hm']
          exact List.Forall₂.nil
        · simp only [DB.switch, Function.update_of_ne hm', Function.update_of_ne hm, tree',
            Tree.replace, Tree.replacedLevels_other hm hm']
          exact hh.readers m
    · by_cases hm' : m = l'
      · subst hm'
        simp only [tree', Tree.replace, Tree.replacedLevels_target] at hf
        exact hout.stored f hf
      · exact hh.stored m f (Tree.mem_of_mem_replacedLevels hm' hf)
  · obtain ⟨recs, hlog, hs⟩ := hr c hc
    exact ⟨recs, hlog, hs.replace hview⟩

/-- In a settled database the files of tables that are not in the tree may go. -/
theorem InvOn.removed {numbers : List UInt64} {w' : World} (h : Settled c? tree w db b)
    (hnumbers : ∀ l, ∀ f ∈ tree.levels l, f.number ∉ numbers)
    (hw : Removed db.dbPath numbers w w') : Settled c? tree w' db b := by
  obtain ⟨hh, hr⟩ := h
  have hstored : tree.StoredIn db.dbPath w' := hh.stored.congr fun l f hf =>
    hw.bytes_table (hnumbers l f hf)
  refine ⟨{ hh with
    stored := hstored
    onDisk := ⟨?_, hstored⟩
    wal := by rw [WalOf, hw.bytes_wal]; exact hh.wal }, by rwa [hw.bytes_wal]⟩
  rw [hw.bytes_manifest]
  exact hh.onDisk.manifest

/-- The tables that stay have other numbers than those that are replaced. -/
theorem Tree.replaced_number {l l' : Fin kMaxLevels} {built : List TableFile} {tree' : Tree}
    (hlevels : tree'.levels = tree.replacedLevels l l' built)
    (hbuilt : ∀ f ∈ built, tree.next ≤ f.number) :
    ∀ m, ∀ f ∈ tree'.levels m,
      f.number ∉ (tree.levels l ++ tree.levels l').map TableFile.number := by
  intro m f hf hn
  obtain ⟨g, hg, heq⟩ := List.mem_map.mp hn
  rw [hlevels] at hf
  by_cases hm' : m = l'
  · subst hm'
    rw [replacedLevels_target] at hf
    have hlt : g.number < tree.next :=
      (List.mem_append.mp hg).elim (tree.number_lt _ g) (tree.number_lt _ g)
    rw [heq] at hlt
    exact UInt64.lt_irrefl _ (UInt64.lt_of_lt_of_le hlt (hbuilt f hf))
  · have hold := mem_of_mem_replacedLevels hm' hf
    rcases List.mem_append.mp hg with hg | hg
    · have hm := tree.distinct m l f hold g hg heq.symm
      subst hm
      rw [replacedLevels_source hm'] at hf
      cases hf
    · exact hm' (tree.distinct m l' f hold g hg heq.symm)

/-- What a section that only moves tables has done when it returns. -/
structure Moved (tree disk : Tree) (w : World) (db : DB) (s : Status) (tree' disk' : Tree)
    (w' : World) (db' : DB) : Prop where
  shell : SameShell db db'
  memtable : db'.memtable = db.memtable
  wal : db'.wal = db.wal
  log : w'.bytes (walPath db.dbPath) = w.bytes (walPath db.dbPath)
  size_le : tree'.size ≤ tree.size
  next_le : tree.next ≤ tree'.next
  view : view tree'.layer = view tree.layer
  top : tree'.levels 0 = tree.levels 0 ∨ tree'.levels 0 = []
  settled : s.ok = true → disk = tree → disk' = tree'

namespace Moved

variable {tree' disk' tree'' disk'' : Tree} {w w' w'' : World} {db' db'' : DB} {s s' : Status}

theorem refl (tree disk : Tree) (w : World) (db : DB) (s : Status) :
    Moved tree disk w db s tree disk w db :=
  ⟨SameShell.refl db, rfl, rfl, rfl, Nat.le_refl _, UInt64.le_refl _, rfl, Or.inl rfl, fun _ h => h⟩

theorem trans (h : Moved tree disk w db s tree' disk' w' db') (hs : s.ok = true)
    (h' : Moved tree' disk' w' db' s' tree'' disk'' w'' db'') :
    Moved tree disk w db s' tree'' disk'' w'' db'' := by
  have hlog := h'.log
  rw [h.shell.dbPath] at hlog
  refine ⟨h.shell.trans h'.shell, h'.memtable.trans h.memtable, h'.wal.trans h.wal,
    hlog.trans h.log, h'.size_le.trans h.size_le,
    UInt64.le_trans h.next_le h'.next_le, h'.view.trans h.view, ?_,
    fun hs' hd => h'.settled hs' (h.settled hs hd)⟩
  rcases h'.top with htop | htop
  · rw [htop]
    exact h.top
  · exact Or.inr htop

end Moved

/-- The output tables bring no more entries than the two levels had. -/
theorem Tree.size_replaced {l l' : Fin kMaxLevels} {built : List TableFile} {tree' : Tree}
    (hl : l'.val = l.val + 1) (hlevels : tree'.levels = tree.replacedLevels l l' built)
    (hbuilt : (entriesOf built).length ≤
      (entriesOf (tree.levels l')).length + (entriesOf (tree.levels l)).length) :
    tree'.size ≤ tree.size := by
  have hll : l ≠ l' := fun h => by rw [h] at hl; omega
  have hsource : tree'.levels l = [] := by rw [hlevels, replacedLevels_source hll]
  have htarget : tree'.levels l' = built := by rw [hlevels, replacedLevels_target]
  have hother : ∀ m, m ≠ l → m ≠ l' → tree'.levels m = tree.levels m := fun m hm hm' => by
    rw [hlevels, replacedLevels_other hm hm']
  have hnil : (entriesOf []).length = 0 := rfl
  rw [size, size, sum_levels, sum_levels]
  rcases neighbours hl with ⟨rfl, rfl⟩ | ⟨rfl, rfl⟩ | ⟨rfl, rfl⟩ | ⟨rfl, rfl⟩ | ⟨rfl, rfl⟩
  · rw [hsource, htarget, hnil, hother 2 (by decide) (by decide), hother 3 (by decide) (by decide),
      hother 4 (by decide) (by decide), hother 5 (by decide) (by decide)]
    omega
  · rw [hsource, htarget, hnil, hother 0 (by decide) (by decide), hother 3 (by decide) (by decide),
      hother 4 (by decide) (by decide), hother 5 (by decide) (by decide)]
    omega
  · rw [hsource, htarget, hnil, hother 0 (by decide) (by decide), hother 1 (by decide) (by decide),
      hother 4 (by decide) (by decide), hother 5 (by decide) (by decide)]
    omega
  · rw [hsource, htarget, hnil, hother 0 (by decide) (by decide), hother 1 (by decide) (by decide),
      hother 2 (by decide) (by decide), hother 5 (by decide) (by decide)]
    omega
  · rw [hsource, htarget, hnil, hother 0 (by decide) (by decide), hother 1 (by decide) (by decide),
      hother 2 (by decide) (by decide), hother 3 (by decide) (by decide)]
    omega

/-- The entries of two neighbouring levels are entries of the tree. -/
theorem Tree.two_levels_le (t : Tree) {l l' : Fin kMaxLevels} (hl : l'.val = l.val + 1) :
    (entriesOf (t.levels l')).length + (entriesOf (t.levels l)).length ≤ t.size := by
  rw [size, sum_levels]
  rcases neighbours hl with ⟨rfl, rfl⟩ | ⟨rfl, rfl⟩ | ⟨rfl, rfl⟩ | ⟨rfl, rfl⟩ | ⟨rfl, rfl⟩ <;> omega

/-- A compaction keeps the invariant, whatever fails and wherever the process dies. -/
theorem wp_compactLocked_inv {l l' : Fin kMaxLevels} {Q : Status × DB → World → Nat → Prop}
    (hx : E.excludes) (h : InvOn c? tree disk w db b) (hl : l'.val = l.val + 1)
    (hC : E.crashes ∨ db.FilterFailsWithin tree.size → ∀ w' b', b' ≤ b →
      Crashed c? db.dbPath w' b' → C w' b')
    (hQ : ∀ s db' w' b' tree' disk', b' ≤ b → InvOn c? tree' disk' w' db' b' →
      Moved tree disk w db s tree' disk' w' db' →
      (s.ok = true → ∃ files, tree'.levels = tree.replacedLevels l l' files) →
      (s.ok = true ∨ E.fails) → Q (s, db') w' b') :
    wp E (db.compactLocked l) Q C w b := by
  have hversion : db.version.nextFileNumber = tree.next := by rw [h.holds.version]; rfl
  have hbudget := h.holds.budget
  refine wp_compactLocked hx h.holds.aligned hl (hversion ▸ hbudget) ?_ ?_ ?_
  · intro hc w' b' hle hw'
    refine hC (hc.imp_right fun hn => hn.mono ?_ rfl) w' b' hle
      ((h.fresh (hversion ▸ hw')).mono hle).crashed
    exact (length_mergedEntries_le _).trans
      ((length_mergeInputs _ _ _).trans_le (tree.two_levels_le hl))
  · intro hf s next w' b' hs hle hspent hw'
    rw [hversion] at hle hspent hw'
    have hb' : next.toNat + b' < 2 ^ 64 := hspent.trans_lt hbudget
    have hnat := UInt64.le_iff_toNat_le.mp hle
    have hno : s.ok = true → False := fun hs' => by rw [hs] at hs'; cases hs'
    exact hQ _ _ _ _ _ _ (by omega) ((h.fresh hw').withNext hle hb')
      ⟨⟨rfl, rfl, rfl, rfl⟩, rfl, rfl, hw'.bytes_wal, Nat.le_refl _, hle, rfl, Or.inl rfl,
        fun hs' => (hno hs').elim⟩
      (fun hs' => (hno hs').elim) (Or.inr hf)
  · intro next out built w' b' hle hspent hw' hout hentries _
    rw [hversion] at hle hspent hw' hout
    have hcount : (entriesOf built).length ≤
        (entriesOf (tree.levels l')).length + (entriesOf (tree.levels l)).length := by
      rw [hentries]
      exact length_outputEntries_le _ _ _
    rw [tree.outputEntries_eq] at hentries
    have hb' : next.toNat + b' < 2 ^ 64 := hspent.trans_lt hbudget
    have hnat := UInt64.le_iff_toNat_le.mp hle
    have hb : b' ≤ b := by omega
    obtain ⟨tree', hlevels, hnext, hview, hswitch⟩ :=
      (h.fresh hw').switch hl hle hb' hout hentries
    have htop : tree'.levels 0 = tree.levels 0 ∨ tree'.levels 0 = [] := by
      have hl' : (0 : Fin kMaxLevels) ≠ l' := fun h0 => by
        rw [← h0] at hl
        cases hl
      rw [hlevels]
      by_cases h0 : (0 : Fin kMaxLevels) = l
      · subst h0
        exact Or.inr (Tree.replacedLevels_source hl')
      · exact Or.inl (Tree.replacedLevels_other h0 hl')
    have hmoved : ∀ s disk' w₂, w₂.bytes (walPath db.dbPath) = w'.bytes (walPath db.dbPath) →
        (s.ok = true → disk' = tree') →
        Moved tree disk w db s tree' disk' w₂ ((db.withNext next).switch l l' out) :=
      fun s disk' w₂ hwal hd => ⟨⟨rfl, rfl, rfl, rfl⟩, rfl, rfl, hwal.trans hw'.bytes_wal,
        Tree.size_replaced hl hlevels hcount, hnext ▸ hle, hview, htop, fun hs _ => hd hs⟩
    have hgone : ∀ w₁ w₂, Version.Saved ((db.withNext next).switch l l' out).version
        (manifestPath db.dbPath) w' w₁ → Removed db.dbPath (db.oldNumbers l l') w₁ w₂ →
        Settled c? tree' w₂ ((db.withNext next).switch l l' out) b' := by
      intro w₁ w₂ hw₁ hw₂
      refine InvOn.removed (hswitch.saved hw₁) ?_ hw₂
      rw [DB.oldNumbers_eq h.holds.version]
      exact Tree.replaced_number hlevels fun f hf => (hout.numbers f hf).1
    refine wp_installOutput (Or.inl hx) ?_ ?_ ?_ ?_
    · intro hf s w₁ hs hw₁
      have hno : s.ok = true → False := fun hs' => by rw [hs] at hs'; cases hs'
      exact hQ _ _ _ _ _ _ hb (hswitch.onlyAt_tmp hw₁)
        (hmoved s disk w₁ (hw₁.bytes (wal_ne_tmp _)) fun hs' => (hno hs').elim)
        (fun hs' => (hno hs').elim) (Or.inr hf)
    · intro w₁ w₂ hw₁ hw₂ _
      refine hQ _ _ _ _ _ _ hb (hgone w₁ w₂ hw₁ hw₂) (hmoved .OK tree' w₂ ?_ fun _ => rfl)
        (fun _ => ⟨built, hlevels⟩) (Or.inl rfl)
      have hsaved : w₁.bytes (walPath db.dbPath) = w'.bytes (walPath db.dbPath) := by
        change Version.Saved _ (manifestPath db.dbPath) w' w₁ at hw₁
        rw [World.bytes, World.bytes, hw₁.file _ (wal_ne_manifest _) (wal_ne_tmp _)]
      exact hw₂.bytes_wal.trans hsaved
    · exact fun hc w₁ hw₁ => hC (Or.inl hc) w₁ b' hb (hswitch.onlyAt_tmp hw₁).crashed
    · exact fun hc w₁ w₂ hw₁ hw₂ => hC (Or.inl hc) w₂ b' hb (hgone w₁ w₂ hw₁ hw₂).crashed

/-- How far the tables of a level are from the last level, counted by levels. -/
def Tree.levelWeight (t : Tree) (l : Fin kMaxLevels) : Nat :=
  if (t.levels l).isEmpty then 0 else 5 - l.val

/-- How far the tables of a tree are from the last level. -/
def Tree.weight (t : Tree) : Nat := ((List.finRange kMaxLevels).map t.levelWeight).sum

/-- The same, of what is known of each level: whether it is empty. -/
def emptyWeight (empty : Fin kMaxLevels → Bool) : Nat :=
  ((List.finRange kMaxLevels).map fun l => if empty l then 0 else 5 - l.val).sum

theorem Tree.weight_eq (t : Tree) : t.weight = emptyWeight fun l => (t.levels l).isEmpty := rfl

theorem emptyWeight_le (empty : Fin kMaxLevels → Bool) : emptyWeight empty ≤ 15 := by
  have hle : ∀ l : Fin kMaxLevels, (if empty l then 0 else 5 - l.val) ≤ 5 - l.val := fun l => by
    split
    · exact Nat.zero_le _
    · exact Nat.le_refl _
  have h0 := hle 0
  have h1 := hle 1
  have h2 := hle 2
  have h3 := hle 3
  have h4 := hle 4
  have h5 := hle 5
  change _ ≤ 5 at h0
  change _ ≤ 4 at h1
  change _ ≤ 3 at h2
  change _ ≤ 2 at h3
  change _ ≤ 1 at h4
  change _ ≤ 0 at h5
  rw [emptyWeight, sum_levels]
  omega

/-- Emptying a level into the next one takes weight away. -/
theorem emptyWeight_lt {empty empty' : Fin kMaxLevels → Bool} {l l' : Fin kMaxLevels}
    (hl : l'.val = l.val + 1) (hold : empty l = false) (hsource : empty' l = true)
    (hother : ∀ m, m ≠ l → m ≠ l' → empty' m = empty m) :
    emptyWeight empty' < emptyWeight empty := by
  let part (f : Fin kMaxLevels → Bool) (l : Fin kMaxLevels) : Nat := if f l then 0 else 5 - l.val
  have hsource' : part empty' l = 0 := if_pos hsource
  have hold' : part empty l = 5 - l.val := if_neg (by simp [hold])
  have htarget : part empty' l' ≤ 5 - l'.val := by
    simp only [part]
    split
    · exact Nat.zero_le _
    · exact Nat.le_refl _
  have hother' : ∀ m, m ≠ l → m ≠ l' → part empty' m = part empty m := fun m hm hm' => by
    simp only [part, hother m hm hm']
  rw [emptyWeight, emptyWeight, sum_levels, sum_levels]
  change part empty' 0 + part empty' 1 + part empty' 2 + part empty' 3 + part empty' 4 +
    part empty' 5 < part empty 0 + part empty 1 + part empty 2 + part empty 3 + part empty 4 +
      part empty 5
  generalize part = part at *
  -- only the two levels change, and the source counts for one more than the target
  rcases Tree.neighbours hl with ⟨rfl, rfl⟩ | ⟨rfl, rfl⟩ | ⟨rfl, rfl⟩ | ⟨rfl, rfl⟩ | ⟨rfl, rfl⟩
  · rw [hsource', hold', hother' 2 (by decide) (by decide), hother' 3 (by decide) (by decide),
      hother' 4 (by decide) (by decide), hother' 5 (by decide) (by decide)]
    change _ ≤ 4 at htarget
    change _ < 5 + _ + _ + _ + _ + _
    omega
  · rw [hsource', hold', hother' 0 (by decide) (by decide), hother' 3 (by decide) (by decide),
      hother' 4 (by decide) (by decide), hother' 5 (by decide) (by decide)]
    change _ ≤ 3 at htarget
    change _ < _ + 4 + _ + _ + _ + _
    omega
  · rw [hsource', hold', hother' 0 (by decide) (by decide), hother' 1 (by decide) (by decide),
      hother' 4 (by decide) (by decide), hother' 5 (by decide) (by decide)]
    change _ ≤ 2 at htarget
    change _ < _ + _ + 3 + _ + _ + _
    omega
  · rw [hsource', hold', hother' 0 (by decide) (by decide), hother' 1 (by decide) (by decide),
      hother' 2 (by decide) (by decide), hother' 5 (by decide) (by decide)]
    change _ ≤ 1 at htarget
    change _ < _ + _ + _ + 2 + _ + _
    omega
  · rw [hsource', hold', hother' 0 (by decide) (by decide), hother' 1 (by decide) (by decide),
      hother' 2 (by decide) (by decide), hother' 3 (by decide) (by decide)]
    change _ ≤ 0 at htarget
    change _ < _ + _ + _ + _ + 1 + _
    omega

theorem Tree.weight_le (t : Tree) : t.weight ≤ 15 := emptyWeight_le _

/-- A compaction of a level that is not empty takes weight away. -/
theorem Tree.weight_lt {l l' : Fin kMaxLevels} {files : List TableFile} {tree' : Tree}
    (hl : l'.val = l.val + 1) (hlevels : tree'.levels = tree.replacedLevels l l' files)
    (hne : tree.levels l ≠ []) : tree'.weight < tree.weight := by
  have hll : l ≠ l' := fun h => by rw [h] at hl; omega
  rw [Tree.weight_eq, Tree.weight_eq]
  refine emptyWeight_lt hl (by simpa using hne) ?_ fun m hm hm' => ?_
  · rw [hlevels, replacedLevels_source hll, List.isEmpty_nil]
  · rw [hlevels, replacedLevels_other hm hm']

/-- A level is found by its size, and an empty one is never too large. -/
theorem needsCompactionLoop_some {v : Version} {multiplier target : UInt64}
    {lvls : List (Fin kMaxLevels)} {l : Fin kMaxLevels}
    (h : needsCompactionLoop v multiplier lvls target = some l) : l ∈ lvls ∧ v.levels l ≠ [] := by
  induction lvls generalizing target with
  | nil => cases h
  | cons lvl lvls ih =>
      rw [needsCompactionLoop] at h
      split at h
      next hlarge =>
        obtain rfl := Option.some.inj h
        refine ⟨List.mem_cons_self, fun hnil => ?_⟩
        rw [hnil] at hlarge
        exact UInt64.not_lt_zero hlarge
      next =>
        obtain ⟨hmem, hne⟩ := ih h
        exact ⟨List.mem_cons_of_mem _ hmem, hne⟩

/-- The level to compact is not the last one. -/
theorem needsCompactionLocked_next {l : Fin kMaxLevels} (h : db.needsCompactionLocked = some l) :
    ∃ l' : Fin kMaxLevels, l'.val = l.val + 1 := by
  have hle : l.val ≤ 4 := by
    rw [needsCompactionLocked] at h
    split at h
    · rw [← Option.some.inj h]
      decide
    · have hmem := (needsCompactionLoop_some h).1
      clear h
      revert l
      decide
  exact ⟨⟨l.val + 1, Nat.lt_of_le_of_lt (Nat.succ_le_succ hle) (by decide)⟩, rfl⟩

/-- With a positive trigger the level to compact holds a table. -/
theorem needsCompactionLocked_ne_nil {l : Fin kMaxLevels} (h : db.needsCompactionLocked = some l)
    (htrigger : 1 ≤ db.options.l0CompactionTrigger) : db.version.levels l ≠ [] := by
  rw [needsCompactionLocked] at h
  split at h
  next hlen =>
    rw [← Option.some.inj h]
    intro hnil
    rw [hnil, List.length_nil, show (Int32.ofNat 0).toInt = 0 from rfl] at hlen
    omega
  next => exact (needsCompactionLoop_some h).2

/-- The loop over the levels that are too large keeps the invariant, and it ends
when every compaction takes tables away from their level. -/
theorem wp_compactionLoop {fuel : Nat} {Q : Status × DB → World → Nat → Prop} (hx : E.excludes)
    (h : InvOn c? tree disk w db b)
    (hfuel : E.diverges ∨ 1 ≤ db.options.l0CompactionTrigger ∧ tree.weight < fuel)
    (hC : E.crashes ∨ db.FilterFailsWithin tree.size → ∀ w' b', b' ≤ b →
      Crashed c? db.dbPath w' b' → C w' b')
    (hQ : ∀ s db' w' b' tree' disk', b' ≤ b → InvOn c? tree' disk' w' db' b' →
      Moved tree disk w db s tree' disk' w' db' →
      (s.ok = true ∧ db'.needsCompactionLocked = none ∨ E.fails) → Q (s, db') w' b') :
    wp E (compactionLoop fuel db) Q C w b := by
  induction fuel generalizing db w b tree disk with
  | zero => exact wp_outOfFuel (hfuel.resolve_right fun h => Nat.not_lt_zero _ h.2)
  | succ fuel ih =>
      rw [compactionLoop]
      cases hneeds : db.needsCompactionLocked with
      | none =>
          exact wp_pure (hQ _ _ _ _ _ _ (Nat.le_refl b) h (Moved.refl tree disk w db .OK)
            (Or.inl ⟨rfl, hneeds⟩))
      | some l =>
          obtain ⟨l', hl⟩ := needsCompactionLocked_next hneeds
          refine wp_bind (wp_compactLocked_inv hx h hl hC
            fun s db' w' b' tree' disk' hle h' hmoved hlevels hs => ?_)
          cases hok : s.ok with
          | false =>
              simp only [hok, Bool.not_false, if_true]
              exact wp_pure (hQ _ _ _ _ _ _ hle h' hmoved
                (Or.inr (hs.resolve_left fun h => by rw [hok] at h; cases h)))
          | true =>
              simp only [hok, Bool.not_true, Bool.false_eq_true, if_false]
              refine ih h' ?_ (fun hc w'' b'' hle' hw'' => ?_)
                fun s' db'' w'' b'' tree'' disk'' hle' h'' hmoved' hs' => ?_
              · obtain ⟨files, hfiles⟩ := hlevels hok
                refine hfuel.imp_right fun ⟨htrigger, hweight⟩ => ?_
                have hne : tree.levels l ≠ [] := fun hnil => by
                  refine needsCompactionLocked_ne_nil hneeds htrigger ?_
                  rw [h.holds.aligned.version, hnil]
                  rfl
                have hlt := Tree.weight_lt hl hfiles hne
                rw [hmoved.shell.options]
                exact ⟨htrigger, by omega⟩
              · rw [hmoved.shell.dbPath] at hw''
                exact hC (hc.imp_right fun hn => hn.mono hmoved.size_le hmoved.shell.options.symm)
                  w'' b'' (by omega) hw''
              · exact hQ _ _ _ _ _ _ (by omega) h'' (hmoved.trans hok hmoved') hs'

end ClomDB
