import ClomDB.Table
import ClomDB.Version
import Mathlib.Data.List.Induction

/-!
# The tree of tables

The abstract state behind a `Version`: the tables of each level. L0 holds its
tables in the order of their numbers, the levels below hold tables with
disjoint ranges in key order, and the last level holds no tombstone. The
operations on a tree are what flushes and compactions do to it, and its layer
is what a reader of the tables sees.

## Implementation notes

A tree carries its invariant in its fields, so an operation on trees is
defined together with the proof that it keeps the invariant.
-/

namespace ClomDB

open FileSystem LayeredMap SSTable

/-- A table with the record that a version keeps of it. -/
structure TableFile where
  info : FileMetaData
  table : Table
  minKey_eq : info.minKey = table.minKey
  maxKey_eq : info.maxKey = table.maxKey

namespace TableFile

def number (f : TableFile) : UInt64 := f.info.number

def layer (f : TableFile) : Layer Bytes Bytes := f.table.layer

/-- The range of `f` ends before the range of `g` begins. -/
def Before (f g : TableFile) : Prop := compare f.table.maxKey g.table.minKey = .lt

end TableFile

/-- The tables of each level, and the next file number. -/
structure Tree where
  levels : Levels TableFile
  next : UInt64
  next_pos : 0 < next
  number_lt : ∀ l, ∀ f ∈ levels l, f.number < next
  distinct : ∀ l l', ∀ f ∈ levels l, ∀ f' ∈ levels l', f.number = f'.number → l = l'
  nodup : ∀ l, ((levels l).map TableFile.number).Nodup
  recent : (levels 0).Pairwise fun f g => f.number < g.number
  disjoint : ∀ l, l ≠ 0 → (levels l).Pairwise TableFile.Before
  bottom : ∀ f ∈ levels 5, ∀ e ∈ f.table.entries, e.type ≠ .kDelete
  sized : ∀ l, (levels l).length ≤ maxOpenFiles

/-- The tables of a level in the order in which a reader asks them. -/
def readOrder (l : Fin kMaxLevels) (files : List TableFile) : List TableFile :=
  if l = 0 then files.reverse else files

/-- The layer of one level. -/
def levelLayer (l : Fin kMaxLevels) (files : List TableFile) : Layer Bytes Bytes :=
  stack ((readOrder l files).map TableFile.layer)

theorem layerOf_append (es fs : List SSTableEntry) :
    layerOf (es ++ fs) = overlay (layerOf es) (layerOf fs) := by
  funext k
  rw [layerOf, KeyedRun.find_append, overlay, layerOf, layerOf]
  cases KeyedRun.find SSTableEntry.key k es <;> rfl

/-- The entries of some tables, one after the other. -/
def entriesOf (files : List TableFile) : List SSTableEntry :=
  files.flatMap fun f => f.table.entries

theorem entriesOf_cons (f : TableFile) (fs : List TableFile) :
    entriesOf (f :: fs) = f.table.entries ++ entriesOf fs := rfl

theorem entriesOf_append (fs gs : List TableFile) :
    entriesOf (fs ++ gs) = entriesOf fs ++ entriesOf gs := List.flatMap_append

theorem entriesOf_append_singleton (fs : List TableFile) (f : TableFile) :
    entriesOf (fs ++ [f]) = entriesOf fs ++ f.table.entries := by
  rw [entriesOf_append, entriesOf_cons]
  exact congrArg _ (List.append_nil _)

theorem sum_levels (g : Fin kMaxLevels → Nat) :
    ((List.finRange kMaxLevels).map g).sum = g 0 + g 1 + g 2 + g 3 + g 4 + g 5 := by
  simp only [List.finRange, List.ofFn, Fin.foldr, Fin.foldr.loop, List.map_cons, List.map_nil,
    List.sum_cons, List.sum_nil]
  have hfin : ∀ (i : Nat) (hi : i < 6) (k : Fin 6), k.val = i → g ⟨i, hi⟩ = g k := by
    rintro i hi k rfl
    rfl
  rw [hfin 0 _ 0 rfl, hfin 1 _ 1 rfl, hfin 2 _ 2 rfl, hfin 3 _ 3 rfl, hfin 4 _ 4 rfl,
    hfin 5 _ 5 rfl]
  omega

/-- The number of entries in the tables of a tree. -/
def Tree.size (t : Tree) : Nat :=
  ((List.finRange kMaxLevels).map fun l => (entriesOf (t.levels l)).length).sum

/-- A table on top of L0 brings its entries. -/
theorem Tree.size_push {t t' : Tree} {f : TableFile}
    (h : t'.levels = Function.update t.levels 0 (t.levels 0 ++ [f])) :
    t'.size ≤ t.size + f.table.entries.length := by
  have hother : ∀ l, l ≠ 0 → t'.levels l = t.levels l := fun l hl => by
    rw [h, Function.update_of_ne hl]
  have htop : t'.levels 0 = t.levels 0 ++ [f] := by rw [h, Function.update_self]
  rw [size, size, sum_levels, sum_levels, htop, hother 1 (by decide), hother 2 (by decide),
    hother 3 (by decide), hother 4 (by decide), hother 5 (by decide), entriesOf_append_singleton,
    List.length_append]
  omega


theorem stack_layers (files : List TableFile) :
    stack (files.map TableFile.layer) = layerOf (entriesOf files) := by
  induction files with
  | nil => rfl
  | cons f fs ih =>
      rw [List.map_cons, stack, ih, entriesOf_cons, layerOf_append]
      rfl

/-- Without its tombstones a run has the pruned layer. -/
theorem layerOf_filter {es : List SSTableEntry}
    (h : KeyedRun.Ascending SSTableEntry.key es) :
    layerOf (es.filter fun e => e.type ≠ .kDelete) = prune (layerOf es) := by
  have hasc : KeyedRun.Ascending SSTableEntry.key
      (es.filter fun e => decide (e.type ≠ .kDelete)) :=
    h.sublist List.filter_sublist
  funext k
  simp only [layerOf, prune]
  cases hf : KeyedRun.find SSTableEntry.key k es with
  | none =>
      have hnone : KeyedRun.find SSTableEntry.key k
          (es.filter fun e => decide (e.type ≠ .kDelete)) = none := by
        rw [KeyedRun.find_eq_none_iff] at hf ⊢
        exact fun e he => hf e (List.mem_of_mem_filter he)
      rw [hnone]
      rfl
  | some e =>
      obtain ⟨he, hk⟩ := KeyedRun.mem_of_find hf
      by_cases hdel : e.type = .kDelete
      · have hnone : KeyedRun.find SSTableEntry.key k
            (es.filter fun e => decide (e.type ≠ .kDelete)) = none := by
          rw [KeyedRun.find_eq_none_iff]
          intro e' he' hk'
          obtain ⟨hmem, hne⟩ := List.mem_filter.mp he'
          have hfe : KeyedRun.find SSTableEntry.key k es = some e' := hk' ▸ KeyedRun.find_of_mem h hmem
          rw [hf] at hfe
          rw [← Option.some.inj hfe] at hne
          exact absurd hdel (by simpa using hne)
        rw [hnone, Option.map_some, SSTableEntry.said, if_pos hdel]
        rfl
      · have hsome : KeyedRun.find SSTableEntry.key k
            (es.filter fun e => decide (e.type ≠ .kDelete)) = some e :=
          (KeyedRun.find_eq_some_iff hasc).mpr ⟨List.mem_filter.mpr ⟨he, by simpa using hdel⟩, hk⟩
        rw [hsome, Option.map_some, SSTableEntry.said, if_neg hdel]

namespace TableFile

variable {f g : TableFile} {k : Bytes}

/-- A table says nothing of keys below its range, and nothing of those above. -/
theorem layer_eq_none_of_lt (h : compare k f.table.minKey = .lt) : f.layer k = none := by
  have hnone := KeyedRun.find_eq_none_of_lt_head f.table.ascending
    (List.head?_eq_some_head f.table.nonempty) h
  rw [layer, Table.layer, layerOf, hnone]
  rfl

theorem layer_eq_none_of_gt (h : compare f.table.maxKey k = .lt) : f.layer k = none := by
  have hnone := KeyedRun.find_eq_none_of_last_lt f.table.ascending
    (List.getLast?_eq_some_getLast f.table.nonempty) h
  rw [layer, Table.layer, layerOf, hnone]
  rfl

/-- Of two tables with disjoint ranges at most one speaks of a key. -/
theorem Before.layer (h : f.Before g) : f.layer k = none ∨ g.layer k = none := by
  cases hk : compare f.table.maxKey k with
  | lt => exact Or.inl (layer_eq_none_of_gt hk)
  | eq =>
      rw [← Std.LawfulEqCmp.eq_of_compare hk]
      exact Or.inr (layer_eq_none_of_lt h)
  | gt =>
      have hlt : compare k f.table.maxKey = .lt := Std.OrientedCmp.lt_of_gt hk
      exact Or.inr (layer_eq_none_of_lt (Std.TransCmp.lt_trans hlt h))

/-- Where both tables speak of a key they say the same. -/
def Agree (f g : TableFile) : Prop :=
  ∀ k r r', f.layer k = some r → g.layer k = some r' → r = r'

instance : Std.Symm Agree := ⟨fun _ _ h k r r' hr hr' => (h k r' r hr' hr).symm⟩

theorem Agree.refl (f : TableFile) : f.Agree f := fun _ _ _ hr hr' =>
  Option.some.inj (hr.symm.trans hr')

theorem Before.agree (h : f.Before g) : f.Agree g := by
  intro k r r' hr hr'
  rcases h.layer (k := k) with hn | hn
  · rw [hn] at hr; cases hr
  · rw [hn] at hr'; cases hr'

end TableFile

/-- On a level with disjoint ranges the order of the tables does not matter. -/
theorem stack_perm_of_disjoint {files files' : List TableFile}
    (h : files.Pairwise TableFile.Before) (hp : files'.Perm files) :
    stack (files'.map TableFile.layer) = stack (files.map TableFile.layer) := by
  have hone : ∀ f ∈ files, ∀ g ∈ files, f.Agree g := fun f hf g hg =>
    List.Pairwise.forall_of_forall (fun f _ => TableFile.Agree.refl f)
      (h.imp TableFile.Before.agree) hf hg
  funext k
  cases hs : stack (files.map TableFile.layer) k with
  | none =>
      rw [stack_eq_none_iff] at hs ⊢
      intro l hl
      obtain ⟨f, hf, rfl⟩ := List.mem_map.mp hl
      exact hs _ (List.mem_map_of_mem (hp.mem_iff.mp hf))
  | some r =>
      obtain ⟨l, hl, hr⟩ := stack_eq_some hs
      obtain ⟨f, hf, rfl⟩ := List.mem_map.mp hl
      refine stack_eq_of_mem (fun l hl r' hr' => ?_)
        ⟨f.layer, List.mem_map_of_mem (hp.mem_iff.mpr hf), hr⟩
      obtain ⟨g, hg, rfl⟩ := List.mem_map.mp hl
      exact hone g (hp.mem_iff.mp hg) f hf k r' r hr' hr

/-- Tables cut from one run have disjoint ranges. -/
theorem pairwise_before {files : List TableFile}
    (h : KeyedRun.Ascending SSTableEntry.key (entriesOf files)) :
    files.Pairwise TableFile.Before := by
  rw [entriesOf, KeyedRun.Ascending, List.pairwise_flatMap] at h
  exact h.2.imp fun {f g} hfg =>
    hfg _ (List.getLast_mem f.table.nonempty) _ (List.head_mem g.table.nonempty)

/-- The merged map of `CompactLocked` after some runs. -/
def mergeRuns (runs : List (List SSTableEntry)) : Std.ExtTreeMap Bytes SSTableEntry :=
  runs.foldl (KeyedRun.insertAll SSTableEntry.key) ∅

theorem mergeRuns_append_singleton (runs : List (List SSTableEntry)) (run : List SSTableEntry) :
    mergeRuns (runs ++ [run]) = KeyedRun.insertAll SSTableEntry.key (mergeRuns runs) run := by
  rw [mergeRuns, List.foldl_append]
  rfl

theorem mergeRuns_keyed (runs : List (List SSTableEntry)) :
    KeyedRun.Keyed SSTableEntry.key (mergeRuns runs) := by
  induction runs using List.reverseRecOn with
  | nil => exact KeyedRun.Keyed.empty
  | append_singleton runs run ih =>
      rw [mergeRuns_append_singleton]
      exact ih.insertAll run

/-- The merge result in key order. -/
def mergedEntries (runs : List (List SSTableEntry)) : List SSTableEntry :=
  (mergeRuns runs).toList.map Prod.snd

theorem mergedEntries_ascending (runs : List (List SSTableEntry)) :
    KeyedRun.Ascending SSTableEntry.key (mergedEntries runs) :=
  (mergeRuns_keyed runs).ascending_values

/-- Runs merged one after the other lie on top of each other, the last on top. -/
theorem layerOf_mergedEntries {runs : List (List SSTableEntry)}
    (h : ∀ run ∈ runs, KeyedRun.Ascending SSTableEntry.key run) :
    layerOf (mergedEntries runs) = stack (runs.reverse.map layerOf) := by
  have hget : ∀ k, (mergeRuns runs)[k]?.map SSTableEntry.said =
      stack (runs.reverse.map layerOf) k := by
    intro k
    induction runs using List.reverseRecOn with
    | nil => simp [mergeRuns, stack, silent]
    | append_singleton runs run ih =>
        have hrun := h run (by simp)
        rw [mergeRuns_append_singleton, KeyedRun.getElem?_insertAll _ hrun, List.reverse_append,
          List.reverse_singleton, List.singleton_append, List.map_cons, stack, overlay,
          ← ih fun r hr => h r (by simp [hr]), layerOf]
        cases KeyedRun.find SSTableEntry.key k run <;> rfl
  funext k
  rw [layerOf, mergedEntries, (mergeRuns_keyed runs).find_values, hget]

theorem mem_mergeRuns {runs : List (List SSTableEntry)} {k : Bytes} {e : SSTableEntry}
    (h : ∀ run ∈ runs, KeyedRun.Ascending SSTableEntry.key run)
    (he : (mergeRuns runs)[k]? = some e) : ∃ run ∈ runs, e ∈ run := by
  induction runs using List.reverseRecOn with
  | nil => simp [mergeRuns] at he
  | append_singleton runs run ih =>
      rw [mergeRuns_append_singleton, KeyedRun.getElem?_insertAll _ (h run (by simp))] at he
      cases hf : KeyedRun.find SSTableEntry.key k run with
      | some e' =>
          rw [hf] at he
          obtain rfl : e' = e := by simpa using he
          exact ⟨run, by simp, (KeyedRun.mem_of_find hf).1⟩
      | none =>
          rw [hf] at he
          obtain ⟨r, hr, her⟩ := ih (fun r hr => h r (by simp [hr])) (by simpa using he)
          exact ⟨r, by simp [hr], her⟩

/-- A merged entry is one of the entries that went in. -/
theorem mem_of_mem_mergedEntries {runs : List (List SSTableEntry)} {e : SSTableEntry}
    (h : ∀ run ∈ runs, KeyedRun.Ascending SSTableEntry.key run)
    (he : e ∈ mergedEntries runs) : ∃ run ∈ runs, e ∈ run := by
  obtain ⟨p, hp, rfl⟩ := List.mem_map.mp he
  exact mem_mergeRuns h (Std.ExtTreeMap.mem_toList_iff_getElem?_eq_some.mp hp)

namespace Tree

/-- The version that stands for the tree. -/
def version (t : Tree) : Version where
  levels l := (t.levels l).map TableFile.info
  nextFileNumber := t.next

/-- The tables of the whole tree in read order, as one layer. -/
def layer (t : Tree) : Layer Bytes Bytes :=
  stack ((List.finRange kMaxLevels).map fun l => levelLayer l (t.levels l))

/-- The tree of a new database. -/
def initial : Tree where
  levels _ := []
  next := 1
  next_pos := by decide
  number_lt := by simp
  distinct := by simp
  nodup := by simp
  recent := List.Pairwise.nil
  disjoint := fun _ _ => List.Pairwise.nil
  bottom := by simp
  sized := by simp

theorem version_initial : initial.version = {} := rfl

@[simp] theorem levelLayer_nil (l : Fin kMaxLevels) : levelLayer l [] = silent := by
  rw [levelLayer, readOrder]
  split <;> rfl

@[simp] theorem layer_initial : initial.layer = silent := by
  simp [layer, initial, List.finRange, stack]

/-- The counter moves on: a number was handed out for nothing, or for a table
that is not in the tree yet. -/
def withNext (t : Tree) (next : UInt64) (h : t.next ≤ next) : Tree :=
  { t with
    next := next
    next_pos := UInt64.lt_of_lt_of_le t.next_pos h
    number_lt := fun l f hf => UInt64.lt_of_lt_of_le (t.number_lt l f hf) h }

@[simp] theorem withNext_layer (t : Tree) (next : UInt64) (h : t.next ≤ next) :
    (t.withNext next h).layer = t.layer := rfl

section Push

variable (t : Tree) (f : TableFile) (next : UInt64)

/-- A flushed table goes to the end of L0. -/
def push (hnumber : t.next ≤ f.number) (hnext : f.number < next)
    (hsize : (t.levels 0).length < maxOpenFiles) : Tree where
  levels := Function.update t.levels 0 (t.levels 0 ++ [f])
  next := next
  next_pos := UInt64.lt_of_le_of_lt UInt64.zero_le hnext
  number_lt := by
    intro l g hg
    by_cases hl : l = 0
    · subst hl
      rw [Function.update_self] at hg
      rcases List.mem_append.mp hg with hg | hg
      · exact UInt64.lt_trans (UInt64.lt_of_lt_of_le (t.number_lt 0 g hg) hnumber) hnext
      · rwa [List.mem_singleton.mp hg]
    · rw [Function.update_of_ne hl] at hg
      exact UInt64.lt_trans (UInt64.lt_of_lt_of_le (t.number_lt l g hg) hnumber) hnext
  distinct := by
    have hnew : ∀ l, ∀ g ∈ t.levels l, g.number ≠ f.number := fun l g hg heq =>
      UInt64.lt_irrefl _ (heq ▸ UInt64.lt_of_lt_of_le (t.number_lt l g hg) hnumber)
    intro l l' g hg g' hg' heq
    by_cases hl : l = 0
    · by_cases hl' : l' = 0
      · rw [hl, hl']
      · subst hl
        rw [Function.update_self] at hg
        rw [Function.update_of_ne hl'] at hg'
        rcases List.mem_append.mp hg with hg | hg
        · exact t.distinct 0 l' g hg g' hg' heq
        · rw [List.mem_singleton.mp hg] at heq
          exact absurd heq.symm (hnew l' g' hg')
    · rw [Function.update_of_ne hl] at hg
      by_cases hl' : l' = 0
      · subst hl'
        rw [Function.update_self] at hg'
        rcases List.mem_append.mp hg' with hg' | hg'
        · exact t.distinct l 0 g hg g' hg' heq
        · rw [List.mem_singleton.mp hg'] at heq
          exact absurd heq (hnew l g hg)
      · rw [Function.update_of_ne hl'] at hg'
        exact t.distinct l l' g hg g' hg' heq
  nodup := by
    intro l
    by_cases hl : l = 0
    · subst hl
      rw [Function.update_self, List.map_append, List.nodup_append]
      refine ⟨t.nodup 0, List.nodup_singleton _, ?_⟩
      rintro a ha b hb rfl
      obtain ⟨g, hg, rfl⟩ := List.mem_map.mp ha
      have hb' : g.number = f.number := by simpa using hb
      exact UInt64.lt_irrefl _ (hb' ▸ UInt64.lt_of_lt_of_le (t.number_lt 0 g hg) hnumber)
    · rw [Function.update_of_ne hl]
      exact t.nodup l
  recent := by
    rw [Function.update_self, List.pairwise_append]
    refine ⟨t.recent, List.pairwise_singleton _ _, fun g hg g' hg' => ?_⟩
    rw [List.mem_singleton.mp hg']
    exact UInt64.lt_of_lt_of_le (t.number_lt 0 g hg) hnumber
  disjoint := by
    intro l hl
    rw [Function.update_of_ne hl]
    exact t.disjoint l hl
  bottom := by
    rw [Function.update_of_ne (by decide)]
    exact t.bottom
  sized := by
    intro l
    by_cases hl : l = 0
    · subst hl
      rw [Function.update_self, List.length_append]
      exact hsize
    · rw [Function.update_of_ne hl]
      exact t.sized l

end Push

/-- Six layers, the first on top. -/
theorem stack_levels (g : Fin kMaxLevels → Layer Bytes Bytes) :
    stack ((List.finRange kMaxLevels).map g) =
      overlay (g 0) (overlay (g 1) (overlay (g 2) (overlay (g 3) (overlay (g 4) (g 5))))) := by
  simp [List.finRange, stack]

/-- A pushed table lies over the rest of the tree. -/
theorem push_layer (t : Tree) (f : TableFile) (next : UInt64) (hnumber : t.next ≤ f.number)
    (hnext : f.number < next) (hsize : (t.levels 0).length < maxOpenFiles) :
    (t.push f next hnumber hnext hsize).layer = overlay f.layer t.layer := by
  have h0 : levelLayer 0 (t.levels 0 ++ [f]) = overlay f.layer (levelLayer 0 (t.levels 0)) := by
    simp [levelLayer, readOrder, stack]
  rw [layer, layer, stack_levels, stack_levels]
  change overlay (levelLayer 0 (t.levels 0 ++ [f])) _ = _
  rw [h0, overlay_assoc]
  rfl

section Replace

variable (t : Tree) (l l' : Fin kMaxLevels) (files : List TableFile) (next : UInt64)

/-- The levels after a compaction of `l` into `l'`. -/
def replacedLevels : Levels TableFile :=
  Function.update (Function.update t.levels l []) l' files

variable {t l l' files next}

theorem replacedLevels_target : t.replacedLevels l l' files l' = files :=
  Function.update_self _ _ _

theorem replacedLevels_source (h : l ≠ l') : t.replacedLevels l l' files l = [] := by
  rw [replacedLevels, Function.update_of_ne h, Function.update_self]

theorem replacedLevels_other {m : Fin kMaxLevels} (h : m ≠ l) (h' : m ≠ l') :
    t.replacedLevels l l' files m = t.levels m := by
  rw [replacedLevels, Function.update_of_ne h', Function.update_of_ne h]

/-- Outside the target a compaction only takes tables away. -/
theorem mem_of_mem_replacedLevels {m : Fin kMaxLevels} {f : TableFile} (h' : m ≠ l')
    (h : f ∈ t.replacedLevels l l' files m) : f ∈ t.levels m := by
  rw [replacedLevels, Function.update_of_ne h'] at h
  by_cases hm : m = l
  · subst hm
    rw [Function.update_self] at h
    cases h
  · rwa [Function.update_of_ne hm] at h

/-- A level outside the target is as before or empty. -/
theorem replacedLevels_cases (files : List TableFile) {m : Fin kMaxLevels} (h' : m ≠ l') :
    t.replacedLevels l l' files m = t.levels m ∨ t.replacedLevels l l' files m = [] := by
  rw [replacedLevels, Function.update_of_ne h']
  by_cases hm : m = l
  · subst hm
    exact Or.inr (Function.update_self _ _ _)
  · exact Or.inl (Function.update_of_ne hm _ _)

variable (t l l' files next)

/-- The tables of two levels are replaced by new ones on the lower of the two. -/
def replace (hl' : l' ≠ 0) (hnext : t.next ≤ next)
    (hnumber : ∀ f ∈ files, t.next ≤ f.number ∧ f.number < next)
    (hnodup : (files.map TableFile.number).Nodup) (hdisjoint : files.Pairwise TableFile.Before)
    (hbottom : l' = 5 → ∀ f ∈ files, ∀ e ∈ f.table.entries, e.type ≠ .kDelete)
    (hsize : files.length ≤ maxOpenFiles) : Tree where
  levels := t.replacedLevels l l' files
  next := next
  next_pos := UInt64.lt_of_lt_of_le t.next_pos hnext
  number_lt := by
    intro m f hf
    by_cases hm : m = l'
    · subst hm
      rw [replacedLevels_target] at hf
      exact (hnumber f hf).2
    · exact UInt64.lt_of_lt_of_le (t.number_lt m f (mem_of_mem_replacedLevels hm hf)) hnext
  distinct := by
    have hnew : ∀ m, ∀ g ∈ t.levels m, ∀ f ∈ files, g.number ≠ f.number :=
      fun m g hg f hf heq => UInt64.lt_irrefl _
        (heq ▸ UInt64.lt_of_lt_of_le (t.number_lt m g hg) (hnumber f hf).1)
    intro m m' f hf f' hf' heq
    by_cases hm : m = l'
    · by_cases hm' : m' = l'
      · rw [hm, hm']
      · subst hm
        rw [replacedLevels_target] at hf
        exact absurd heq.symm (hnew m' f' (mem_of_mem_replacedLevels hm' hf') f hf)
    · have hold := mem_of_mem_replacedLevels hm hf
      by_cases hm' : m' = l'
      · rw [hm', replacedLevels_target] at hf'
        exact absurd heq (hnew m f hold f' hf')
      · exact t.distinct m m' f hold f' (mem_of_mem_replacedLevels hm' hf') heq
  nodup := by
    intro m
    by_cases hm : m = l'
    · subst hm
      rwa [replacedLevels_target]
    · rcases replacedLevels_cases (t := t) (l := l) files hm with h | h
      · rw [h]; exact t.nodup m
      · rw [h]; exact List.nodup_nil
  recent := by
    rcases replacedLevels_cases (t := t) (l := l) files hl'.symm with h | h
    · rw [h]; exact t.recent
    · rw [h]; exact List.Pairwise.nil
  disjoint := by
    intro m hm0
    by_cases hm : m = l'
    · subst hm
      rwa [replacedLevels_target]
    · rcases replacedLevels_cases (t := t) (l := l) files hm with h | h
      · rw [h]; exact t.disjoint m hm0
      · rw [h]; exact List.Pairwise.nil
  bottom := by
    intro f hf
    by_cases hm : 5 = l'
    · subst hm
      rw [replacedLevels_target] at hf
      exact hbottom rfl f hf
    · exact t.bottom f (mem_of_mem_replacedLevels hm hf)
  sized := by
    intro m
    by_cases hm : m = l'
    · subst hm
      rwa [replacedLevels_target]
    · rcases replacedLevels_cases (t := t) (l := l) files hm with h | h
      · rw [h]; exact t.sized m
      · rw [h]; exact Nat.zero_le _

end Replace

theorem neighbours {l l' : Fin kMaxLevels} (h : l'.val = l.val + 1) :
    l = 0 ∧ l' = 1 ∨ l = 1 ∧ l' = 2 ∨ l = 2 ∧ l' = 3 ∨ l = 3 ∧ l' = 4 ∨ l = 4 ∧ l' = 5 := by
  revert l l'
  decide

/-- Six layers before and after two neighbours are merged into the lower one. -/
theorem stack_merged {g g' : Fin kMaxLevels → Layer Bytes Bytes} {l l' : Fin kMaxLevels}
    (hl : l'.val = l.val + 1) (hsource : g' l = silent)
    (hother : ∀ m, m ≠ l → m ≠ l' → g' m = g m)
    (htarget : l' ≠ 5 → g' l' = overlay (g l) (g l'))
    (hbottom : l' = 5 → view (g' l') = view (overlay (g l) (g l'))) :
    view (stack ((List.finRange kMaxLevels).map g')) =
      view (stack ((List.finRange kMaxLevels).map g)) := by
  rw [stack_levels, stack_levels]
  rcases neighbours hl with ⟨rfl, rfl⟩ | ⟨rfl, rfl⟩ | ⟨rfl, rfl⟩ | ⟨rfl, rfl⟩ | ⟨rfl, rfl⟩
  · rw [hsource, htarget (by decide), hother 2 (by decide) (by decide),
      hother 3 (by decide) (by decide), hother 4 (by decide) (by decide),
      hother 5 (by decide) (by decide), silent_overlay, overlay_assoc]
  · rw [hsource, htarget (by decide), hother 0 (by decide) (by decide),
      hother 3 (by decide) (by decide), hother 4 (by decide) (by decide),
      hother 5 (by decide) (by decide), silent_overlay, overlay_assoc]
  · rw [hsource, htarget (by decide), hother 0 (by decide) (by decide),
      hother 1 (by decide) (by decide), hother 4 (by decide) (by decide),
      hother 5 (by decide) (by decide), silent_overlay, overlay_assoc]
  · rw [hsource, htarget (by decide), hother 0 (by decide) (by decide),
      hother 1 (by decide) (by decide), hother 2 (by decide) (by decide),
      hother 5 (by decide) (by decide), silent_overlay, overlay_assoc]
  · -- below the last level there is nothing that a dropped tombstone could uncover
    rw [hsource, hother 0 (by decide) (by decide), hother 1 (by decide) (by decide),
      hother 2 (by decide) (by decide), hother 3 (by decide) (by decide), silent_overlay]
    exact view_overlay_congr _ (view_overlay_congr _ (view_overlay_congr _
      (view_overlay_congr _ (hbottom rfl))))

/-- The runs `CompactLocked` merges: the target level, then the source level
from the oldest table to the newest. -/
def compactionRuns (t : Tree) (l l' : Fin kMaxLevels) : List (List SSTableEntry) :=
  (t.levels l' ++ (readOrder l (t.levels l)).reverse).map fun f => f.table.entries

theorem compactionRuns_ascending (t : Tree) (l l' : Fin kMaxLevels) :
    ∀ run ∈ t.compactionRuns l l', KeyedRun.Ascending SSTableEntry.key run := by
  intro run hrun
  obtain ⟨f, -, rfl⟩ := List.mem_map.mp hrun
  exact f.table.ascending

theorem levelLayer_of_ne {l : Fin kMaxLevels} (hl : l ≠ 0) (files : List TableFile) :
    levelLayer l files = stack (files.map TableFile.layer) := by
  rw [levelLayer, readOrder, if_neg hl]

/-- The merge lays the source level over the target level. -/
theorem layerOf_merged (t : Tree) {l l' : Fin kMaxLevels} (hl' : l' ≠ 0) :
    layerOf (mergedEntries (t.compactionRuns l l')) =
      overlay (levelLayer l (t.levels l)) (levelLayer l' (t.levels l')) := by
  have hmap : ∀ files : List TableFile,
      (files.map fun f => f.table.entries).map layerOf = files.map TableFile.layer := fun files => by
    rw [List.map_map]
    rfl
  rw [layerOf_mergedEntries (t.compactionRuns_ascending l l'), compactionRuns, ← List.map_reverse,
    hmap, List.reverse_append, List.reverse_reverse, List.map_append, stack_append,
    levelLayer_of_ne hl', stack_perm_of_disjoint (t.disjoint l' hl') (List.reverse_perm _)]
  rfl

/-- The entries of the new tables: all merged ones, but no tombstone on the last level. -/
def compactionEntries (t : Tree) (l l' : Fin kMaxLevels) : List SSTableEntry :=
  if l' = 5 then (mergedEntries (t.compactionRuns l l')).filter fun e => e.type ≠ .kDelete
  else mergedEntries (t.compactionRuns l l')

theorem compactionEntries_ascending (t : Tree) (l l' : Fin kMaxLevels) :
    KeyedRun.Ascending SSTableEntry.key (t.compactionEntries l l') := by
  rw [compactionEntries]
  split
  · exact (mergedEntries_ascending _).sublist List.filter_sublist
  · exact mergedEntries_ascending _

theorem mem_compactionEntries {t : Tree} {l l' : Fin kMaxLevels} {e : SSTableEntry}
    (h : e ∈ t.compactionEntries l l') :
    e.Valid ∧ (l' = 5 → e.type ≠ .kDelete) := by
  have hvalid : ∀ e ∈ mergedEntries (t.compactionRuns l l'), e.Valid := by
    intro e he
    obtain ⟨run, hrun, her⟩ := mem_of_mem_mergedEntries (t.compactionRuns_ascending l l') he
    obtain ⟨f, -, rfl⟩ := List.mem_map.mp hrun
    exact f.table.valid e her
  rw [compactionEntries] at h
  split at h
  next h5 =>
    obtain ⟨he, hne⟩ := List.mem_filter.mp h
    exact ⟨hvalid e he, fun _ => by simpa using hne⟩
  next h5 => exact ⟨hvalid e h, fun hl => absurd hl h5⟩

/-- A compaction changes no answer. -/
theorem replacedLevels_view (t : Tree) {l l' : Fin kMaxLevels} {files : List TableFile}
    (hl : l'.val = l.val + 1) (hfiles : entriesOf files = t.compactionEntries l l') :
    view (stack ((List.finRange kMaxLevels).map fun m =>
      levelLayer m (t.replacedLevels l l' files m))) = view t.layer := by
  have hl0 : l' ≠ 0 := fun h => by rw [h] at hl; exact absurd hl (by simp)
  have hne : l ≠ l' := fun h => by rw [h] at hl; omega
  have hnew : levelLayer l' (t.replacedLevels l l' files l') =
      layerOf (t.compactionEntries l l') := by
    rw [replacedLevels_target, levelLayer_of_ne hl0, stack_layers, hfiles]
  have hmerged := t.layerOf_merged (l := l) hl0
  refine stack_merged (g := fun m => levelLayer m (t.levels m)) hl ?_ ?_ ?_ ?_
  · simp only [replacedLevels_source hne, levelLayer_nil]
  · intro m hm hm'
    simp only [replacedLevels_other hm hm']
  · intro h5
    simp only [hnew, compactionEntries, if_neg h5, hmerged]
  · intro h5
    simp only [hnew, compactionEntries, if_pos h5]
    rw [layerOf_filter (mergedEntries_ascending _), view_prune, hmerged]

end Tree

end ClomDB
