import ClomDB.ExactRecovery
import ClomDB.Settling

/-!
# How many tables L0 collects

A lookup asks every table of L0. Without a background thread a write or a flush
that returns leaves fewer tables there than the trigger, and what `Close` adds
is compacted by the next write. Only a process that dies can add to that.

## Implementation notes

A death in a write that flushes leaves one table more and the log, and the next
`Close` may flush the log again: two tables for each death.
-/

namespace ClomDB

open FaultProgram FileSystem FileSystem.World DB

/-- The process dies in the step or after it. -/
def Event.dies : Event → Bool
  | .returned _ _ _ => false
  | .crashed _ | .killed => true

/-- A database is opened without a background thread and with a trigger that is
not above a bound. -/
def Op.Inline (T : Nat) : Op → Prop
  | .reopen options => options.backgroundCompaction = false ∧ options.l0CompactionTrigger ≤ T
  | _ => True

def Event.Inline (T : Nat) : Event → Prop
  | .returned op _ _ | .crashed op => op.Inline T
  | .killed => True

/-- L0 has not more tables than the stage. -/
def TopAtMost (k : Nat) (levels : Levels FileMetaData) (_ : World) : Prop := (levels 0).length ≤ k

theorem upkeep_topAtMost (d : Path) : Upkeep d TopAtMost where
  next h := Nat.le_succ_of_le h
  waned h _ := h
  push {k levels w fm} h _ := by
    rw [TopAtMost, Function.update_self, List.length_append, List.length_singleton]
    exact Nat.succ_le_succ h
  replace {k levels w l l' new} h hl _ := by
    rw [TopAtMost, Function.update_of_ne hl.symm]
    by_cases h0 : (0 : Fin kMaxLevels) = l
    · subst h0
      rw [Function.update_self]
      exact Nat.zero_le k
    · rw [Function.update_of_ne h0]
      exact h

/-- A replay of the log leaves nothing to flush. -/
def Drained (d : Path) (w : World) : Prop := (replayRecords {} (logged d w)).empty = true

/-- L0 has at most `k` tables, and fewer while there is something to flush. -/
structure DB.Trimmed (T k : Nat) (db : DB) (w : World) : Prop where
  inline : db.options.backgroundCompaction = false
  trigger : db.options.l0CompactionTrigger ≤ T
  drained : db.memtable.empty = true → Drained db.dbPath w
  top : (db.version.levels 0).length ≤ k
  filled : db.memtable.empty = false → (db.version.levels 0).length < k

/-- How a section ends that flushes and compacts. -/
structure Trims (T : Nat) (db : DB) (w : World) (db' : DB) (w' : World) : Prop where
  retains : Retains db w db' w'
  top : (db'.version.levels 0).length < T

section Sections

variable {T k : Nat} {db db' : DB} {w w' : World} {b : Nat} {tree disk : Tree}

/-- While nothing needs a compaction, L0 is below the trigger. -/
theorem InvOn.top_lt (h : InvOn none tree disk w db b) (hneeds : db.needsCompactionLocked = none)
    (htrigger : db.options.l0CompactionTrigger ≤ T) : (db.version.levels 0).length < T := by
  have hsized : (db.version.levels 0).length ≤ maxOpenFiles := by
    rw [h.holds.version]
    exact List.length_map TableFile.info ▸ tree.sized 0
  have hint : (Int32.ofNat (db.version.levels 0).length).toInt = (db.version.levels 0).length :=
    Int32.toInt_ofNat_of_lt (hsized.trans_lt (by decide))
  rw [needsCompactionLocked, hint] at hneeds
  split at hneeds
  · cases hneeds
  · omega

theorem Retains.drained (h : Retains db w db' w')
    (hdrained : db.memtable.empty = true → Drained db.dbPath w) :
    db'.memtable.empty = true → Drained db'.dbPath w' := by
  rw [h.shell.dbPath]
  rcases h.log with ⟨hmem, hlog⟩ | ⟨-, hlog⟩
  · rw [hmem, Drained, logged_congr hlog]
    exact hdrained
  · intro _
    rw [Drained, logged, hlog]
    rfl

theorem Trims.trimmed (h : Trims T db w db' w') (hinline : db.options.backgroundCompaction = false)
    (htrigger : db.options.l0CompactionTrigger ≤ T)
    (hdrained : db.memtable.empty = true → Drained db.dbPath w) (hk : T ≤ k) :
    db'.Trimmed T k w' := by
  have htop := h.top
  refine ⟨?_, ?_, h.retains.drained hdrained, by omega, fun _ => by omega⟩
  · rw [h.retains.shell.options]
    exact hinline
  · rw [h.retains.shell.options]
    exact htrigger

theorem wp_compactionLoop_trims (h : InvOn none tree disk w db b)
    (htrigger : db.options.l0CompactionTrigger ≤ T) (fuel : Nat) :
    wp mortal (compactionLoop fuel db) (fun r w' _ => Trims T db w r.2 w') (fun _ _ => True) w
      b := by
  refine wp_compactionLoop trivial h (Or.inl trivial) (fun _ _ _ _ _ => trivial)
    fun _ db' w' _ tree' disk' _ h' hmoved hs => ⟨.of_moved hmoved, ?_⟩
  refine h'.top_lt (hs.resolve_right id).2 ?_
  rw [hmoved.shell.options]
  exact htrigger

theorem wp_flush_trims (h : InvOn none tree disk w db b)
    (htrigger : db.options.l0CompactionTrigger ≤ T) (fuel : Nat) :
    wp mortal (db.flush fuel) (fun r w' _ => Trims T db w r.2 w') (fun _ _ => True) w b := by
  rw [flush]
  refine wp_then (wp_flushMemTableLocked_retains h) ?_ fun _ _ => id
  rintro ⟨s, db₁⟩ w₁ b₁ ⟨hok, h₁, tree₁, disk₁, hinv₁⟩
  have hok' : s.ok = true := hok
  simp only [hok', Bool.not_true, Bool.false_eq_true, if_false]
  have htrigger₁ : db₁.options.l0CompactionTrigger ≤ T := by
    rw [h₁.shell.options]
    exact htrigger
  exact wp_mono (wp_compactionLoop_trims hinv₁ htrigger₁ fuel)
    (fun _ _ _ h₂ => ⟨h₁.trans h₂.retains, h₂.top⟩) fun _ _ => id

theorem wp_maybeFlushLocked_trims (h : InvOn none tree disk w db b)
    (htrigger : db.options.l0CompactionTrigger ≤ T) (fuel : Nat) :
    wp mortal (db.maybeFlushLocked fuel) (fun r w' _ => Trims T db w r.2 w') (fun _ _ => True) w
      b := by
  rw [maybeFlushLocked]
  exact wp_ite (fun _ => wp_flush_trims h htrigger fuel) fun _ =>
    wp_compactionLoop_trims h htrigger fuel

theorem DB.Trimmed.congr (h : db.Trimmed T k w) (hoptions : db'.options = db.options)
    (hpath : db'.dbPath = db.dbPath) (hversion : db'.version = db.version)
    (hmem : db'.memtable = db.memtable)
    (hlog : w'.bytes (walPath db.dbPath) = w.bytes (walPath db.dbPath)) : db'.Trimmed T k w' := by
  obtain ⟨hinline, htrigger, hdrained, htop, hfilled⟩ := h
  rw [← hoptions] at hinline htrigger
  rw [← hversion] at htop
  rw [← hmem, ← hversion] at hfilled
  rw [← hmem, Drained, ← logged_congr hlog, ← hpath] at hdrained
  exact ⟨hinline, htrigger, hdrained, htop, hfilled⟩

theorem wp_write_trimmed (h : InvOn none tree disk w db b) (ht : db.Trimmed T k w) (hk : T ≤ k)
    (fuel : Nat) (opts : WriteOptions) {batch : WriteBatch}
    (hissued : (Op.write opts batch).Issued) :
    wp mortal (db.write fuel opts batch) (fun r w' _ => r.2.Trimmed T k w') (fun _ _ => True) w
      b := by
  refine wp_write_logged h (fun _ => ht) (fun _ _ _ => trivial) fun hne w₁ _ _ hinv => ?_
  have hwell : (batch.iterate WriteBatch.recorder []).1.ok = true := by
    obtain ⟨ops, hshort, rfl⟩ := hissued
    rw [WriteBatch.iterate_ofOps _ _ hshort]
    rfl
  -- the memtable is not empty now, so that it asks nothing of the log
  have hfilled : (db.applied batch).memtable.empty = false :=
    MemTable.empty_foldl (Op.Issued.filled hissued hne) _
  simp only [finishWrite, applyBatchLocked_eq, hwell, Bool.not_true, Bool.false_eq_true, if_false]
  refine wp_ite (fun hback => ?_) fun _ => ?_
  · have hinline : db.options.backgroundCompaction = true := hback
    rw [ht.inline] at hinline
    cases hinline
  · refine wp_mono (wp_maybeFlushLocked_trims hinv ht.trigger fuel) (fun _ _ _ h' => ?_) fun _ _ => id
    refine h'.trimmed ht.inline ht.trigger (fun hempty => ?_) hk
    rw [hfilled] at hempty
    cases hempty

theorem wp_backgroundIteration_trimmed (h : InvOn none tree disk w db b) (ht : db.Trimmed T k w)
    (hk : T ≤ k) (fuel : Nat) :
    wp mortal (db.backgroundIteration fuel) (fun db' w' _ => db'.Trimmed T k w') (fun _ _ => True) w
      b := by
  rw [backgroundIteration]
  refine wp_ite (fun _ => wp_pure ht) fun _ => ?_
  refine wp_then (wp_flush_trims (h.withFlags false db.shuttingDown db.closed) ht.trigger fuel) ?_
    fun _ _ => id
  rintro r w' _ h'
  exact wp_pure ((h'.trimmed ht.inline ht.trigger ht.drained hk).congr rfl rfl rfl rfl rfl)

theorem wp_compactLocked_trimmed (h : InvOn none tree disk w db b) (ht : db.Trimmed T k w)
    (l : Fin kMaxLevels) :
    wp mortal (db.compactLocked l) (fun r w' _ => r.2.Trimmed T k w') (fun _ _ => True) w b := by
  by_cases hlast : l.val + 1 ≥ kMaxLevels
  · rw [compactLocked, dif_pos hlast]
    exact wp_pure ht
  · let next : Fin kMaxLevels := ⟨l.val + 1, Nat.lt_of_not_le hlast⟩
    refine wp_compactLocked_inv trivial h (show next.val = l.val + 1 from rfl)
      (fun _ _ _ _ _ => trivial) fun _ db' w' _ tree' disk' _ h' hmoved _ _ => ?_
    have hle : (db'.version.levels 0).length ≤ (db.version.levels 0).length := by
      rw [h.holds.version, h'.holds.version, Tree.version, Tree.version, List.length_map,
        List.length_map]
      rcases hmoved.top with htop | htop
      · rw [htop]
      · rw [htop]
        exact Nat.zero_le _
    refine ⟨?_, ?_, (Retains.of_moved hmoved).drained ht.drained, hle.trans ht.top, fun hne => ?_⟩
    · rw [hmoved.shell.options]
      exact ht.inline
    · rw [hmoved.shell.options]
      exact ht.trigger
    · rw [hmoved.memtable] at hne
      exact hle.trans_lt (ht.filled hne)

/-- The flush of a `Close` adds a table for what is in the memtable. -/
theorem wp_flushMemTableLocked_trimmed (h : InvOn none tree disk w db b) (ht : db.Trimmed T k w) :
    wp mortal db.flushMemTableLocked
      (fun r w' b' => r.2.Trimmed T k w' ∧ ∃ tree disk, InvOn none tree disk w' r.2 b')
      (fun _ _ => True) w b := by
  cases hne : db.memtable.empty with
  | true =>
      rw [flushMemTableLocked, if_pos hne]
      exact wp_pure ⟨ht, tree, disk, h⟩
  | false =>
      refine wp_flushMemTableLocked trivial h (fun _ _ _ _ _ => trivial)
        fun s db' w' b' tree' disk' _ h' hflushed hs => ⟨?_, tree', disk', h'⟩
      obtain ⟨hok, -, hlog⟩ := hs.resolve_right id
      obtain ⟨-, -, hmem, -, f, htop, -⟩ := (hflushed.ok hok).resolve_left fun hempty => by
        rw [hne] at hempty
        cases hempty.1
      have hlog' : w'.bytes (walPath db.dbPath) = some [] := hlog.resolve_left fun hempty => by
        rw [hne] at hempty
        cases hempty.1
      have hlength : (db'.version.levels 0).length = (db.version.levels 0).length + 1 := by
        rw [h.holds.version, h'.holds.version, Tree.version, Tree.version, List.length_map,
          List.length_map, htop, List.length_append, List.length_singleton]
      have hlt := ht.filled hne
      refine ⟨?_, ?_, fun _ => ?_, hlength.trans_le hlt, fun hfull => ?_⟩
      · rw [hflushed.shell.options]
        exact ht.inline
      · rw [hflushed.shell.options]
        exact ht.trigger
      · rw [hflushed.shell.dbPath, Drained, logged, hlog']
        rfl
      · rw [hmem] at hfull
        cases hfull

theorem wp_closeEnd_trimmed (h : InvOn none tree disk w db b) (ht : db.Trimmed T k w) :
    wp mortal db.closeEnd (fun r w' _ => r.2.Trimmed T k w') (fun _ _ => True) w b := by
  refine wp_mono (wp_closeEnd_flushed (wp_flushMemTableLocked_trimmed h ht)) ?_ fun _ _ => id
  rintro ⟨s, db'⟩ w' _ ⟨db₁, w₁, wal, ht₁, hdb', hlog⟩
  obtain rfl : db' = _ := hdb'
  exact ht₁.congr rfl rfl rfl rfl hlog

end Sections

/-- The bound on L0 for an open database, and for a directory without a process:
there it is lower if the next `Open` finds something in the log. -/
def Machine.Trimmed (T k : Nat) (d : Path) (b : Nat) (m : Machine) : Prop :=
  match m.db with
  | none => ∃ j, Rests TopAtMost j d m.world b ∧ j ≤ k ∧ (¬Drained d m.world → j < k)
  | some db => db.Trimmed T k m.world

section Steps

variable {T k : Nat} {d : Path} {m m' : Machine} {b t : Nat}

/-- What `Open` finds in the directory is what the object has. -/
theorem wp_openObject_trimmed {j : Nat} {w : World} {options : Options}
    (hrests : Rests TopAtMost j d w b) (hj : j ≤ k) (hlt : ¬Drained d w → j < k)
    (hpath : d.getLast? ≠ some separator) (hinline : (Op.reopen options).Inline T) :
    wp mortal (openObject d options) (fun r w' b' => Machine.Trimmed T k d b' ⟨w', r.2⟩)
      (fun _ _ => True) w b := by
  obtain ⟨disk, hdisk, hb, htop⟩ := hrests
  refine wp_mono (wp_spent (wp_openObject_takes hdisk hb hpath options)) ?_ fun _ _ _ => trivial
  rintro ⟨s, db?⟩ w' b' ⟨⟨rfl, -, hnone⟩ | ⟨db, hdb, h'⟩, hle⟩
  · obtain rfl : db? = none := hnone
    exact ⟨j, Rests.mono ⟨disk, hdisk, hb, htop⟩ hle, hj, hlt⟩
  · obtain rfl : db? = some db := hdb
    have hd : db.dbPath = d := h'.dbPath
    have hoptions : db.options = options := h'.options
    have hversion : db.version = disk.version := h'.version
    have hmem : db.memtable = replayRecords {} (logged d w) := h'.memtable
    have hlog : logged d w' = logged d w := h'.log
    have hlength : (db.version.levels 0).length ≤ j := by
      rw [hversion]
      exact htop
    refine ⟨?_, ?_, fun hempty => ?_, hlength.trans hj, fun hfull => hlength.trans_lt (hlt ?_)⟩
    · rw [hoptions]
      exact hinline.1
    · rw [hoptions]
      exact hinline.2
    · rw [Drained, hd, hlog, ← hmem]
      exact hempty
    · rw [Drained, ← hmem, hfull]
      exact Bool.false_ne_true

/-- A section of a method in a process that stands. -/
theorem Standing.wp_trimmed {w : World} {db : DB} (hst : Standing none (¬mortal.fails) d w db b)
    (ht : db.Trimmed T k w) (hk : T ≤ k) (hpath : d.getLast? ≠ some separator) {op : Op}
    (hissued : op.Issued) (hinline : op.Inline T) (fuel : Nat) :
    wp mortal (op.prog fuel d (some db)) (fun r w' b' => Machine.Trimmed T k d b' ⟨w', r.2⟩)
      (fun _ _ => True) w b := by
  obtain ⟨tree, disk, hinv, hsettled⟩ := hst.inv
  obtain rfl : disk = tree := hsettled id
  obtain rfl := hst.dbPath
  cases op with
  | write opts batch =>
      refine wp_bind (wp_mono (wp_write_trimmed hinv ht hk fuel opts hissued) ?_ fun _ _ => id)
      exact fun r w' _ h' => wp_pure h'
  | flush =>
      refine wp_bind (wp_mono (wp_flush_trims hinv ht.trigger fuel) ?_ fun _ _ => id)
      exact fun r w' _ h' => wp_pure (h'.trimmed ht.inline ht.trigger ht.drained hk)
  | background =>
      refine wp_bind (wp_mono (wp_backgroundIteration_trimmed hinv ht hk fuel) ?_ fun _ _ => id)
      exact fun r w' _ h' => wp_pure h'
  | compact level =>
      refine wp_bind (wp_mono (wp_compactLocked_trimmed hinv ht level) ?_ fun _ _ => id)
      exact fun r w' _ h' => wp_pure h'
  | closeBegin =>
      refine wp_pure ?_
      rw [DB.closeBegin]
      split
      · exact ht
      · exact ht.congr rfl rfl rfl rfl rfl
  | closeEnd =>
      refine wp_ite (fun _ => ?_) fun _ => wp_pure ht
      refine wp_bind (wp_mono (wp_closeEnd_trimmed hinv ht) ?_ fun _ _ => id)
      exact fun r w' _ h' => wp_pure h'
  | reopen options =>
      refine wp_ite (fun _ => ?_) fun _ => wp_pure ht
      have htop : TopAtMost (db.version.levels 0).length disk.version.levels w := by
        rw [← hinv.holds.version]
        exact Nat.le_refl _
      refine wp_openObject_trimmed (hinv.rests htop) ht.top (fun hfull => ht.filled ?_) hpath
        hinline
      cases hempty : db.memtable.empty with
      | true => exact absurd (ht.drained hempty) hfull
      | false => rfl

theorem Machine.Trimmed.neat {n : Nat} (h : m.Trimmed T k d b) (hneat : m.Neat TopAtMost n d b) :
    m.Neat TopAtMost k d b := by
  obtain ⟨w, db?⟩ := m
  cases db? with
  | some db => exact ⟨hneat.1, DB.Trimmed.top h⟩
  | none =>
      obtain ⟨j, ⟨disk, hdisk, hb, htop⟩, hj, -⟩ := h
      exact ⟨disk, hdisk, hb, htop.trans hj⟩

theorem Machine.Trimmed.wp_prog (h : m.Trimmed T k d b) (hk : T ≤ k)
    (hst : m.Stands none (¬mortal.fails) d b) (hpath : d.getLast? ≠ some separator) {op : Op}
    (hissued : op.Issued) (hinline : op.Inline T) (fuel : Nat) :
    wp mortal (op.prog fuel d m.db) (fun r w' b' => Machine.Trimmed T k d b' ⟨w', r.2⟩)
      (fun _ _ => True) m.world b := by
  obtain ⟨w, db?⟩ := m
  cases db? with
  | some db => exact Standing.wp_trimmed hst h hk hpath hissued hinline fuel
  | none =>
      cases op with
      | reopen options =>
          obtain ⟨j, hrests, hj, hlt⟩ := h
          exact wp_openObject_trimmed hrests hj hlt hpath hinline
      | _ => exact wp_pure h

/-- A step keeps the bound if the process survives it, and a death adds two. -/
theorem Step.trimmed {A : Machine → Op → Nat → List Fault → Prop} {e : Event} {n : Nat}
    (hs : Step mortal A d m e t m') (h : m.Trimmed T k d b) (hk : T ≤ k)
    (hneat : m.Neat TopAtMost n d b) (hst : m.Stands none (¬mortal.fails) d b)
    (hpath : d.getLast? ≠ some separator) (he : e.Issued ∧ e.Inline T) (ht : t ≤ b) :
    m'.Trimmed T (k + 2 * [e].countP Event.dies) d (b - t) := by
  have hafter := (hs.neat (upkeep_topAtMost d) (h.neat hneat) hst hpath ht).2
  cases hs with
  | returned admits allowed run =>
      exact (h.wp_prog hk hst hpath he.1 he.2 _).of_returned admits run ht
  | crashed crashes admits allowed run =>
      exact ⟨k + 1, hafter, Nat.le_succ (k + 1), fun _ => Nat.lt_succ_self (k + 1)⟩
  | killed crashes =>
      exact ⟨k + 1, hafter, Nat.le_succ (k + 1), fun _ => Nat.lt_succ_self (k + 1)⟩

theorem Blank.trimmed {w : World} (h : Blank d w) (hb : 1 + b < 2 ^ 64) :
    Machine.Trimmed T T d b ⟨w, none⟩ := by
  refine ⟨0, h.neat hb (Nat.le_refl 0), Nat.zero_le T, fun hfull => absurd ?_ hfull⟩
  rw [Drained, logged, h.log]
  rfl

/-- The bound after a run counts the deaths in it. -/
theorem Run.trimmed {w : World} {es : List Event} (hblank : Blank d w)
    (hpath : d.getLast? ≠ some separator) (hr : Run mortal Free d ⟨w, none⟩ es t m)
    (hes : ∀ e ∈ es, e.Issued ∧ e.Inline T) (hb : t + b + 1 < 2 ^ 64) :
    m.Trimmed T (T + 2 * es.countP Event.dies) d b := by
  induction hr generalizing b with
  | start => exact hblank.trimmed (by omega)
  | @step es t t' m m' e run last ih =>
      have hbefore := ih (fun e he => hes e (List.mem_append_left _ he)) (b := t' + b) (by omega)
      obtain ⟨hneat, hst⟩ := run.neat_of_blank (upkeep_topAtMost d) hblank (Nat.le_refl 0) hpath
        (b := t' + b) (by omega)
      have hlast := last.trimmed hbefore (Nat.le_add_right T _) hneat hst hpath
        (hes e (List.mem_append_right _ List.mem_cons_self)) (Nat.le_add_right t' b)
      rwa [Nat.add_sub_cancel_left, Nat.add_assoc, ← Nat.mul_add, ← List.countP_append] at hlast

end Steps

section Runs

variable {T : Nat} {d : Path} {w : World} {db : DB} {es : List Event} {t : Nat} {m : Machine}

/-- Without a background thread L0 has at most as many tables as the largest
trigger, and two more for each death; fewer while there is something to flush. -/
theorem top_le_trigger (hblank : Blank d w) (hpath : d.getLast? ≠ some separator)
    (hr : Run mortal Free d ⟨w, none⟩ es t m) (hes : ∀ e ∈ es, e.Issued ∧ e.Inline T)
    (ht : t + 1 < 2 ^ 64) (hdb : m.db = some db) :
    (db.version.levels 0).length ≤ T + 2 * es.countP Event.dies ∧
      (db.memtable.empty = false →
        (db.version.levels 0).length < T + 2 * es.countP Event.dies) := by
  have hm := hr.trimmed hblank hpath hes (b := 0) ht
  rw [Machine.Trimmed, hdb] at hm
  exact ⟨hm.top, hm.filled⟩

/-- The sections of three processes: one closes with a write, the next dies in the
flush of a write, and the last closes with that write in the log. -/
def flushedTwice : List (Op × List Fault) :=
  let options : Options := { backgroundCompaction := false, l0CompactionTrigger := 1 }
  [(.reopen options, []), (.write {} (WriteBatch.put {} [0x61] [0x78]), []), (.closeBegin, []),
    (.closeEnd, []), (.reopen { options with memtableFlushBytes := 0 }, []),
    (.write {} (WriteBatch.put {} [0x62] [0x79]), List.replicate 21 .ok ++ [.crash 0]),
    (.reopen options, []), (.closeBegin, []), (.closeEnd, [])]

theorem flushedTwice_issued : ∀ p ∈ flushedTwice, p.1.Issued ∧ p.1.Inline 1 := by
  have hput : ∀ key value : UInt8, (Op.write {} (WriteBatch.put {} [key] [value])).Issued :=
    fun key value => ⟨[.put [key] [value]], by simp [BatchOp.Short], rfl⟩
  intro p hp
  simp only [flushedTwice, List.mem_cons, List.not_mem_nil, or_false] at hp
  rcases hp with rfl | rfl | rfl | rfl | rfl | rfl | rfl | rfl | rfl
  · exact ⟨trivial, rfl, Int.le_refl 1⟩
  · exact ⟨hput _ _, trivial⟩
  · exact ⟨trivial, trivial⟩
  · exact ⟨trivial, trivial⟩
  · exact ⟨trivial, rfl, Int.le_refl 1⟩
  · exact ⟨hput _ _, trivial⟩
  · exact ⟨trivial, rfl, Int.le_refl 1⟩
  · exact ⟨trivial, trivial⟩
  · exact ⟨trivial, trivial⟩

/-- With one death and the trigger one there are three tables in L0. -/
theorem top_le_trigger_flushedTwice : ∃ es t m db,
    Machine.execute 20 [0x64] ⟨⟨false, ∅⟩, none⟩ flushedTwice = some (es, t, m) ∧ m.db = some db ∧
    (db.version.levels 0).length = 3 ∧ es.countP Event.dies = 1 ∧
    (db.version.levels 0).length ≤ 1 + 2 * es.countP Event.dies ∧
      (db.memtable.empty = false →
        (db.version.levels 0).length < 1 + 2 * es.countP Event.dies) := by
  have hrun : ((Machine.execute 20 [0x64] ⟨⟨false, ∅⟩, none⟩ flushedTwice).any fun r =>
      decide (r.2.1 < 100 ∧ r.1.countP Event.dies = 1) &&
        r.2.2.db.any fun db => decide ((db.version.levels 0).length = 3)) = true := by
    set_option maxRecDepth 1000 in decide +kernel
  obtain ⟨⟨es, t, m⟩, hr, hm⟩ := (Option.any_eq_true ..).mp hrun
  obtain ⟨hdies, hdb⟩ := (Bool.and_eq_true ..).mp hm
  obtain ⟨ht, hdies⟩ := of_decide_eq_true hdies
  obtain ⟨db, hdb, htop⟩ := (Option.any_eq_true ..).mp hdb
  have ht' : t < 100 := ht
  have hes : ∀ e ∈ es, e.Issued ∧ e.Inline 1 :=
    events_of_execute (P := fun op => op.Issued ∧ op.Inline 1) (fun _ _ _ => id) (fun _ => id)
      flushedTwice_issued hr
  have hreached : Run mortal Free [0x64] ⟨⟨false, ∅⟩, none⟩ es t m := by
    have hquiet : (flushedTwice.all fun p => p.2.all fun f => !f.fails) = true := by decide
    refine Machine.run_of_execute (fun p hp => ⟨fun n hn => ?_, fun _ _ => trivial⟩)
      (fun _ _ _ => trivial) (Or.inl trivial) hr
    have hno := List.all_eq_true.mp (List.all_eq_true.mp hquiet p hp) _ hn
    cases hno
  exact ⟨es, t, m, db, hr, hdb, of_decide_eq_true htop, hdies,
    top_le_trigger ⟨rfl, rfl⟩ (by decide) hreached hes (by omega) hdb⟩

end Runs

end ClomDB
