import ClomDB.Rotation
import ClomDB.Created

/-!
# Which loops end

The loops over `NeedsCompactionLocked` and `CompactLocked` are the only ones
whose number of rounds is not bounded by the size of an input. Everything a
round calls ends, in every state and whatever its calls answer. The loops
themselves end because a compaction empties its level, if the trigger is
positive; with another trigger level 0 is chosen when it is empty.
-/

namespace ClomDB

open Std FaultProgram FaultProgram.Prog FileSystem FileSystem.World SSTable DB

section Calls

theorem ends_readVarintBytes (content : Bytes) (n pos : Nat) (tmp : Bytes) :
    Ends (readVarintBytes content n pos tmp) := by
  induction n generalizing pos tmp with
  | zero => exact ends_pure _
  | succ n ih =>
      rw [readVarintBytes]
      refine ends_callIf.bind fun r => ?_
      cases r with
      | nil => exact ends_pure _
      | cons b bs => exact Ends.ite (ends_pure _) (ih _ _)

theorem ends_readVarint (content : Bytes) (pos : Nat) : Ends (readVarint content pos) := by
  rw [readVarint]
  refine (ends_readVarintBytes _ _ _ _).bind fun r => ?_
  split
  · exact ends_pure _
  · split <;> exact ends_pure _

theorem ends_readString (content : Bytes) (pos len : Nat) : Ends (readString content pos len) := by
  rw [readString]
  exact Ends.ite (ends_pure _) (ends_callIf.bind fun _ => Ends.ite (ends_pure _) (ends_pure _))

theorem ends_readEntry (path : Path) (content : Bytes) (pos : Nat) :
    Ends (readEntry path content pos) := by
  rw [readEntry]
  refine ends_callIf.bind fun r => ?_
  cases r with
  | nil => exact ends_pure _
  | cons typeByte bs =>
      refine (ends_readVarint _ _).bind fun klen => ?_
      cases klen with
      | truncated => exact ends_pure _
      | malformed => exact ends_pure _
      | value klen pos =>
          refine (ends_readString _ _ _).bind fun key => ?_
          cases key with
          | none => exact ends_pure _
          | some key =>
              refine Ends.ite ((ends_readVarint _ _).bind fun vlen => ?_) (ends_pure _)
              cases vlen with
              | truncated => exact ends_pure _
              | malformed => exact ends_pure _
              | value vlen pos =>
                  refine (ends_readString _ _ _).bind fun value => ?_
                  cases value <;> exact ends_pure _

theorem ends_readEntries (path : Path) (content : Bytes) (n pos : Nat) :
    Ends (readEntries path content n pos) := by
  induction n generalizing pos with
  | zero => exact ends_pure _
  | succ n ih =>
      rw [readEntries]
      refine (ends_readEntry _ _ _).bind fun r => ?_
      cases r with
      | error s => exact ends_pure _
      | ok e =>
          refine (ih _).bind fun r => ?_
          cases r <;> exact ends_pure _

theorem ends_readAll (r : SSTableReader) : Ends r.readAll := by
  rw [SSTableReader.readAll]
  exact ends_state.bind fun _ => ends_callIf.bind fun _ =>
    Ends.ite (ends_pure _) (ends_readEntries _ _ _ _)

theorem ends_writeTable (path : Path) (entries : List SSTableEntry) (bits : Int) :
    Ends (SSTableWriter.write path entries bits) := by
  rw [SSTableWriter.write]
  refine Ends.ite (ends_pure _) (ends_callIf.bind fun r => ?_)
  cases r with
  | error n => exact ends_pure _
  | ok f =>
      refine ends_callIf.bind fun _ => Ends.ite (ends_pure _) (ends_callIf.bind fun _ =>
        Ends.ite (ends_pure _) ?_)
      split
      · exact ends_abort
      · exact ends_callIf.bind fun _ => Ends.ite (ends_pure _) (ends_callIf.bind fun _ =>
          Ends.ite (ends_pure _) (ends_callIf.bind fun _ => Ends.ite (ends_pure _) (ends_pure _)))

theorem ends_readBlock (content : Bytes) (offset size : UInt64) :
    Ends (readBlock content offset size) := by
  rw [readBlock]
  exact Ends.ite ends_abort (Ends.ite (ends_pure _) (ends_callIf.bind fun _ =>
    Ends.ite (ends_pure _) (ends_callIf.bind fun _ => Ends.ite (ends_pure _) (ends_pure _))))

theorem ends_openTable (held : Nat) (path : Path) : Ends (SSTableReader.open held path) := by
  rw [SSTableReader.open]
  refine ends_callIf.bind fun r => ?_
  cases r with
  | error n => exact ends_pure _
  | ok content =>
      refine ends_callIf.bind fun _ => Ends.ite (ends_pure _) (Ends.ite (ends_pure _)
        (ends_callIf.bind fun _ => Ends.ite (ends_pure _) (ends_callIf.bind fun _ =>
          Ends.ite (ends_pure _) (Ends.ite (ends_pure _) ((ends_readBlock _ _ _).bind
            fun r => ?_)))))
      cases r with
      | none => exact ends_pure _
      | some indexBuf =>
          dsimp only
          split
          · exact ends_pure _
          · refine (ends_readBlock _ _ _).bind fun r => ?_
            cases r <;> exact ends_pure _

theorem ends_saveVersion (v : Version) (path : Path) : Ends (v.save path) := by
  rw [Version.save]
  refine ends_callIf.bind fun r => ?_
  cases r with
  | error n => exact ends_pure _
  | ok f =>
      refine ends_callIf.bind fun _ => Ends.ite (ends_callIf.bind fun _ => ends_pure _)
        (ends_callIf.bind fun _ => Ends.ite (ends_callIf.bind fun _ => ends_pure _)
          (ends_callIf.bind fun r => ?_))
      cases r <;> exact ends_pure _

theorem ends_openWal (path : Path) : Ends (WriteAheadLog.open path) := by
  rw [WriteAheadLog.open]
  refine ends_callIf.bind fun r => ?_
  cases r <;> exact ends_pure _

theorem ends_closeWal (log : WriteAheadLog) : Ends log.close := by
  rw [WriteAheadLog.close]
  split
  · exact ends_pure _
  · refine Ends.bind ?_ fun r => ?_
    · rw [WriteAheadLog.sync]
      split
      · exact ends_pure _
      · exact ends_callIf.bind fun _ => Ends.ite (ends_pure _) (ends_callIf.bind fun _ =>
          Ends.ite (ends_pure _) (ends_pure _))
    · obtain ⟨s, log'⟩ := r
      dsimp only
      split
      · exact ends_pure _
      · exact ends_callIf.bind fun _ => ends_pure _

theorem ends_removeTables (dbPath : Path) (numbers : List UInt64) :
    Ends (removeTables dbPath numbers) := by
  induction numbers with
  | nil => exact ends_pure _
  | cons n ns ih => exact ends_callIf.bind fun _ => ih

theorem ends_mergeReaders (merged : ExtTreeMap Bytes SSTableEntry) (readers : List SSTableReader) :
    Ends (mergeReaders merged readers) := by
  induction readers generalizing merged with
  | nil => exact ends_pure _
  | cons r rs ih =>
      rw [mergeReaders]
      refine (ends_readAll r).bind fun e => ?_
      cases e with
      | error s => exact ends_pure _
      | ok entries => exact ih _

theorem ends_buildTable (db : DB) (held : Nat) (entries : List SSTableEntry) :
    Ends (db.buildTable held entries) := by
  rw [buildTable]
  refine ends_tick.bind fun _ => (ends_writeTable _ _ _).bind fun _ => Ends.ite (ends_pure _)
    (ends_callIf.bind fun _ => (ends_openTable _ _).bind fun r => ?_)
  cases r <;> exact ends_pure _

theorem ends_flushBatch (db : DB) (out : Output) (batch : List SSTableEntry) :
    Ends (db.flushBatch out batch) := by
  rw [flushBatch]
  refine Ends.ite (ends_pure _) ((ends_buildTable _ _ _).bind fun r => ?_)
  obtain ⟨built, db'⟩ := r
  cases built <;> exact ends_pure _

theorem ends_writeMerged (dropTombstones : Bool) (target : UInt64) (entries : List SSTableEntry)
    (db : DB) (out : Output) (batch : List SSTableEntry) (size : UInt64) :
    Ends (writeMerged dropTombstones target entries db out batch size) := by
  induction entries generalizing db out batch size with
  | nil => exact ends_flushBatch _ _ _
  | cons entry rest ih =>
      rw [writeMerged]
      exact Ends.ite (ih _ _ _ _) (Ends.ite ((ends_flushBatch _ _ _).bind fun _ =>
        Ends.ite (ends_pure _) (ih _ _ _ _)) (ih _ _ _ _))

theorem ends_compactLocked (db : DB) (level : Fin kMaxLevels) : Ends (db.compactLocked level) := by
  rw [compactLocked]
  split
  · exact ends_pure _
  refine (ends_mergeReaders _ _).bind fun merged => ?_
  cases merged with
  | error s => exact ends_pure _
  | ok merged =>
      refine (ends_writeMerged _ _ _ _ _ _ _).bind fun r => Ends.ite (ends_pure _) ?_
      rw [installOutput]
      exact (ends_saveVersion _ _).bind fun _ => Ends.ite (ends_pure _)
        ((ends_removeTables _ _).bind fun _ => ends_pure _)

theorem ends_flushMemTableLocked (db : DB) : Ends db.flushMemTableLocked := by
  rw [flushMemTableLocked]
  refine Ends.ite (ends_pure _) ((ends_buildTable _ _ _).bind fun r => ?_)
  obtain ⟨built, db'⟩ := r
  cases built with
  | error s => exact ends_pure _
  | ok p =>
      refine (ends_saveVersion _ _).bind fun _ => Ends.ite (ends_pure _) ?_
      rw [rotateWal]
      split
      · exact ends_abort
      · exact (ends_closeWal _).bind fun _ => Ends.ite (ends_pure _)
          (ends_callIf.bind fun _ => (ends_openWal _).bind fun _ => ends_pure _)

end Calls

section Loop

variable {db db' : DB} {w w' : World} {fs rest : List Fault} {s : Status} {t : Nat}

/-- An error has a status that says so. -/
def Honest {α : Type} (r : Except Status α) : Prop := ∀ s, r = .error s → s.ok = false

theorem honest_ok {α : Type} (a : α) : Honest (.ok a) := fun _ h => nomatch h

theorem honest_error {α : Type} {s : Status} (h : s.ok = false) : Honest (.error s : Except Status α) :=
  fun _ he => Except.error.inj he ▸ h

theorem wp_readEntry_honest (path : Path) (content : Bytes) (pos : Nat) (w : World) (b : Nat) :
    wp Env.hostile (readEntry path content pos) (fun r _ _ => Honest r) (fun _ _ => True) w b := by
  rw [readEntry]
  refine wp_any fun r w b => ?_
  cases r with
  | nil => exact wp_pure (honest_error rfl)
  | cons typeByte bs =>
      refine wp_any fun klen w b => ?_
      cases klen with
      | truncated => exact wp_pure (honest_error rfl)
      | malformed => exact wp_pure (honest_error rfl)
      | value klen pos =>
          refine wp_any fun key w b => ?_
          cases key with
          | none => exact wp_pure (honest_error rfl)
          | some key =>
              refine wp_ite (fun _ => wp_any fun vlen w b => ?_) fun _ => wp_pure (honest_ok _)
              cases vlen with
              | truncated => exact wp_pure (honest_error rfl)
              | malformed => exact wp_pure (honest_error rfl)
              | value vlen pos =>
                  refine wp_any fun value w b => ?_
                  cases value with
                  | none => exact wp_pure (honest_error rfl)
                  | some value => exact wp_pure (honest_ok _)

theorem wp_readEntries_honest (path : Path) (content : Bytes) (n pos : Nat) (w : World) (b : Nat) :
    wp Env.hostile (readEntries path content n pos) (fun r _ _ => Honest r) (fun _ _ => True) w b := by
  induction n generalizing pos w b with
  | zero => exact wp_pure (honest_ok _)
  | succ n ih =>
      rw [readEntries]
      refine wp_bind (wp_mono (wp_readEntry_honest path content pos w b) ?_ fun _ _ _ => trivial)
      intro r w b hr
      cases r with
      | error s => exact wp_pure (honest_error (hr s rfl))
      | ok e =>
          refine wp_bind (wp_mono (ih _ w b) ?_ fun _ _ _ => trivial)
          intro r w b hr
          cases r with
          | error s => exact wp_pure (honest_error (hr s rfl))
          | ok es => exact wp_pure (honest_ok _)

theorem wp_mergeReaders_honest (merged : ExtTreeMap Bytes SSTableEntry)
    (readers : List SSTableReader) (w : World) (b : Nat) :
    wp Env.hostile (mergeReaders merged readers) (fun r _ _ => Honest r) (fun _ _ => True) w b := by
  induction readers generalizing merged w b with
  | nil => exact wp_pure (honest_ok _)
  | cons r rs ih =>
      rw [mergeReaders]
      have hread : wp Env.hostile r.readAll (fun r _ _ => Honest r) (fun _ _ => True) w b := by
        rw [SSTableReader.readAll]
        exact wp_any fun _ w b => wp_any fun _ w b => wp_ite
          (fun _ => wp_pure (honest_error rfl)) fun _ => wp_readEntries_honest _ _ _ _ w b
      refine wp_bind (wp_mono hread ?_ fun _ _ _ => trivial)
      intro r w b hr
      cases r with
      | error s => exact wp_pure (honest_error (hr s rfl))
      | ok entries => exact ih _ w b

/-- A build changes nothing but the counter. -/
theorem wp_buildTable_withNext (db : DB) (held : Nat) (entries : List SSTableEntry) (w : World)
    (b : Nat) : wp Env.hostile (db.buildTable held entries)
      (fun r _ _ => ∃ next, r.2 = db.withNext next) (fun _ _ => True) w b := by
  rw [buildTable]
  refine wp_any fun _ w b => wp_any fun s w b => wp_ite (fun _ => wp_pure ⟨_, rfl⟩) fun _ =>
    wp_any fun size w b => wp_any fun r w b => ?_
  cases r <;> exact wp_pure ⟨_, rfl⟩

theorem wp_flushBatch_withNext (db : DB) (out : Output) (batch : List SSTableEntry) (w : World)
    (b : Nat) : wp Env.hostile (db.flushBatch out batch)
      (fun r _ _ => ∃ next, r.2.1 = db.withNext next) (fun _ _ => True) w b := by
  rw [flushBatch]
  refine wp_ite (fun _ => wp_pure ⟨db.version.nextFileNumber, rfl⟩) fun _ => ?_
  refine wp_bind (wp_mono (wp_buildTable_withNext db _ _ w b) ?_ fun _ _ _ => trivial)
  rintro ⟨built, db₁⟩ w b h
  cases built <;> exact wp_pure h

theorem wp_writeMerged_withNext (dropTombstones : Bool) (target : UInt64)
    (entries : List SSTableEntry) (db : DB) (out : Output) (batch : List SSTableEntry)
    (size : UInt64) (w : World) (b : Nat) :
    wp Env.hostile (writeMerged dropTombstones target entries db out batch size)
      (fun r _ _ => ∃ next, r.2.1 = db.withNext next) (fun _ _ => True) w b := by
  induction entries generalizing db out batch size w b with
  | nil => exact wp_flushBatch_withNext db out batch w b
  | cons entry rest ih =>
      rw [writeMerged]
      refine wp_ite (fun _ => ih db out batch size w b) fun _ => ?_
      refine wp_ite (fun _ => ?_) fun _ => ih db out _ _ w b
      refine wp_bind (wp_mono (wp_flushBatch_withNext db _ _ w b) ?_ fun _ _ _ => trivial)
      rintro ⟨s, db₁, out₁⟩ w b ⟨next, rfl⟩
      refine wp_ite (fun _ => wp_pure ⟨next, rfl⟩) fun _ => ?_
      refine wp_mono (ih _ out₁ [] 0 w b) ?_ fun _ _ _ => trivial
      rintro _ _ _ ⟨n, hn⟩
      exact ⟨n, hn⟩

/-- A compaction that ends well empties its level and fills the next one, in
every state and whatever its calls answer. -/
theorem compactLocked_levels {l l' : Fin kMaxLevels} (hl : l'.val = l.val + 1)
    (hr : db.compactLocked l w fs = .returned (s, db') w' rest t) (hs : s.ok = true) :
    db'.options = db.options ∧ db'.version.levels l = [] ∧
      ∀ m, m ≠ l → m ≠ l' → db'.version.levels m = db.version.levels m := by
  have hlast : ¬l.val + 1 ≥ kMaxLevels := by
    rw [← hl]
    exact Nat.not_le.mpr l'.isLt
  have hll : l ≠ l' := fun h => by rw [h] at hl; omega
  have htarget : (⟨l.val + 1, Nat.lt_of_not_le hlast⟩ : Fin kMaxLevels) = l' := Fin.ext hl.symm
  have hfailed : ∀ (s : Status) (db₁ : DB) (w : World) (b : Nat), s.ok = false →
      wp Env.hostile (pure (s, db₁)) (fun r _ _ => r.1.ok = true → r.2.version.levels l = [] ∧
        ∀ m, m ≠ l → m ≠ l' → r.2.version.levels m = db.version.levels m) (fun _ _ => True) w b :=
    fun s db₁ w b hs => wp_pure fun hok => by rw [hs] at hok; cases hok
  have hwp : wp Env.hostile (db.compactLocked l) (fun r _ _ => r.1.ok = true →
      r.2.version.levels l = [] ∧
        ∀ m, m ≠ l → m ≠ l' → r.2.version.levels m = db.version.levels m) (fun _ _ => True) w t := by
    rw [compactLocked, dif_neg hlast]
    simp only [htarget]
    refine wp_bind (wp_mono (wp_mergeReaders_honest _ _ w t) ?_ fun _ _ _ => trivial)
    intro merged w b hmerged
    cases merged with
    | error s => exact hfailed s db w b (hmerged s rfl)
    | ok merged =>
        refine wp_bind (wp_mono (wp_writeMerged_withNext _ _ _ db _ _ _ w b) ?_ fun _ _ _ => trivial)
        rintro ⟨s₁, db₁, out⟩ w b ⟨next, rfl⟩
        refine wp_ite (fun hs₁ => hfailed s₁ _ w b (by simpa using hs₁)) fun _ => ?_
        have hswitch : ((db.withNext next).switch l l' out).version.levels l = [] ∧
            ∀ m, m ≠ l → m ≠ l' →
              ((db.withNext next).switch l l' out).version.levels m = db.version.levels m := by
          constructor
          · simp only [DB.switch, Version.setLevel]
            rw [Function.update_of_ne hll, Function.update_self]
          · intro m hm hm'
            simp only [DB.switch, Version.setLevel]
            rw [Function.update_of_ne hm', Function.update_of_ne hm]
            rfl
        rw [installOutput]
        exact wp_any fun vs w b => wp_ite (fun _ => wp_pure fun _ => hswitch) fun _ =>
          wp_any fun _ w b => wp_pure fun _ => hswitch
  exact ⟨((keeps_compactLocked l).of_returned hr).shell.options,
    hwp.of_returned (Env.hostile_admits fs) hr (Nat.le_refl t) hs⟩

/-- With a positive trigger the loop over the levels ends after at most as many
rounds as the tables are levels away from the last one. -/
theorem ends_compactionLoop {fuel : Nat} (htrigger : 1 ≤ db.options.l0CompactionTrigger)
    (hfuel : (emptyWeight fun l => (db.version.levels l).isEmpty) < fuel) :
    Ends (compactionLoop fuel db) := by
  induction fuel generalizing db with
  | zero => exact absurd hfuel (Nat.not_lt_zero _)
  | succ fuel ih =>
      rw [compactionLoop]
      cases hneeds : db.needsCompactionLocked with
      | none => exact ends_pure _
      | some l =>
          obtain ⟨l', hl⟩ := needsCompactionLocked_next hneeds
          intro w fs t h
          rcases bind_running h with ⟨t', hrun⟩ | ⟨⟨s, db'⟩, w', rest, _, _, hr, hrun⟩
          · exact ends_compactLocked db l w fs t' hrun
          cases hs : s.ok with
          | false =>
              simp only [hs, Bool.not_false, if_true] at hrun
              exact ends_pure _ _ _ _ hrun
          | true =>
              simp only [hs, Bool.not_true, Bool.false_eq_true, if_false] at hrun
              obtain ⟨hoptions, hsource, hother⟩ := compactLocked_levels hl hr hs
              have hne := needsCompactionLocked_ne_nil hneeds htrigger
              have hlt : emptyWeight (fun l => (db'.version.levels l).isEmpty) <
                  emptyWeight fun l => (db.version.levels l).isEmpty :=
                emptyWeight_lt hl (by simpa using hne) (by rw [hsource, List.isEmpty_nil])
                  fun m hm hm' => by rw [hother m hm hm']
              exact ih (by rw [hoptions]; exact htrigger) (by omega) _ _ _ hrun

/-- The loops of `MaybeFlushLocked`, `Flush` and `BackgroundLoop` end after a
number of rounds that the state bounds, when no call fails. -/
def LoopsEnd (w : World) (db : DB) : Prop :=
  ∃ n, ∀ fuel fs t, n ≤ fuel → Env.calm.Admits fs →
    db.maybeFlushLocked fuel w fs ≠ .running t ∧ db.flush fuel w fs ≠ .running t ∧
      db.backgroundIteration fuel w fs ≠ .running t

/-- With a positive trigger a flush ends, with 15 compactions at most. -/
theorem ends_flush {fuel : Nat} (htrigger : 1 ≤ db.options.l0CompactionTrigger) (hfuel : 15 < fuel) :
    Ends (db.flush fuel) := by
  rw [flush]
  intro w fs t h
  rcases bind_running h with ⟨t', hrun⟩ | ⟨⟨s, db'⟩, w', rest, t₁, _, hr, hrun⟩
  · exact ends_flushMemTableLocked db w fs t' hrun
  have hshell := (shell_flushMemTableLocked db w t₁).of_returned (Env.hostile_admits fs) hr
    (Nat.le_refl t₁)
  cases hs : s.ok with
  | false =>
      simp only [hs, Bool.not_false, if_true] at hrun
      exact ends_pure _ _ _ _ hrun
  | true =>
      simp only [hs, Bool.not_true, Bool.false_eq_true, if_false] at hrun
      refine ends_compactionLoop ?_ (Nat.lt_of_le_of_lt (emptyWeight_le _) hfuel) _ _ _ hrun
      rw [hshell.options]
      exact htrigger

theorem loopsEnd_of_trigger (htrigger : 1 ≤ db.options.l0CompactionTrigger) : LoopsEnd w db := by
  refine ⟨16, fun fuel fs t hfuel _ => ⟨?_, ends_flush htrigger hfuel w fs t, ?_⟩⟩
  · rw [maybeFlushLocked]
    exact Ends.ite (ends_flush htrigger hfuel)
      (ends_compactionLoop htrigger (Nat.lt_of_le_of_lt (emptyWeight_le _) hfuel)) w fs t
  · have hflush : Ends (DB.flush fuel { db with bgWorkRequested := false }) :=
      ends_flush htrigger hfuel
    rw [backgroundIteration]
    exact Ends.ite (ends_pure _) (hflush.bind fun _ => ends_pure _) w fs t

end Loop

section Idle

variable {db : DB} {w : World} {b : Nat}

/-- Nothing is in the tables of the database, and its manifest fits a file. -/
structure Tableless (db : DB) : Prop where
  version : db.version.levels = fun _ => []
  readers : db.openReaders = fun _ => []

theorem Tableless.switch (h : Tableless db) (l l' : Fin kMaxLevels) : db.switch l l' {} = db := by
  have hversion : (db.version.setLevel l []).setLevel l' [] = db.version := by
    simp only [Version.setLevel, h.version, Function.update_eq_self]
    rw [← h.version]
  have hreaders : Function.update (Function.update db.openReaders l []) l' [] = db.openReaders := by
    simp only [h.readers, Function.update_eq_self]
  rw [DB.switch, hversion, hreaders]

/-- Compacting empty levels saves the manifest and changes nothing. -/
theorem Tableless.wp_compactLocked {E : Env} {Q : Status × DB → World → Nat → Prop}
    {C : World → Nat → Prop} (hf : ¬E.fails) (hc : ¬E.crashes) (h : Tableless db)
    (hQ : ∀ w', Q (.OK, db) w' b) : wp E (db.compactLocked 0) Q C w b := by
  have hreaders : db.openReaders 1 ++ db.levelReaders 0 = [] := by
    simp [levelReaders, h.version, h.readers]
  have hfit : db.version.encode.length ≤ maxFileBytes := by
    refine Nat.le_trans (@Version.encode_length_le _ 0 fun l fm hfm => ?_) ?_
    · rw [h.version] at hfm
      cases hfm
    · rw [h.version]
      decide
  rw [compactLocked, dif_neg (by decide)]
  change wp E (mergeReaders ∅ (db.openReaders 1 ++ db.levelReaders 0) >>= _) Q C w b
  rw [hreaders]
  refine wp_bind (wp_pure ?_)
  have hnothing : ((∅ : ExtTreeMap Bytes SSTableEntry).toList.map Prod.snd) = [] := by simp
  simp only [hnothing]
  rw [writeMerged, flushBatch, if_pos rfl]
  refine wp_bind (wp_pure ?_)
  simp only [Status.ok_OK, Bool.not_true, Bool.false_eq_true, if_false]
  refine wp_installOutput (Or.inr ?_) (fun hf' => absurd hf' hf) (fun _ w' _ _ _ => ?_)
    (fun hc' => absurd hc' hc) fun hc' => absurd hc' hc
  · rw [h.switch]
    exact hfit
  · rw [h.switch]
    exact hQ w'

/-- A trigger that is not positive chooses level 0 also when it is empty. -/
theorem Tableless.needsCompactionLocked (h : Tableless db)
    (htrigger : db.options.l0CompactionTrigger ≤ 0) : db.needsCompactionLocked = some 0 := by
  have hzero : (Int32.ofNat 0).toInt = 0 := rfl
  rw [DB.needsCompactionLocked, h.version, List.length_nil, hzero]
  exact if_pos htrigger

/-- The loop over empty levels never returns with such a trigger. -/
theorem Tableless.wp_compactionLoop (h : Tableless db)
    (htrigger : db.options.l0CompactionTrigger ≤ 0) (fuel : Nat) :
    wp ⟨False, False, True, False⟩ (compactionLoop fuel db) (fun _ _ _ => False)
      (fun _ _ => False) w b := by
  induction fuel generalizing w with
  | zero => exact wp_outOfFuel trivial
  | succ fuel ih =>
      rw [compactionLoop, h.needsCompactionLocked htrigger]
      refine wp_bind (h.wp_compactLocked id id fun w' => ?_)
      simp only [Status.ok_OK, Bool.not_true, Bool.false_eq_true, if_false]
      exact ih

/-- A flush of an empty memtable is the loop. -/
theorem Tableless.flush_running (h : Tableless db) (hmem : db.memtable.empty = true)
    (htrigger : db.options.l0CompactionTrigger ≤ 0) (fuel : Nat) :
    ∃ t, db.flush fuel w [] = .running t := by
  have hflush : ∀ b, wp ⟨False, False, True, False⟩ (db.flush fuel) (fun _ _ _ => False)
      (fun _ _ => False) w b := by
    intro b
    rw [flush, flushMemTableLocked, if_pos hmem]
    exact wp_bind (wp_pure (h.wp_compactionLoop htrigger fuel))
  have hadmits := Env.admits_nil ⟨False, False, True, False⟩
  cases hr : db.flush fuel w [] with
  | returned a w' rest t =>
      exact ((hflush t).of_returned hadmits hr (Nat.le_refl t)).elim
  | crashed w' t => exact ((hflush t).of_crashed hadmits hr (Nat.le_refl t)).elim
  | running t => exact ⟨t, rfl⟩
  | impossible t =>
      have himpossible := hflush t [] hadmits
      rw [hr] at himpossible
      exact (himpossible (Nat.le_refl t)).elim

/-- The loops end in every state that a run without a failing call reaches. -/
def AlwaysEnd (trigger : Int) : Prop :=
  ∀ (d : Path) (w : World) (es : List Event) (t : Nat) (m : Machine) (db : DB), Blank d w →
    Run Env.calm Free d ⟨w, none⟩ es t m → m.db = some db →
      db.options.l0CompactionTrigger = trigger → LoopsEnd m.world db

/-- With a trigger that is not positive the first flush of a new database goes
on forever. -/
theorem not_alwaysEnd {trigger : Int} (htrigger : trigger ≤ 0) : ¬AlwaysEnd trigger := by
  intro hends
  obtain ⟨_, t, w, db, hrun, hcreated⟩ :=
    Created.run { l0CompactionTrigger := trigger } rfl [0x64]
  have hoption : db.options.l0CompactionTrigger = trigger := by rw [hcreated.options]
  obtain ⟨n, hn⟩ := hends _ _ _ t _ db ⟨rfl, rfl⟩ hrun rfl hoption
  have htableless : Tableless db := ⟨by rw [hcreated.version], hcreated.readers⟩
  obtain ⟨t', hrunning⟩ : ∃ t', db.flush n w [] = .running t' := htableless.flush_running (by rw [hcreated.memtable]; rfl)
    (hoption ▸ htrigger) n
  exact (hn n [] t' (Nat.le_refl n) (Env.admits_nil _)).2.1 hrunning

/-- The loops over the levels end for every state and every other option exactly
when the trigger is positive. -/
theorem alwaysEnd_iff (trigger : Int) : AlwaysEnd trigger ↔ 1 ≤ trigger := by
  constructor
  · intro hends
    by_contra hnot
    exact not_alwaysEnd (by omega) hends
  · intro htrigger d w es t m db _ _ _ hoption
    exact loopsEnd_of_trigger (by rw [hoption]; exact htrigger)

theorem zeroTrigger_runs : ¬∀ trigger : Int, AlwaysEnd trigger := fun h =>
  not_alwaysEnd (Int.le_refl 0) (h 0)

end Idle

end ClomDB
