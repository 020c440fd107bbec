import ClomDB.System

/-!
# A database that has just been created

`Open` in a directory that does not exist, when no call fails: it creates the
directory, an empty log and a manifest without tables.
-/

namespace ClomDB

open FaultProgram FileSystem FileSystem.World DB

/-- An object without tables on an empty log. -/
structure Created (options : Options) (d : Path) (w : World) (db : DB) : Prop where
  dbPath : db.dbPath = d
  options : db.options = options
  memtable : db.memtable = {}
  version : db.version = {}
  readers : db.openReaders = fun _ => []
  log : db.LogOpen
  closed : db.closed = false
  file : w.bytes (walPath d) = some []

section Open

variable {E : Env} {C : World → Nat → Prop} {w : World} {b : Nat} {db : DB} {d : Path}

theorem openLevels_empty (h : ∀ l, db.version.levels l = []) (lvls : List (Fin kMaxLevels)) :
    db.openLevels lvls = pure (.OK, db) := by
  induction lvls with
  | nil => rfl
  | cons l lvls ih =>
      rw [openLevels, h l, openLevel, pure_bind]
      exact ih

/-- No file is in the directory. -/
def NoFiles (w : World) : Prop := ∀ q, w.file q = none

theorem NoFiles.bytes (h : NoFiles w) (q : Path) : w.bytes q = none := by
  rw [World.bytes, h q]
  rfl

/-- `Open` of an object in a directory without files, when no call fails. -/
theorem wp_openBody_created {options : Options} {Q : Status × DB → World → Nat → Prop}
    (hf : ¬E.fails) (hc : ¬E.crashes) (hw : NoFiles w)
    (hQ : ∀ db w', Created options d w' db → Q (.OK, db) w' b) :
    wp E (openBody { dbPath := d, options := options } false) Q C w b := by
  have hlog : ∀ w', NoFiles w' → wp E (openLog { dbPath := d, options := options } false) Q C w' b := by
    intro w' hw'
    rw [openLog]
    refine wp_bind (WriteAheadLog.wp_open (fun w₁ _ hb => ?_) (fun hf' => absurd hf' hf)
      fun hc' => absurd hc' hc)
    simp only [Status.ok_OK, Bool.not_true, Bool.false_eq_true, if_false]
    refine wp_bind (Version.wp_save (Or.inr (by decide)) (fun w₂ hw₂ => ?_)
      (fun hf' => absurd hf' hf) fun hc' => absurd hc' hc)
    refine wp_pure (hQ _ w₂ ⟨rfl, rfl, rfl, rfl, rfl, rfl, rfl, ?_⟩)
    rw [World.bytes, hw₂.file _ (wal_ne_manifest d) (wal_ne_tmp d), ← World.bytes, hb, hw'.bytes]
    rfl
  rw [openBody_eq]
  refine wp_observes (Version.observes_load_missing (hw.bytes _) _) (fun hc' => absurd hc' hc)
    fun r hr => ?_
  obtain ⟨s, v⟩ := r
  obtain ⟨hv, hs, hwhy⟩ := hr
  obtain rfl : v = {} := hv
  have hs' : s.ok = false := hs
  have hnf : s.isNotFound = true := hwhy.resolve_right hf
  simp only [hs', hnf, Bool.not_false, Bool.not_true, Bool.false_eq_true, and_false, if_false]
  refine wp_bind (wp_sweep (fun w' hw' _ => ?_) fun hc' => absurd hc' hc)
  have hgone : NoFiles w' := fun q => hw'.file_eq_none (hw q)
  rw [openTables, openLevels_empty fun _ => rfl, pure_bind]
  simp only [Status.ok_OK, Bool.not_true, Bool.false_eq_true, if_false]
  refine wp_observes (WriteAheadLog.observes_replayAll_missing (hgone.bytes _))
    (fun hc' => absurd hc' hc) fun r hr => ?_
  obtain rfl := hr.resolve_right hf
  exact hlog w' hgone

/-- `Open` in a directory that does not exist, when no call fails. -/
theorem wp_openObject_created {options : Options} {Q : Status × Option DB → World → Nat → Prop}
    (hf : ¬E.fails) (hc : ¬E.crashes) (hcreate : options.createIfMissing = true)
    (hQ : ∀ db w', Created options d w' db → Q (.OK, some db) w' b) :
    wp E (openObject d options) Q C ⟨false, ∅⟩ b := by
  have hexists : Observes E directoryExists (· = false) ⟨false, ∅⟩ :=
    Observes.probe rfl fun hf' => absurd hf' hf
  rw [openObject, DB.open]
  refine wp_bind (wp_observes hexists (fun hc' => absurd hc' hc) fun existed hex => ?_)
  subst hex
  simp only [Bool.not_false, true_and, Bool.false_eq_true, false_and, if_false, ensureDirectory,
    hcreate, Bool.not_true]
  refine wp_bind (wp_call ?_ (fun hf' => absurd hf' hf) fun hc' => absurd hc' hc)
  refine wp_bind (wp_openBody_created hf hc (fun q => rfl) fun db w' h => ?_)
  simp only [Status.ok_OK, Bool.not_true, Bool.false_eq_true, if_false]
  exact wp_pure (wp_pure (hQ db w' h))

end Open

/-- A run that only creates a database. -/
theorem Created.run (options : Options) (hcreate : options.createIfMissing = true) (d : Path) :
    ∃ e t w db, Run Env.calm Free d ⟨⟨false, ∅⟩, none⟩ [.returned (.reopen options) false e] t
      ⟨w, some db⟩ ∧ Created options d w db := by
  obtain ⟨⟨s, db?⟩, w, rest, t, hr, db, hdb, hcreated⟩ := wp.returns fun b =>
    show wp Env.sure (openObject d options) (fun r w' _ => ∃ db, r.2 = some db ∧
        Created options d w' db) (fun _ _ => False) ⟨false, ∅⟩ b from
      wp_openObject_created id id hcreate fun db w' h => ⟨db, rfl, h⟩
  obtain rfl : db? = some db := hdb
  have hprog : Op.prog 0 d (.reopen options) none ⟨false, ∅⟩ [] =
      .returned (s, some db) w rest t := hr
  have hstep : Step Env.calm Free d ⟨⟨false, ∅⟩, none⟩ (.returned (.reopen options) false s) t
      ⟨w, some db⟩ := .returned (Env.admits_nil _) trivial hprog
  exact ⟨s, t, w, db, hstep.run, hcreated⟩

end ClomDB
