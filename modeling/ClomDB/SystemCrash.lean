import ClomDB.Durability

/-!
# Crashes of the operating system

At a crash of the operating system every file keeps its durable bytes and any
further ones up to some point. A database survives as long as its directory has
no manifest: the manifest is renamed into place without a single durable byte,
and one that is lost takes every table and every synced write with it.

## Implementation notes

Files are created, renamed and removed durably and in order.
-/

namespace ClomDB

open FaultProgram FileSystem FileSystem.World LayeredMap SSTable DB WriteAheadLog

/-- What a crash of the operating system leaves of a file. -/
def File.Cut (f f' : File) : Prop := ∃ n, f.synced ≤ n ∧ f'.data = f.data.take n

/-- What a crash of the operating system leaves of a directory. -/
structure SystemCrash (w w' : World) : Prop where
  directory : w'.directory = w.directory
  kept : ∀ p f, w.file p = some f → ∃ f', w'.file p = some f' ∧ File.Cut f f'
  missing : ∀ p, w.file p = none → w'.file p = none

/-- The options of the object that is open after a step. -/
def Event.options : Event → Options → Options
  | .returned (.reopen options) false s, o => if s.ok then options else o
  | _, o => o

def optionsAfter (es : List Event) : Options := es.foldl (fun o e => e.options o) {}

/-- A synced write that has returned OK, under the options of its object. -/
def Event.synced (o : Options) : Event → Bool
  | .returned (.write opts batch) true s => !batch.empty && s.ok && (opts.sync || o.syncWrites)
  | _ => false

/-- The last of some steps is a synced write that has returned OK. -/
def SyncedTo (es : List Event) : Prop :=
  ∃ es₀ e, es = es₀ ++ [e] ∧ e.synced (optionsAfter es₀) = true

/-- What a step does to the map: a write that has not returned OK may be in it. -/
def Event.Records : Event → Content → Content → Prop
  | .returned (.write _ batch) true s, c, c' =>
      s.ok = true ∧ c' = (if batch.empty then c else batch.after c) ∨
        s.ok = false ∧ (c' = c ∨ c' = batch.after c)
  | .crashed (.write _ batch), c, c' => c' = c ∨ c' = batch.after c
  | _, c, c' => c' = c

/-- The maps that some steps may lead to. -/
inductive Recorded : List Event → Content → Prop where
  | start : Recorded [] fun _ => none
  | step {es : List Event} {e : Event} {c c' : Content} (h : Recorded es c)
      (records : e.Records c c') : Recorded (es ++ [e]) c'

/-- Whatever a crash of the operating system leaves, `Open` shows the map after some
of the steps, and these are at least those up to the last synced write. -/
def SyncedSurvive (d : Path) (es : List Event) (w : World) : Prop :=
  ∀ w', SystemCrash w w' → ∃ es₁ c, es₁ <+: es ∧
    (∀ es₂, SyncedTo es₂ → es₂ <+: es → es₂ <+: es₁) ∧ Recorded es₁ c ∧ ∀ b, Reopens d w' c b

/-- The log is made of whole records. -/
def Unbroken (d : Path) (w : World) : Prop :=
  (records (logFile d w).data).flatMap frame = (logFile d w).data

instance (d : Path) (w : World) : Decidable (Unbroken d w) := inferInstanceAs (Decidable (_ = _))

/-- The condition on one step: nothing is appended to a log that ends in a torn
frame, and a record fits its length field. -/
def Cleanly (d : Path) (m : Machine) (op : Op) (_ : Nat) (_ : List Fault) : Prop :=
  match op with
  | .write _ batch => ∀ db, m.db = some db → batch.empty = false → db.closed = false →
      batch.rep.length < 2 ^ 32 ∧ Unbroken d m.world
  | _ => True

/-- The map of some records. -/
abbrev recordedContent (recs : List Bytes) : Content := restoredContent Tree.initial recs

/-- How much of some steps the log holds: its records are all of them, and any part of
it with the durable bytes holds the steps up to the last synced write. -/
structure Journal (es : List Event) (f : File) : Prop where
  full : Recorded es (recordedContent (records f.data))
  begun : ∀ j, f.synced ≤ j → ∃ es₁, es₁ <+: es ∧ (∀ es₂, SyncedTo es₂ → es₂ <+: es → es₂ <+: es₁) ∧
    Recorded es₁ (recordedContent (records (f.data.take j)))

section Records

theorem parseFrame_short {data buf rest : Bytes} (h : parseFrame data = some (buf, rest)) :
    buf.length < 2 ^ 32 := by
  simp only [parseFrame] at h
  split at h
  next => cases h
  next =>
    split at h
    next => cases h
    next =>
      split at h
      next => cases h
      next =>
        obtain ⟨rfl, -⟩ := Prod.mk.inj (Option.some.inj h)
        exact Nat.lt_of_le_of_lt (List.length_take_le _ _) (UInt32.toNat_lt _)

/-- No record of a log is longer than its length field can say. -/
theorem records_short (data : Bytes) : ∀ r ∈ records data, r.length < 2 ^ 32 := by
  have hloop : ∀ fuel data, ∀ r ∈ recordsLoop fuel data, r.length < 2 ^ 32 := by
    intro fuel
    induction fuel with
    | zero => exact fun _ _ hr => absurd hr List.not_mem_nil
    | succ fuel ih =>
        intro data r hr
        rw [recordsLoop] at hr
        cases hp : parseFrame data with
        | none =>
            simp only [hp] at hr
            exact absurd hr List.not_mem_nil
        | some p =>
            simp only [hp] at hr
            rcases List.mem_cons.mp hr with rfl | hr
            · exact parseFrame_short hp
            · exact ih _ r hr
  exact hloop _ data

theorem recordedContent_snoc (recs : List Bytes) (batch : WriteBatch) :
    recordedContent (recs ++ [batch.rep]) = batch.after (recordedContent recs) := by
  rw [recordedContent, restoredContent, logLayer_snoc, overlay_assoc, view_overlay_opsLayer]
  rfl

/-- A part of a frame behind whole records is no record, and all of it is one. -/
theorem records_appended {data rep : Bytes} (hdata : (records data).flatMap frame = data)
    (hlen : rep.length < 2 ^ 32) (n : Nat) : records (data ++ (frame rep).take n) =
      if (frame rep).length ≤ n then records data ++ [rep] else records data := by
  have hsplit := records_frames (records_short data) ((frame rep).take n)
  rw [hdata] at hsplit
  rw [hsplit]
  split
  next hn =>
    have hone := @records_frames [rep] (by simpa using hlen) []
    rw [List.flatMap_singleton, List.append_nil, records_nil, List.append_nil] at hone
    rw [List.take_of_length_le hn, hone]
  next hn =>
    have hrest : (frame rep).drop n ≠ [] := fun hnil => hn (List.drop_eq_nil_iff.mp hnil)
    rw [records_torn hlen (List.take_append_drop n _).symm hrest, List.append_nil]

end Records

section Journal

variable {es : List Event} {e : Event} {f f' : File}

theorem Recorded.nil {c : Content} (h : Recorded [] c) : c = fun _ => none := by
  generalize hes : ([] : List Event) = es at h
  cases h with
  | start => rfl
  | step => simp at hes

theorem not_syncedTo_nil : ¬SyncedTo [] := by
  rintro ⟨es₀, e, hes, -⟩
  simp at hes

/-- A beginning of some steps that are not all of them. -/
theorem prefix_of_prefix_snoc {es₂ : List Event} (h : es₂ <+: es ++ [e]) (hne : es₂ ≠ es ++ [e]) :
    es₂ <+: es := (List.prefix_concat_iff.mp h).resolve_left hne

/-- The log of an empty directory. -/
theorem Journal.start (hdata : f.data = []) : Journal [] f := by
  have hcontent : recordedContent [] = fun _ => none := rfl
  refine ⟨?_, fun j _ => ⟨[], List.prefix_refl _, fun es₂ _ h => h, ?_⟩⟩
  · rw [hdata, records_nil, hcontent]
    exact .start
  · rw [hdata, List.take_nil, records_nil, hcontent]
    exact .start

/-- A step that is no synced write and need not change the map may leave the bytes alone. -/
theorem Journal.quiet (h : Journal es f) (hdata : f'.data = f.data) (hsynced : f.synced ≤ f'.synced)
    (hrecords : ∀ c, e.Records c c) (hnot : ¬SyncedTo (es ++ [e])) : Journal (es ++ [e]) f' := by
  refine ⟨?_, fun j hj => ?_⟩
  · rw [hdata]
    exact h.full.step (hrecords _)
  · obtain ⟨es₁, hes₁, hall, hrec⟩ := h.begun j (Nat.le_trans hsynced hj)
    rw [hdata]
    refine ⟨es₁, hes₁.trans (List.prefix_append _ _), fun es₂ hes₂ hpre => ?_, hrec⟩
    exact hall es₂ hes₂ (prefix_of_prefix_snoc hpre fun heq => hnot (heq ▸ hes₂))

/-- A step that appends a part of the frame of its batch. Only one that need not
change the map may leave a torn frame, and a synced write leaves a durable one. -/
theorem Journal.append {batch : WriteBatch} {n : Nat} (h : Journal es f)
    (hwhole : (records f.data).flatMap frame = f.data) (hlen : batch.rep.length < 2 ^ 32)
    (hdata : f'.data = f.data ++ (frame batch.rep).take n) (hsynced : f.synced ≤ f'.synced)
    (htorn : n < (frame batch.rep).length → ∀ c, e.Records c c)
    (hlogged : (frame batch.rep).length ≤ n → ∀ c, e.Records c (batch.after c))
    (hlast : SyncedTo (es ++ [e]) →
      (frame batch.rep).length ≤ n ∧ f'.synced = f'.data.length) : Journal (es ++ [e]) f' := by
  have hfull : Recorded (es ++ [e]) (recordedContent (records f'.data)) := by
    rw [hdata, records_appended hwhole hlen]
    split
    next hn =>
      rw [recordedContent_snoc]
      exact h.full.step (hlogged hn _)
    next hn => exact h.full.step (htorn (by omega) _)
  refine ⟨hfull, fun j hj => ?_⟩
  by_cases hall : f'.data.length ≤ j
  · rw [List.take_of_length_le hall]
    exact ⟨es ++ [e], List.prefix_refl _, fun es₂ _ hpre => hpre, hfull⟩
  have hnot : ¬SyncedTo (es ++ [e]) := fun hs => hall ((hlast hs).2 ▸ hj)
  have hbefore : ∀ {es₂}, SyncedTo es₂ → es₂ <+: es ++ [e] → es₂ <+: es := fun hes₂ hpre =>
    prefix_of_prefix_snoc hpre fun heq => hnot (heq ▸ hes₂)
  by_cases hold : j ≤ f.data.length
  · -- the part ends in what was there before
    obtain ⟨es₁, hes₁, hsome, hrec⟩ := h.begun j (Nat.le_trans hsynced hj)
    refine ⟨es₁, hes₁.trans (List.prefix_append _ _), fun es₂ hes₂ hpre =>
      hsome es₂ hes₂ (hbefore hes₂ hpre), ?_⟩
    rw [hdata, List.take_append_of_le_length hold]
    exact hrec
  · -- it ends in the new frame
    have hpart : f'.data.take j = f.data ++ (frame batch.rep).take (j - f.data.length) := by
      rw [hdata, List.take_append, List.take_of_length_le (by omega), List.take_take, Nat.min_eq_left]
      rw [hdata, List.length_append, List.length_take] at hall
      omega
    have hshort : ¬(frame batch.rep).length ≤ j - f.data.length := fun hle => hall (by
      rw [hdata, List.length_append, List.length_take]
      omega)
    refine ⟨es, List.prefix_append _ _, fun es₂ hes₂ hpre => hbefore hes₂ hpre, ?_⟩
    rw [hpart, records_appended hwhole hlen, if_neg hshort]
    exact h.full

end Journal

/-- The object of the process belongs to the directory and has some options. -/
def Machine.Placed (d : Path) (o : Options) (m : Machine) : Prop :=
  ∀ db, m.db = some db → db.dbPath = d ∧ db.options = o ∧ db.LogAt m.world

/-- What a write leaves of the log, with its status if it returned. -/
inductive WriteLeaves (d : Path) (db : DB) (opts : WriteOptions) (batch : WriteBatch) (w : World) :
    Option Status → World → Prop where
  | nothing {s? : Option Status} {w' : World} (gains : Gains d [] w w')
      (ok : ∀ s ∈ s?, s.ok = true → batch.empty = true) : WriteLeaves d db opts batch w s? w'
  | part {s? : Option Status} {w' : World} {n : Nat} (filled : batch.empty = false)
      (running : db.closed = false) (gains : Gains d ((frame batch.rep).take n) w w')
      (ok : ∀ s ∈ s?, s.ok = true → (frame batch.rep).length ≤ n ∧
        ((opts.sync || db.options.syncWrites) = true → w'.file (manifestPath d) = none →
          (logFile d w').synced = (logFile d w').data.length)) : WriteLeaves d db opts batch w s? w'

section Steps

variable {d : Path} {o : Options} {w w' : World} {db : DB} {b t : Nat} {m m' : Machine}
  {fs : List Fault}

/-- After a record is logged `Write` appends nothing more. -/
theorem wp_finishWrite_carries (fuel : Nat) (batch : WriteBatch) (hd : db.dbPath = d)
    (hlog : db.LogAt w) :
    wp Env.hostile (db.finishWrite fuel batch)
      (fun r w' _ => Gains d [] w w' ∧ SameShell db r.2 ∧ r.2.LogAt w')
      (fun w' _ => Gains d [] w w') w b := by
  have happlied : SameShell db (db.applied batch) := ⟨rfl, rfl, rfl, rfl⟩
  simp only [finishWrite, applyBatchLocked_eq]
  refine wp_ite (fun _ => wp_pure ⟨Gains.refl d w, happlied, hlog⟩) fun _ => ?_
  refine wp_ite (fun _ => wp_pure ⟨Gains.refl d w, ⟨rfl, rfl, rfl, rfl⟩, hlog⟩) fun _ => ?_
  exact wp_mono (@wp_maybeFlushLocked_carries _ (db.applied batch) _ _ fuel hd hlog)
    (fun _ _ _ h => ⟨h.gains, happlied.trans h.shell, h.log⟩) fun _ _ h => h

/-- A synced append that ends well leaves a durable log. -/
theorem addRecord_durable {path : Path} {data : Bytes} {sync : Bool} {log : WriteAheadLog}
    {rest : List Fault} (hr : WriteAheadLog.addRecord ⟨some ⟨path, []⟩, path⟩ data sync w fs =
      .returned (.OK, log) w' rest t) (hsync : sync = true) : w'.Durable path :=
  (wp_addRecord (Q := fun r w' _ => r.1.ok = true → sync = true → w'.Durable path)
    (C := fun _ _ => True) rfl (Or.inl trivial) (fun _ _ h _ => h)
    (fun _ s _ _ hs _ hok => by rw [hs] at hok; cases hok) fun _ _ _ _ => trivial).of_returned
      (b := t) (Env.hostile_admits fs) hr (Nat.le_refl t) rfl hsync

theorem meets_write_leaves (fuel : Nat) (opts : WriteOptions) (batch : WriteBatch)
    (hd : db.dbPath = d) (hlog : db.LogAt w) :
    (db.write fuel opts batch w fs).Meets Env.hostile
      (fun r w' _ => WriteLeaves d db opts batch w (some r.1) w' ∧ SameShell db r.2 ∧ r.2.LogAt w')
      (fun w' _ => WriteLeaves d db opts batch w none w') b := by
  rcases hlog with hnone | hwal
  · have hdies : wp Env.hostile (db.write fuel opts batch)
        (fun r w' _ => WriteLeaves d db opts batch w (some r.1) w' ∧ SameShell db r.2 ∧ r.2.LogAt w')
        (fun w' _ => WriteLeaves d db opts batch w none w') w b := by
      rw [DB.write]
      refine wp_ite (fun he => wp_pure ⟨.nothing (Gains.refl d w) fun _ _ _ => he, SameShell.refl db,
        Or.inl hnone⟩) fun _ => wp_ite (fun _ => wp_pure ⟨.nothing (Gains.refl d w) ?_,
          SameShell.refl db, Or.inl hnone⟩) fun _ => ?_
      · rintro _ ⟨⟩ hok
        cases hok
      · rw [hnone]
        exact wp_abort (.nothing (Gains.refl d w) (by simp))
    exact hdies fs (Env.hostile_admits fs)
  subst hd
  have hgrew : ∀ {x : Bytes} {w₁} {log}, db.Writes batch log → Grew (walPath db.dbPath) x w w₁ →
      Gains db.dbPath x w w₁ := fun hwrites hw₁ => .of_grew hw₁ fun hnone =>
    (hwrites.logOpen hwal).2 (by rw [World.bytes, hnone]; rfl)
  have hkept : ∀ {x : Bytes} {w₁} {log}, db.Writes batch log →
      Grew (walPath db.dbPath) x w w₁ → db.LogAt w₁ := fun hwrites hw₁ => by
    obtain ⟨hopen, hfile⟩ := hwrites.logOpen hwal
    refine Or.inr (Or.inr ⟨hopen, ?_⟩)
    rw [hw₁.bytes]
    simpa using hfile
  refine meets_write hwal (fun s hs => ⟨.nothing (Gains.refl _ w) ?_, SameShell.refl db,
    Or.inr hwal⟩) (fun log w₁ t n hwrites _ hr hw₁ => ?_)
    (fun log s w₁ rest t n hwrites _ hr hs hw₁ => ?_) fun log w₁ rest t hwrites _ hr hw₁ => ?_
  · rintro _ ⟨⟩ hok
    rwa [hs] at hok
  · exact .part hwrites.filled hwrites.running (hgrew hwrites hw₁) (by simp)
  · refine ⟨.part hwrites.filled hwrites.running (hgrew hwrites hw₁) ?_, SameShell.refl db,
      hkept hwrites hw₁⟩
    rintro _ ⟨⟩ hok
    rw [show s.ok = true from hok] at hs
    cases hs
  · -- the record is in the log as a whole
    have hall : (frame batch.rep).take (frame batch.rep).length = frame batch.rep :=
      List.take_length
    have hgains := hgrew hwrites hw₁
    obtain ⟨hopen, hfile⟩ := hwrites.logOpen hwal
    have hdurable : (opts.sync || db.options.syncWrites) = true →
        (logFile db.dbPath w₁).synced = (logFile db.dbPath w₁).data.length := fun hsync => by
      have hlog := hwrites.wal
      rw [show db.wal = _ from hopen] at hlog
      obtain rfl := Option.some.inj hlog
      have hdur := addRecord_durable hr hsync
      obtain ⟨f, hf⟩ : ∃ f, w.file (walPath db.dbPath) = some f :=
        Option.ne_none_iff_exists'.mp fun hnone => hfile (by rw [World.bytes, hnone]; rfl)
      obtain ⟨f', hf', -⟩ := hw₁.some f hf
      rw [logFile, hf']
      exact hdur f' hf'
    refine (wp_finishWrite_carries fuel batch rfl (hkept hwrites hw₁) rest
      (Env.hostile_admits rest)).mono ?_ fun w' _ hw' => ?_
    · rintro r w' - ⟨hw', hshell, hlogAt⟩
      refine ⟨.part (n := (frame batch.rep).length) hwrites.filled hwrites.running ?_ ?_, hshell,
        hlogAt⟩
      · rw [hall]
        have htotal := hgains.trans hw'
        rwa [List.append_nil] at htotal
      · rintro s - -
        refine ⟨Nat.le_refl _, fun hsync hman => ?_⟩
        have hdata := hw'.data hman
        rw [List.append_nil] at hdata
        have hle := hw'.synced hman
        rw [hdurable hsync, ← hdata] at hle
        exact Nat.le_antisymm (logFile db.dbPath w').synced_le hle
    · refine .part (n := (frame batch.rep).length) hwrites.filled hwrites.running ?_ (by simp)
      rw [hall]
      have htotal := hgains.trans hw'
      rwa [List.append_nil] at htotal

/-- Every section but a write appends nothing. -/
theorem Machine.Placed.wp_quiet (h : m.Placed d o) {op : Op}
    (hop : ∀ opts batch, op ≠ .write opts batch) (fuel : Nat) :
    wp Env.hostile (op.prog fuel d m.db) (fun r w' _ => Gains d [] m.world w' ∧
      Machine.Placed d (Event.options (.returned op m.accepting r.1) o) ⟨w', r.2⟩)
      (fun w' _ => Gains d [] m.world w') m.world b := by
  obtain ⟨w, db?⟩ := m
  have hopened : ∀ options, wp Env.hostile (openObject d options) (fun r w' _ => Gains d [] w w' ∧
      Machine.Placed d (if r.1.ok then options else o) ⟨w', r.2⟩) (fun w' _ => Gains d [] w w') w b :=
    fun options => wp_mono (wp_openObject_carries d options) (fun r w' _ h => ⟨h.1, by
      intro db hdb
      obtain ⟨hok, hfresh, hlog⟩ := h.2 db hdb
      rw [hok]
      exact ⟨hfresh.dbPath, hfresh.options, hlog⟩⟩) fun _ _ hw' => hw'
  cases db? with
  | none =>
      cases op with
      | write opts batch => exact absurd rfl (hop opts batch)
      | reopen options => exact hopened options
      | _ => exact wp_pure ⟨Gains.refl d w, h⟩
  | some db =>
      obtain ⟨hd, ho, hlog⟩ := h db rfl
      have hcarried : ∀ {db' w'}, Carries d db w db' w' →
          Gains d [] w w' ∧ Machine.Placed d o ⟨w', some db'⟩ := by
        intro db' w' hcarries
        refine ⟨hcarries.gains, ?_⟩
        rintro _ ⟨⟩
        exact ⟨hcarries.shell.dbPath.trans hd, hcarries.shell.options.trans ho, hcarries.log⟩
      cases op with
      | write opts batch => exact absurd rfl (hop opts batch)
      | flush =>
          exact wp_then (wp_flush_carries fuel hd hlog) (fun r _ _ h => wp_pure (hcarried h))
            fun _ _ h => h
      | background =>
          refine wp_bind ?_
          rw [backgroundIteration]
          refine wp_ite (fun _ => wp_pure (wp_pure (hcarried (Carries.refl d hlog)))) fun _ => ?_
          refine wp_then (@wp_flush_carries _ { db with bgWorkRequested := false } _ _ fuel hd hlog)
            (fun r w' _ h => wp_pure (wp_pure ⟨h.gains, ?_⟩)) fun _ _ h => h
          rintro _ ⟨⟩
          exact ⟨h.shell.dbPath.trans hd, h.shell.options.trans ho, h.log⟩
      | compact level =>
          exact wp_then (effects_compactLocked hd level w b)
            (fun _ _ _ h => wp_pure (hcarried (.of_spares hd hlog h.1 h.2)))
            fun _ _ hw' => hw'.gains
      | closeBegin =>
          rw [Op.prog, DB.closeBegin]
          split
          · exact wp_pure (hcarried (Carries.refl d hlog))
          · refine wp_pure ⟨Gains.refl d w, ?_⟩
            rintro _ ⟨⟩
            exact ⟨hd, ho, hlog⟩
      | closeEnd =>
          refine wp_ite (fun _ => ?_) fun _ => wp_pure (hcarried (Carries.refl d hlog))
          refine wp_then (wp_closeEnd_carries hd hlog) ?_ fun _ _ h => h
          rintro r w' _ ⟨hw', hd', ho', -, -, -, hlog'⟩
          refine wp_pure ⟨hw', ?_⟩
          rintro _ ⟨⟩
          exact ⟨hd', ho'.trans ho, hlog'⟩
      | reopen options =>
          refine wp_ite (fun hclosed => ?_) fun hopen => ?_
          · simp only [Machine.accepting, hclosed, Bool.not_true]
            exact hopened options
          · have hopen' : db.closed = false := by simpa using hopen
            simp only [Machine.accepting, hopen', Bool.not_false]
            exact wp_pure (hcarried (Carries.refl d hlog))

/-- What holds of the steps so far: the object belongs to the directory, no byte of
the manifest is durable, and where there is none the log holds the steps. -/
structure Surviving (d : Path) (es : List Event) (m : Machine) : Prop where
  placed : m.Placed d (optionsAfter es)
  fleeting : Fleeting d m.world
  journal : m.world.file (manifestPath d) = none → Journal es (logFile d m.world)

theorem optionsAfter_snoc (es : List Event) (e : Event) :
    optionsAfter (es ++ [e]) = e.options (optionsAfter es) := by
  rw [optionsAfter, List.foldl_append]
  rfl

/-- There is no manifest before a step that leaves none. -/
theorem Gains.none_before {x : Bytes} (h : Gains d x w w')
    (hman : w'.file (manifestPath d) = none) : w.file (manifestPath d) = none :=
  Classical.byContradiction fun hsome => h.manifest hsome hman

theorem Surviving.quiet {es : List Event} {e : Event} {db? : Option DB} (h : Surviving d es m)
    (hgains : Gains d [] m.world w') (hplaced : Machine.Placed d (e.options (optionsAfter es)) ⟨w', db?⟩)
    (hrecords : ∀ c, e.Records c c) (hnot : ¬SyncedTo (es ++ [e])) :
    Surviving d (es ++ [e]) ⟨w', db?⟩ := by
  refine ⟨by rwa [optionsAfter_snoc], hgains.fleeting h.fleeting, fun hman => ?_⟩
  have hdata := hgains.data hman
  rw [List.append_nil] at hdata
  exact (h.journal (hgains.none_before hman)).quiet hdata (hgains.synced hman) hrecords hnot

theorem Event.synced_eq_true {o : Options} {e : Event} (h : e.synced o = true) :
    ∃ opts batch s, e = .returned (.write opts batch) true s ∧ batch.empty = false ∧ s.ok = true ∧
      (opts.sync || o.syncWrites) = true := by
  unfold Event.synced at h
  split at h
  next opts batch s =>
    simp only [Bool.and_eq_true, Bool.not_eq_true'] at h
    exact ⟨opts, batch, s, rfl, h.1.1, h.1.2, h.2⟩
  next => cases h

theorem SyncedTo.last {es : List Event} {e : Event} (h : SyncedTo (es ++ [e])) :
    e.synced (optionsAfter es) = true := by
  obtain ⟨es₀, e₀, hes, hsynced⟩ := h
  obtain ⟨rfl, he⟩ := List.append_inj' hes rfl
  rwa [List.singleton_inj.mp he]

/-- The last step of a synced run is a write that was accepted and returned OK. -/
theorem not_syncedTo {es : List Event} {e : Event}
    (h : ∀ opts batch s, e = .returned (.write opts batch) true s → batch.empty = false →
      s.ok = false) : ¬SyncedTo (es ++ [e]) := fun hs => by
  obtain ⟨opts, batch, s, rfl, hne, hok, -⟩ := Event.synced_eq_true hs.last
  have hs' := h opts batch s rfl hne
  rw [hok] at hs'
  cases hs'

/-- A write that returned leaves a log that holds the steps and the write. -/
theorem Surviving.written {es : List Event} {opts : WriteOptions} {batch : WriteBatch}
    {e : Event} {s? : Option Status} {db? : Option DB} (h : Surviving d es ⟨w, some db⟩)
    (hclean : Cleanly d ⟨w, some db⟩ (.write opts batch) t fs)
    (hw : WriteLeaves d db opts batch w s? w')
    (hplaced : Machine.Placed d (optionsAfter es) ⟨w', db?⟩)
    (he : e = .crashed (.write opts batch) ∨
      ∃ s, e = .returned (.write opts batch) (!db.closed) s ∧ s ∈ s?) :
    Surviving d (es ++ [e]) ⟨w', db?⟩ := by
  have hoptions : e.options (optionsAfter es) = optionsAfter es := by
    rcases he with rfl | ⟨s, rfl, -⟩ <;> rfl
  rw [← hoptions] at hplaced
  cases hw with
  | nothing gains ok =>
      refine h.quiet gains hplaced (fun c => ?_) ?_
      · rcases he with rfl | ⟨s, rfl, hs⟩
        · exact Or.inl rfl
        · cases hclosed : db.closed with
          | true => rfl
          | false =>
              cases hok : s.ok with
              | true => exact Or.inl ⟨hok, by rw [ok s hs hok, if_pos rfl]⟩
              | false => exact Or.inr ⟨hok, Or.inl rfl⟩
      · refine not_syncedTo fun opts' batch' s heq hne => ?_
        rcases he with rfl | ⟨s', rfl, hs⟩
        · cases heq
        · obtain ⟨hop, -, rfl⟩ := Event.returned.inj heq
          obtain ⟨-, rfl⟩ := Op.write.inj hop
          cases hok : s'.ok with
          | true => rw [ok s' hs hok] at hne; cases hne
          | false => rfl
  | @part n filled running gains ok =>
      obtain ⟨hlen, hwhole⟩ := hclean db rfl filled running
      refine ⟨by rwa [optionsAfter_snoc], gains.fleeting h.fleeting, fun hman => ?_⟩
      refine (h.journal (gains.none_before hman)).append hwhole hlen (gains.data hman)
        (gains.synced hman) (fun htorn c => ?_) (fun _ c => ?_) fun hsynced => ?_
      · rcases he with rfl | ⟨s, rfl, hs⟩
        · exact Or.inl rfl
        · rw [running]
          refine Or.inr ⟨?_, Or.inl rfl⟩
          cases hok : s.ok with
          | true => exact absurd (ok s hs hok).1 (by omega)
          | false => rfl
      · rcases he with rfl | ⟨s, rfl, hs⟩
        · exact Or.inr rfl
        · rw [running]
          cases hok : s.ok with
          | true => exact Or.inl ⟨hok, by rw [if_neg (by rw [filled]; simp)]⟩
          | false => exact Or.inr ⟨hok, Or.inr rfl⟩
      · obtain ⟨opts', batch', s', heq, -, hok, hsync⟩ := Event.synced_eq_true hsynced.last
        rcases he with rfl | ⟨s, rfl, hs⟩
        · cases heq
        · obtain ⟨hop, -, rfl⟩ := Event.returned.inj heq
          obtain ⟨rfl, -⟩ := Op.write.inj hop
          obtain ⟨hwholeFrame, hdurable⟩ := ok s hs hok
          refine ⟨hwholeFrame, hdurable ?_ hman⟩
          rw [(h.placed db rfl).2.1]
          exact hsync

theorem Step.surviving {es : List Event} {e : Event} (hs : Step Env.hostile (Cleanly d) d m e t m')
    (h : Surviving d es m) : Surviving d (es ++ [e]) m' := by
  have hnotWrite : ∀ {op : Op}, (∀ opts batch, op ≠ .write opts batch) → ∀ accepting s c,
      (Event.returned op accepting s).Records c c ∧ (Event.crashed op).Records c c ∧
        ¬SyncedTo (es ++ [.returned op accepting s]) ∧ ¬SyncedTo (es ++ [.crashed op]) := by
    intro op hop accepting s c
    refine ⟨?_, ?_, not_syncedTo fun opts batch s' heq => ?_, not_syncedTo fun opts batch s' heq => ?_⟩
    · cases op with
      | write opts batch => exact absurd rfl (hop opts batch)
      | _ => rfl
    · cases op with
      | write opts batch => exact absurd rfl (hop opts batch)
      | _ => rfl
    · cases heq
      exact absurd rfl (hop opts batch)
    · cases heq
  have hnone : ∀ w' o, Machine.Placed d o ⟨w', none⟩ := fun w' o db hdb => by cases hdb
  obtain ⟨w, db?⟩ := m
  cases hs with
  | killed crashes =>
      exact h.quiet (Gains.refl d w) (hnone _ _) (fun _ => rfl) (not_syncedTo fun _ _ _ heq => by cases heq)
  | @returned op fuel fs rest s db' w' t admits allowed run =>
      by_cases hop : ∀ opts batch, op ≠ .write opts batch
      · obtain ⟨hgains, hplaced⟩ := (h.placed.wp_quiet hop fuel (b := t)).of_returned admits run
          (Nat.le_refl t)
        exact h.quiet hgains hplaced (fun c => (hnotWrite hop _ s c).1)
          (hnotWrite hop _ s fun _ => none).2.2.1
      · simp only [not_forall, not_not] at hop
        obtain ⟨opts, batch, rfl⟩ := hop
        cases db? with
        | none =>
            cases run
            exact h.quiet (Gains.refl d w) (hnone _ _) (fun _ => rfl)
              (not_syncedTo fun _ _ _ heq => by cases heq)
        | some db =>
            obtain ⟨hd, ho, hlog⟩ := h.placed db rfl
            obtain ⟨⟨s₁, db₁⟩, w₁, fs₁, t₁, u₁, hr, hpure⟩ := Prog.bind_returned run
            have hmeets : (db.write fuel opts batch w fs).Meets Env.hostile _ _ t₁ :=
              meets_write_leaves fuel opts batch hd hlog
            rw [hr] at hmeets
            obtain ⟨-, hleaves, hshell, hlog₁⟩ := hmeets (Nat.le_refl t₁)
            cases hpure
            refine h.written (t := fuel) allowed hleaves ?_ (Or.inr ⟨_, rfl, rfl⟩)
            rintro _ ⟨⟩
            exact ⟨hshell.dbPath.trans hd, hshell.options.trans ho, hlog₁⟩
  | @crashed op fuel fs w' t crashes admits allowed run =>
      by_cases hop : ∀ opts batch, op ≠ .write opts batch
      · have hgains := (h.placed.wp_quiet hop fuel (b := t)).of_crashed admits run (Nat.le_refl t)
        exact h.quiet hgains (hnone _ _) (fun c => (hnotWrite hop false .OK c).2.1)
          (hnotWrite hop false .OK fun _ => none).2.2.2
      · simp only [not_forall, not_not] at hop
        obtain ⟨opts, batch, rfl⟩ := hop
        cases db? with
        | none => cases run
        | some db =>
            obtain ⟨hd, -, hlog⟩ := h.placed db rfl
            have hmeets : (Op.prog fuel d (.write opts batch) (some db) w fs).Meets Env.hostile
                (fun _ _ _ => True) (fun w' _ => WriteLeaves d db opts batch w none w') t := by
              have hwrite : (db.write fuel opts batch w fs).Meets Env.hostile _ _ t :=
                meets_write_leaves fuel opts batch hd hlog
              refine Outcome.Meets.bind trivial trivial (fun w' t' hr ht => ?_) fun r w' rest t' _ _ =>
                wp_pure trivial rest (Env.hostile_admits rest)
              rw [hr] at hwrite
              exact hwrite ht
            rw [run] at hmeets
            exact h.written (t := fuel) allowed (hmeets (Nat.le_refl t)) (hnone _ _) (Or.inl rfl)

theorem Run.surviving {m₀ : Machine} {es : List Event}
    (hr : Run Env.hostile (Cleanly d) d m₀ es t m) (h : Surviving d [] m₀) : Surviving d es m := by
  induction hr with
  | start => exact h
  | step run last ih => exact last.surviving ih

end Steps

section Crashes

variable {d : Path} {w w' : World} {es : List Event} {t : Nat} {m : Machine} {b : Nat}

theorem logged_eq (d : Path) (w : World) : logged d w = records (logFile d w).data := by
  rw [logged, logFile, World.bytes]
  cases w.file (walPath d) <;> rfl

theorem SystemCrash.log (h : SystemCrash w w') : File.Cut (logFile d w) (logFile d w') := by
  rw [logFile, logFile]
  cases hf : w.file (walPath d) with
  | none =>
      rw [h.missing _ hf]
      exact ⟨0, Nat.zero_le _, rfl⟩
  | some f =>
      obtain ⟨f', hf', hcut⟩ := h.kept _ f hf
      rw [hf']
      exact hcut

/-- The log holds the steps, and a crash leaves enough of it. -/
theorem Surviving.survive (h : Surviving d es m) (hpath : d.getLast? ≠ some separator)
    (hman : m.world.file (manifestPath d) = none) : SyncedSurvive d es m.world := by
  intro w' hw'
  obtain ⟨n, hn, hdata⟩ := hw'.log (d := d)
  obtain ⟨es₁, hes₁, hall, hrec⟩ := (h.journal hman).begun n hn
  have hdisk : OnDisk Tree.initial d w' := by
    refine ⟨Or.inr ⟨?_, rfl⟩, fun l f hf => absurd hf List.not_mem_nil⟩
    rw [World.bytes, hw'.missing _ hman]
    rfl
  refine ⟨es₁, _, hes₁, hall, hrec, fun b => ?_⟩
  have hreopens := hdisk.reopens hpath b
  rwa [logged_eq, hdata] at hreopens

/-- A manifest without a byte is refused. -/
theorem observes_load_empty (hw : w.bytes (manifestPath d) = some []) (v : Version) :
    Observes Env.sure (v.load (manifestPath d))
      (fun r => r.1.ok = false ∧ r.1.isNotFound = false ∧ r.2 = v) w := by
  rw [Version.load]
  refine Observes.bind (observes_fopenRead hw) fun content hcontent => ?_
  obtain rfl := hcontent.resolve_right fun hf => hf.1
  refine Observes.bind (Observes.probe (R := fun _ => True) trivial fun hf => hf.elim) fun _ _ => ?_
  refine Observes.bind (Observes.probe (R := fun _ => True) trivial fun hf => hf.elim) fun _ _ => ?_
  refine Observes.bind (Observes.probe (R := fun _ => True) trivial fun hf => hf.elim) fun buf _ => ?_
  rw [if_pos (Or.inr (by simp))]
  exact Observes.ret ⟨rfl, rfl, rfl⟩

/-- `Open` gives up on a manifest without a byte, and its object is destroyed. -/
theorem wp_openBody_empty (hw : w.bytes (manifestPath d) = some []) (options : Options)
    (existed : Bool) :
    wp Env.sure (openBody { dbPath := d, options := options } existed >>= fun r =>
      if !r.1.ok then r.2.destroy >>= fun _ => pure (.error r.1) else pure (.ok r.2))
      (fun (r : Except Status DB) _ _ => ∃ s, r = .error s ∧ s.ok = false) (fun _ _ => False) w b := by
  have hsize : (Version.encode {}).length ≤ maxFileBytes := by
    set_option maxRecDepth 1000 in decide +kernel
  rw [openBody_eq]
  refine wp_bind (wp_observes (observes_load_empty hw _) (fun hc => hc.elim) fun r hr => ?_)
  obtain ⟨s, version⟩ := r
  obtain ⟨hs, hnf, hv⟩ := hr
  obtain rfl : version = {} := hv
  have hs' : s.ok = false := hs
  have hnf' : s.isNotFound = false := hnf
  simp only [hs', hnf', Bool.not_false, and_self, if_true]
  refine wp_pure ?_
  simp only [hs', Bool.not_false, if_true]
  rw [destroy, if_neg (by simp), DB.close, if_neg (by simp)]
  refine wp_bind (wp_bind (wp_bind (wp_pure (wp_bind (Version.wp_save (Or.inr hsize)
    (fun w' _ => ?_) (fun hf => hf.elim) fun hc => hc.elim)))))
  exact wp_pure (wp_pure (wp_pure ⟨s, rfl, hs'⟩))

theorem wp_openObject_empty (hw : w.bytes (manifestPath d) = some []) :
    wp Env.sure (openObject d {}) (fun r _ _ => r.1.ok = false) (fun _ _ => False) w b := by
  have hexists : Observes Env.sure directoryExists (· = w.directory) w :=
    Observes.probe rfl fun hf => hf.elim
  have hopen : wp Env.sure (DB.open {} d) (fun r _ _ => ∃ s, r = .error s ∧ s.ok = false)
      (fun _ _ => False) w b := by
    rw [DB.open]
    refine wp_observes hexists (fun hc => hc.elim) fun existed hexisted => ?_
    subst hexisted
    cases hdir : w.directory with
    | true =>
        simp only [Bool.not_true, Bool.false_eq_true, if_false, ensureDirectory, if_true,
          pure_bind, and_false]
        exact wp_openBody_empty hw {} true
    | false =>
        simp only [Bool.not_false, Bool.not_true, Bool.false_eq_true, and_false, if_false,
          ensureDirectory]
        refine wp_bind (wp_call ?_ (fun hf => hf.elim) fun hc => hc.elim)
        exact wp_openBody_empty (w := { w with directory := true }) hw {} false
  rw [openObject]
  refine wp_then hopen ?_ fun _ _ h => h
  rintro _ w' b' ⟨s, rfl, hs⟩
  exact wp_pure hs

/-- A directory whose manifest holds no byte is not opened. -/
theorem not_reopens_of_empty {c : Content} (hw : w.bytes (manifestPath d) = some []) :
    ¬∀ b, Reopens d w c b := by
  intro hreopens
  obtain ⟨r, w', rest, t, hr, hs⟩ := wp.returns fun b => wp_openObject_empty (b := b) hw
  obtain ⟨hok, -⟩ := (hreopens t {} (by simp [Refused])).of_returned (Env.admits_nil _) hr
    (Nat.le_refl t)
  rw [hok] at hs
  cases hs

/-- A crash may take the bytes of a manifest that is not durable. -/
theorem systemCrash_manifest (h : Fleeting d w) (hman : w.file (manifestPath d) ≠ none) :
    SystemCrash w (w.put (manifestPath d) .empty) := by
  refine ⟨rfl, fun p f hf => ?_, fun p hp => ?_⟩
  · by_cases hp : canonical p = canonical (manifestPath d)
    · refine ⟨.empty, by rw [file_put, if_pos hp], 0, ?_, rfl⟩
      rw [World.file, hp] at hf
      exact Nat.le_of_eq (h f hf)
    · exact ⟨f, by rw [file_put_of_ne hp]; exact hf, f.data.length, f.synced_le,
        List.take_length.symm⟩
  · rw [file_put_of_ne]
    · exact hp
    · intro heq
      rw [World.file, heq] at hp
      exact hman hp

/-- After any run whose writes find an unbroken log, whatever else fails and
wherever processes die in it, the synced writes survive every crash of the
operating system if and only if the directory has no manifest. -/
theorem synced_survive_iff (hblank : Blank d w) (hpath : d.getLast? ≠ some separator)
    (hr : Run Env.hostile (Cleanly d) d ⟨w, none⟩ es t m) :
    SyncedSurvive d es m.world ↔ m.world.file (manifestPath d) = none := by
  have hfile : ∀ {p}, w.bytes p = none → w.file p = none := fun hp => Option.map_eq_none_iff.mp hp
  have hs : Surviving d es m := by
    refine hr.surviving ⟨fun db hdb => (by cases hdb), fun f hf => ?_, fun _ => .start ?_⟩
    · rw [hfile hblank.manifest] at hf
      cases hf
    · rw [logFile, hfile hblank.log]
      rfl
  refine ⟨fun hsurvive => ?_, hs.survive hpath⟩
  by_contra hman
  obtain ⟨es₁, c, -, -, -, hreopens⟩ := hsurvive _ (systemCrash_manifest hs.fleeting hman)
  exact not_reopens_of_empty (bytes_put_same _ _ _) hreopens

/-- A database is opened in a directory that was there and empty, and a synced write
follows. -/
def syncedWrite : Option ((Event × Nat × Machine) × (Event × Nat × Machine)) := do
  let r ← Machine.perform 20 [0x64] ⟨⟨true, ∅⟩, none⟩ (.reopen {}) []
  let r' ← r.2.2.perform 20 [0x64] (.write ⟨true⟩ (WriteBatch.put {} [0x61] [0x78])) []
  return (r, r')

theorem synced_survive_iff_syncedWrite : ∃ r r', syncedWrite = some (r, r') ∧
    SyncedTo [r.1, r'.1] ∧ (SyncedSurvive [0x64] [r.1, r'.1] r'.2.2.world ↔
      r'.2.2.world.file (manifestPath [0x64]) = none) := by
  have h : (syncedWrite.any fun p => decide (Unbroken [0x64] p.1.2.2.world) &&
      p.2.1.synced (optionsAfter [p.1.1])) = true := by decide +kernel
  obtain ⟨⟨r, r'⟩, hr, hp⟩ := (Option.any_eq_true ..).mp h
  rw [Bool.and_eq_true] at hp
  have hperformed := hr
  simp only [syncedWrite, Option.bind_eq_bind, Option.bind_eq_some_iff, Option.pure_def,
    Option.some.injEq, Prod.mk.injEq] at hperformed
  obtain ⟨⟨e, t, m⟩, hopened, ⟨e', t', m'⟩, hwritten, rfl, rfl⟩ := hperformed
  have hrun : Run Env.hostile (Cleanly [0x64]) [0x64] ⟨⟨true, ∅⟩, none⟩ [e, e'] _ m' :=
    (Machine.step_of_perform (Env.hostile_admits _) trivial (Or.inl trivial) hopened).run.trans
      (Machine.step_of_perform (Env.hostile_admits _)
        (fun _ _ _ _ => ⟨by decide, of_decide_eq_true hp.1⟩) (Or.inl trivial) hwritten).run
  exact ⟨_, _, hr, ⟨[e], e', rfl, hp.2⟩, synced_survive_iff ⟨rfl, rfl⟩ (by decide) hrun⟩

end Crashes

end ClomDB
