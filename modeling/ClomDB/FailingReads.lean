import ClomDB.Reachable

/-!
# Failing reads

`Get` takes a table it cannot read for one that does not hold the key, and
`NewIterator` leaves such a table out. Both are harmless exactly when the
tables that can be read show what all tables show.
-/

namespace ClomDB

open FaultProgram FileSystem FileSystem.World LayeredMap SSTable DB

variable {w : World} {db : DB} {fs : List Fault} {key : Bytes}

/-- Without a failing read every reader answers. -/
theorem answering_nil (w : World) (key : Bytes) (rs : List SSTableReader) :
    answering w key rs [] = rs :=
  spared_of_no_failure (by simp) fun r _ => ⟨_, _, reads_tells r w key⟩

theorem listing_nil (w : World) (rs : List SSTableReader) : listing w rs [] = rs :=
  spared_of_no_failure (by simp) fun r _ => by
    obtain ⟨x, hx, -⟩ := reads_lists r w
    exact ⟨_, _, hx⟩

/-- A call of `Get` ends as the one without failures, or in an error that is
not `NotFound`. -/
def GetTruthful (w : World) (db : DB) (key : Bytes) (fs : List Fault) : Prop :=
  ∃ r, (db.get key w fs).value = some r ∧
    ((db.get key w []).value = some r ∨ ∃ s, r = .error s ∧ s.ok = false ∧ s.isNotFound = false)

/-- An iterator lists what the one made without failures lists, or its status
tells of a failure. -/
def ScanTruthful (w : World) (db : DB) (fs : List Fault) : Prop :=
  ∃ it clean, (db.newIterator w fs).value = some it ∧ (db.newIterator w []).value = some clean ∧
    (it = clean ∨ it.status.ok = false)

/-- Nothing is asked of the tables, or the newest entry of the key in those that
can be read shows the same as the newest in all of them. -/
def GetSpared (w : World) (db : DB) (key : Bytes) (fs : List Fault) : Prop :=
  db.closed = true ∨ db.memtable.layer key ≠ none ∨
    view (stack ((answering w key (db.searchOrder key) fs).map (·.tells w))) key =
      view (stack ((db.searchOrder key).map (·.tells w))) key

/-- Below the memtable the tables that can be read show the same map as all of them. -/
def ScanSpared (w : World) (db : DB) (fs : List Fault) : Prop :=
  ∀ k, db.memtable.layer k = none →
    view (stack ((listing w db.scanOrder fs).reverse.map (·.lists w))) k =
      view (stack (db.scanOrder.reverse.map (·.lists w))) k

theorem answer_inj {found found' : Found} (h : answer key found = answer key found') :
    found = found' := by
  cases found <;> cases found' <;> simp_all [answer]

/-- An answer of `Get` is a value or `NotFound`. -/
theorem answer_served {found : Found} {s : Status} (h : answer key found = .error s) :
    s.isNotFound = true := by
  cases found with
  | none =>
      obtain rfl := Except.error.inj h
      rfl
  | some v => cases h

theorem get_truthful_iff (hfs : ∀ n, Fault.crash n ∉ fs) (w : World) (db : DB) (key : Bytes) :
    GetTruthful w db key fs ↔ GetSpared w db key fs := by
  cases hopen : db.closed with
  | true =>
      have hclosed : ∀ fs, (db.get key w fs).value =
          some (.error (.invalidArgument [.lit "DB is closed"])) := fun fs => by
        rw [DB.get, if_pos hopen]
        rfl
      exact ⟨fun _ => Or.inl hopen, fun _ => ⟨_, hclosed fs, Or.inl (hclosed [])⟩⟩
  | false =>
      have hvalue : ∀ fs, (∀ n, Fault.crash n ∉ fs) →
          (db.get key w fs).value = some (answer key (db.seen w fs key)) := fun fs hfs => by
        obtain ⟨rest, -, hr⟩ := get_returns (w := w) hopen hfs key
        rw [hr]
        rfl
      have hseen : GetTruthful w db key fs ↔ db.seen w fs key = db.seen w [] key := by
        rw [GetTruthful, hvalue fs hfs, hvalue [] (by simp)]
        constructor
        · rintro ⟨r, hr, hclean | ⟨s, rfl, -, hs⟩⟩
          · exact answer_inj (Option.some.inj (hr.trans hclean.symm))
          · rw [answer_served (Option.some.inj hr)] at hs
            cases hs
        · intro h
          exact ⟨_, rfl, Or.inl (by rw [h])⟩
      rw [hseen, GetSpared, DB.seen, DB.seen, answering_nil, view_overlay, view_overlay, hopen]
      cases hm : db.memtable.layer key with
      | some found => simp
      | none => simp

theorem scan_truthful_iff (hfs : ∀ n, Fault.crash n ∉ fs) (w : World) (db : DB) :
    ScanTruthful w db fs ↔ ScanSpared w db fs := by
  obtain ⟨snapshot, rest, -, hr, hshows⟩ := newIterator_returns db w hfs
  obtain ⟨snapshot', rest', -, hr', hshows'⟩ := newIterator_returns db w fun _ => List.not_mem_nil
  have hsame : ScanTruthful w db fs ↔ db.scanned w fs = db.scanned w [] := by
    rw [ScanTruthful, hr, hr']
    constructor
    · rintro ⟨it, clean, hit, hclean, rfl | hno⟩
      · have heq := Option.some.inj (hit.trans hclean.symm)
        have hsnapshot : snapshot = snapshot' := congrArg Iterator.snapshot heq
        funext k
        rw [← hshows, ← hshows', hsnapshot]
      · cases hno
    · intro h
      refine ⟨_, _, rfl, rfl, Or.inl ?_⟩
      have hsnapshot : snapshot = snapshot' :=
        Std.ExtTreeMap.ext_getElem? fun k => by rw [hshows, hshows', h]
      rw [hsnapshot]
  rw [hsame, ScanSpared, DB.scanned, DB.scanned, listing_nil, funext_iff]
  refine forall_congr' fun k => ?_
  rw [view_overlay, view_overlay]
  cases hm : db.memtable.layer k with
  | some found => simp
  | none => simp

/-- Read failures are never served as data exactly where the tables that can be
read show what all tables show. -/
theorem reads_truthful_iff (hfs : ∀ n, Fault.crash n ∉ fs) (w : World) (db : DB) (key : Bytes) :
    (GetTruthful w db key fs ↔ GetSpared w db key fs) ∧
      (ScanTruthful w db fs ↔ ScanSpared w db fs) :=
  ⟨get_truthful_iff hfs w db key, scan_truthful_iff hfs w db⟩

/-- A key of the memtable is found whatever the tables do. -/
theorem reads_truthful_iff_twoWrites : ∃ es m db, twoWrites = some (es, 1, m) ∧ m.db = some db ∧
    GetTruthful m.world db [0x62] [.fail 0] := by
  obtain ⟨es, m, db, hr, hdb, -⟩ := twoWrites_run
  have hmem : db.memtable.layer [0x62] ≠ none := by
    have h : twoWritesMeets (fun _ db => decide (db.memtable.layer [0x62] ≠ none)) = true := by
      decide +kernel
    rw [twoWritesMeets_iff hr hdb] at h
    exact of_decide_eq_true h
  exact ⟨es, m, db, hr, hdb,
    (reads_truthful_iff (by simp) m.world db [0x62]).1.mpr (Or.inr (Or.inl hmem))⟩

/-- A key that is in a table only is reported missing when the table cannot be read. -/
theorem reads_not_truthful : ¬∀ (d : Path) (w : World) (es : List Event) (t : Nat) (m : Machine)
    (db : DB), Blank d w → Run Env.hostile Free d ⟨w, none⟩ es t m → (∀ e ∈ es, e.Regular) →
      m.db = some db → ∀ key fs, (∀ n, Fault.crash n ∉ fs) →
        GetTruthful m.world db key fs ∧ ScanTruthful m.world db fs := by
  intro hclaim
  obtain ⟨es, m, db, hr, hdb, hes, hregular⟩ := twoWrites_run
  have hrun := twoWrites_reached (E := Env.hostile) (A := Free) (fun _ _ _ => trivial) hr hes
  obtain ⟨⟨r, hget, hclean⟩, -⟩ :=
    hclaim [0x64] ⟨false, ∅⟩ es 1 m db ⟨rfl, rfl⟩ hrun hregular hdb [0x61] [.fail 0] (by simp)
  have hcheck : twoWritesMeets (fun m db =>
      (db.get [0x61] m.world [.fail 0]).value.all (fun r => match r with
        | .error s => s.isNotFound | .ok _ => false) &&
      (db.get [0x61] m.world []).value.all (fun r => match r with
        | .error _ => false | .ok _ => true)) = true := by decide +kernel
  rw [twoWritesMeets_iff hr hdb, Bool.and_eq_true, hget, Option.all_some] at hcheck
  cases r with
  | ok v => cases hcheck.1
  | error s =>
      rcases hclean with hclean | ⟨s', hs, -, hno⟩
      · rw [hclean] at hcheck
        cases hcheck.2
      · obtain rfl := Except.error.inj hs
        rw [show s.isNotFound = true from hcheck.1] at hno
        cases hno

end ClomDB
