import ClomDB.WriteAheadLog

/-!
# Histories of one log file

Records appended by calls that may fail, by processes that may die in the
middle of a frame, and what a replay of the file delivers afterwards.

## Implementation notes

A call comes with the answers it gets. The answers decide how many bytes of
its frame the call leaves in the file, and whether it succeeds.
-/

namespace ClomDB.WriteAheadLog

open FaultProgram FileSystem FileSystem.World Coding

/-- Nothing but zeros is no record: the checksum of an empty record is not zero. -/
theorem parseFrame_zeros (n : Nat) : parseFrame (List.replicate n 0) = none := by
  rw [parseFrame]
  by_cases hn : n < 8
  · rw [if_pos (by simpa using hn)]
  · obtain ⟨m, rfl⟩ : ∃ m, n = m + 8 := ⟨n - 8, by omega⟩
    rw [if_neg (by simp)]
    have hfield : ∀ k, k + 4 ≤ m + 8 → decodeFixed32 ((List.replicate (m + 8) 0).drop k) = 0 := by
      intro k hk
      rw [decodeFixed32, List.drop_replicate, List.take_replicate, Nat.min_eq_left (by omega)]
      rfl
    have hcrc := hfield 0 (by omega)
    rw [List.drop_zero] at hcrc
    rw [hfield 4 (by omega), hcrc]
    simp only [show (0 : UInt32).toNat = 0 from rfl, List.take_zero]
    rw [if_neg (by simp), if_pos (by decide +kernel)]

/-- What a crash or an unfinished write may leave behind the last whole record. -/
def Tail (tail : Bytes) : Prop :=
  (∃ data rest, data.length < 2 ^ 32 ∧ rest ≠ [] ∧ frame data = tail ++ rest) ∨
    ∃ n, tail = List.replicate n 0

theorem records_tail {tail : Bytes} (h : Tail tail) : records tail = [] := by
  rcases h with ⟨data, rest, hdata, hrest, hsplit⟩ | ⟨n, rfl⟩
  · exact records_torn hdata hsplit hrest
  · rw [records_eq, parseFrame_zeros]

/-- Append records one after the other. -/
def appendAll : List (Bytes × Bool) → WriteAheadLog → Prog World (List Status × WriteAheadLog)
  | [], log => return ([], log)
  | (data, sync) :: rest, log => do
      let (s, log) ← log.addRecord data sync
      let (ss, log) ← appendAll rest log
      return (s :: ss, log)

variable {path : Path} {w : World} {b : Nat}

/-- A file that has gained a part of some bytes is no longer than with all of them. -/
theorem length_le_of_grew {x y : Bytes} {w' : World} (h : Grew path x w w') (hxy : x.length ≤ y.length)
    {n : Nat} (hn : ((w.bytes path).getD []).length + (y.length + n) ≤ maxFileBytes) :
    ((w'.bytes path).getD []).length + n ≤ maxFileBytes := by
  rw [h.bytes]
  cases hb : w.bytes path with
  | none =>
      rw [hb, Option.getD_none, List.length_nil] at hn
      rw [Option.map_none, Option.getD_none, List.length_nil]
      omega
  | some z =>
      rw [hb, Option.getD_some] at hn
      rw [Option.map_some, Option.getD_some, List.length_append]
      omega

/-- Where every record is acknowledged, the file has gained the frames. -/
theorem wp_appendAll {E : Env} {C : World → Nat → Prop} {rs : List (Bytes × Bool)}
    {log : WriteAheadLog} {Q : List Status × WriteAheadLog → World → Nat → Prop}
    (hlog : log.Ready path)
    (hfit : E.excludes ∨ ((w.bytes path).getD []).length +
      ((rs.map Prod.fst).flatMap frame).length ≤ maxFileBytes)
    (hQ : ∀ ss w', ((∀ s ∈ ss, s = .OK) ∨ E.fails) →
      ((∀ s ∈ ss, s = .OK) → Grew path ((rs.map Prod.fst).flatMap frame) w w') → Q (ss, log) w' b)
    (hC : E.crashes → ∀ w', C w' b) :
    wp E (appendAll rs log) Q C w b := by
  induction rs generalizing w Q with
  | nil => exact wp_pure (hQ [] w (Or.inl (by simp)) fun _ => Grew.refl path w)
  | cons r rs ih =>
      obtain ⟨data, sync⟩ := r
      simp only [List.map_cons, List.flatMap_cons, List.length_append] at hfit
      rw [appendAll]
      refine wp_bind (wp_addRecord hlog (hfit.imp_right fun h => by omega)
        (fun w' hw' _ => ?_) (fun hf s n w' hs hw' => ?_) fun hc _ w' _ => hC hc w')
      · refine wp_bind (ih (hfit.imp_right fun h => length_le_of_grew hw' (Nat.le_refl _) h)
          fun ss w'' hss hw'' => wp_pure (hQ _ w'' ?_ fun hall => ?_))
        · exact hss.imp_left fun h => List.forall_mem_cons.mpr ⟨rfl, h⟩
        · exact hw'.trans (hw'' (List.forall_mem_cons.mp hall).2)
      · -- a call that failed is not acknowledged, whatever becomes of the others
        have hle : ((frame data).take n).length ≤ (frame data).length := List.length_take_le' _ _
        refine wp_bind (ih (hfit.imp_right fun h => length_le_of_grew hw' hle h)
          fun ss w'' _ _ => wp_pure (hQ _ w'' (Or.inr hf) fun hall => ?_))
        rw [(List.forall_mem_cons.mp hall).1] at hs
        cases hs

/-- Append records to a log and let some bytes follow them; then replay the file. -/
def appendThenReplay (path : Path) (rs : List (Bytes × Bool)) (tail : Bytes) :
    Prog World (List Status × Status × List Bytes) := do
  let (ss, _) ← appendAll rs ⟨some ⟨path, []⟩, path⟩
  Prog.modify fun w => w.append path tail
  let r ← replayAll path
  return (ss, r)

/-- A replay delivers exactly the whole records, in order, whatever torn frame
or run of zeros follows them. -/
theorem replay_whole_records {rs : List (Bytes × Bool)} {tail : Bytes}
    (hrs : ∀ r ∈ rs, r.1.length < 2 ^ 32) (htail : Tail tail)
    (hw : w.bytes path = some []) (b : Nat) :
    wp Env.calm (appendThenReplay path rs tail)
      (fun x _ _ => (∀ s ∈ x.1, s = .OK) ∧ x.2 = (.OK, rs.map Prod.fst))
      (fun _ _ => False) w b := by
  rw [appendThenReplay]
  refine wp_bind (wp_appendAll rfl (Or.inl trivial) (fun ss w' hss hw' => ?_) fun hc => hc.elim)
  have hack : ∀ s ∈ ss, s = .OK := hss.resolve_right id
  refine wp_bind (wp_modify ?_)
  have hbytes : (w'.append path tail).bytes path =
      some ((rs.map Prod.fst).flatMap frame ++ tail) := by
    rw [bytes_append_same, (hw' hack).bytes, hw]
    rfl
  refine wp_observes (observes_replayAll hbytes) (fun hc => hc) fun r hr => wp_pure ⟨hack, ?_⟩
  have hshort : ∀ data ∈ rs.map Prod.fst, data.length < 2 ^ 32 := by
    intro data hdata
    obtain ⟨r, hr', rfl⟩ := List.mem_map.mp hdata
    exact hrs r hr'
  rw [hr.resolve_right id, records_frames hshort, records_tail htail, List.append_nil]

/-- Two records and three bytes of the frame of a third. -/
theorem replay_whole_records_torn :
    wp Env.calm (appendThenReplay [] [([1], true), ([], false)] ((frame [2]).take 3))
      (fun x _ _ => (∀ s ∈ x.1, s = .OK) ∧ x.2 = (.OK, [[1], []]))
      (fun _ _ => False) (World.put ⟨true, ∅⟩ [] .empty) 0 :=
  replay_whole_records (by decide)
    (Or.inl ⟨[2], (frame [2]).drop 3, by decide, by decide +kernel,
      (List.take_append_drop 3 _).symm⟩) (bytes_put_same _ _ _) 0

/-- One call of `AddRecord`: its arguments, how many bytes of the frame are in
the file afterwards, and whether it returned OK. -/
structure Append where
  data : Bytes
  sync : Bool
  left : Nat
  acknowledged : Bool
  deriving DecidableEq

namespace Append

/-- The part of the frame that is in the file. -/
def written (a : Append) : Bytes := (frame a.data).take a.left

/-- A part of the frame is in the file, but not all of it. -/
def Torn (a : Append) : Prop := 0 < a.left ∧ a.left < (frame a.data).length

instance (a : Append) : Decidable a.Torn := inferInstanceAs (Decidable (_ ∧ _))

theorem written_of_not_torn {a : Append} (h : ¬a.Torn) :
    a.written = [] ∨ a.written = frame a.data := by
  rw [Torn] at h
  rcases Nat.eq_zero_or_pos a.left with h0 | hpos
  · exact Or.inl (by rw [written, h0, List.take_zero])
  · exact Or.inr (List.take_of_length_le (by omega))

/-- The records that are whole in what a call that left no torn frame has written. -/
def whole (a : Append) : List Bytes := if a.left < (frame a.data).length then [] else [a.data]

theorem written_eq_whole {a : Append} (h : ¬a.Torn) : a.written = a.whole.flatMap frame := by
  rw [Torn] at h
  rw [whole, written]
  by_cases hlt : a.left < (frame a.data).length
  · rw [if_pos hlt, show a.left = 0 by omega, List.take_zero]
    rfl
  · rw [if_neg hlt, List.take_of_length_le (by omega)]
    simp

/-- A torn frame holds no record. -/
theorem records_written_of_torn {a : Append} (h : a.Torn) (hshort : a.data.length < 2 ^ 32) :
    records a.written = [] := by
  have hsplit : frame a.data = a.written ++ (frame a.data).drop a.left :=
    (List.take_append_drop _ _).symm
  refine records_torn hshort hsplit fun hnil => ?_
  have := List.drop_eq_nil_iff.mp hnil
  exact absurd h.2 (by omega)

end Append

/-- The calls of a session on one log object, each of which returns. -/
inductive Session (path : Path) : World → List Append → World → Prop where
  | done (w : World) : Session path w [] w
  | call {w w' w'' : World} {a : Append} {calls : List Append} {answers rest : List Fault}
      {s : Status} {log : WriteAheadLog} {t : Nat}
      (returned : addRecord ⟨some ⟨path, []⟩, path⟩ a.data a.sync w answers =
        .returned (s, log) w' rest t)
      (left : w'.bytes path = (w.bytes path).map (· ++ a.written))
      (status : a.acknowledged = s.ok)
      (later : Session path w' calls w'') : Session path w (a :: calls) w''

/-- What a call has left is a prefix of its frame, and the whole frame when it
returned OK; the log object stays as it was. -/
theorem addRecord_left {data : Bytes} {sync : Bool} {answers rest : List Fault} {s : Status}
    {log : WriteAheadLog} {w w' : World} {t : Nat}
    (h : addRecord ⟨some ⟨path, []⟩, path⟩ data sync w answers = .returned (s, log) w' rest t) :
    log = ⟨some ⟨path, []⟩, path⟩ ∧ ∃ n, Grew path ((frame data).take n) w w' ∧
      (s.ok = true → (frame data).length ≤ n) := by
  have hwp : wp Env.hostile (addRecord ⟨some ⟨path, []⟩, path⟩ data sync)
      (fun r w' _ => r.2 = ⟨some ⟨path, []⟩, path⟩ ∧
        ∃ n, Grew path ((frame data).take n) w w' ∧ (r.1.ok = true → (frame data).length ≤ n))
      (fun _ _ => True) w t := by
    refine wp_addRecord rfl (Or.inl trivial) (fun w' hw' _ => ?_) (fun _ s n w' hs hw' => ?_)
      fun _ _ _ _ => trivial
    · exact ⟨rfl, (frame data).length, by rwa [List.take_length], fun _ => Nat.le_refl _⟩
    · exact ⟨rfl, n, hw', fun hok => by rw [hs] at hok; cases hok⟩
  exact hwp.of_returned (Env.hostile_admits _) h (Nat.le_refl t)

theorem addRecord_fail (data : Bytes) (sync : Bool) (n : Nat) (rest : List Fault) :
    addRecord ⟨some ⟨path, []⟩, path⟩ data sync w (.fail n :: rest) =
      .returned (.ioError [.bytes path, .lit ": short write to WAL"], ⟨some ⟨path, []⟩, path⟩)
        (w.append path ((frame data).take n)) rest 0 :=
  Prog.bind_of_returned (fwrite_fail _ _ _)

theorem addRecord_ok {data : Bytes}
    (hfit : ((w.bytes path).getD []).length + (frame data).length ≤ maxFileBytes) :
    addRecord ⟨some ⟨path, []⟩, path⟩ data false w [] =
      .returned (.OK, ⟨some ⟨path, []⟩, path⟩) (w.append path (frame data)) [] 0 :=
  (Prog.bind_of_returned (fwrite_ok hfit)).trans (Prog.bind_of_returned (fflush_ok _))

section OneSession

variable {w' : World} {calls : List Append}

theorem Session.bytes (h : Session path w calls w') :
    w'.bytes path = (w.bytes path).map (· ++ calls.flatMap Append.written) := by
  induction h with
  | done w => simp
  | call returned left status later ih =>
      rw [ih, left, Option.map_map]
      congr 1
      funext data
      simp

/-- An acknowledged record is whole. -/
theorem Session.whole_of_acknowledged (h : Session path w calls w') (hw : w.bytes path ≠ none) :
    ∀ a ∈ calls, a.acknowledged = true → a.whole = [a.data] := by
  induction h with
  | done w => simp
  | @call w w' w'' a calls answers rest s log t returned left status later ih =>
      obtain ⟨data, hdata⟩ := Option.ne_none_iff_exists'.mp hw
      refine List.forall_mem_cons.mpr ⟨fun hack => ?_, ih (by rw [left, hdata]; simp)⟩
      obtain ⟨-, n, hgrew, hn⟩ := addRecord_left returned
      have hfull : (frame a.data).take n = frame a.data :=
        List.take_of_length_le (hn (status.symm.trans hack))
      rw [hgrew.bytes, hdata, Option.map_some, Option.map_some, hfull] at left
      have hlen := congrArg List.length (List.append_cancel_left (Option.some.inj left))
      rw [Append.written, List.length_take] at hlen
      rw [Append.whole, if_neg (by omega)]

theorem Session.sublist (hack : ∀ a ∈ calls, a.acknowledged = true → a.whole = [a.data]) :
    ((calls.filter Append.acknowledged).map Append.data).Sublist (calls.flatMap Append.whole) := by
  induction calls with
  | nil => exact List.Sublist.refl []
  | cons a calls ih =>
      obtain ⟨ha, hcalls⟩ := List.forall_mem_cons.mp hack
      rw [List.flatMap_cons]
      cases hb : a.acknowledged with
      | true =>
          rw [List.filter_cons_of_pos hb, List.map_cons, ha hb]
          exact (ih hcalls).cons_cons a.data
      | false =>
          rw [List.filter_cons_of_neg (by simp [hb])]
          exact (ih hcalls).trans (List.sublist_append_right _ _)

/-- As long as nothing follows a torn frame, a replay delivers the whole records. -/
theorem records_written (hshort : ∀ a ∈ calls, a.data.length < 2 ^ 32)
    (hclean : calls.Pairwise fun a a' => a.Torn → a'.left = 0) :
    records (calls.flatMap Append.written) = calls.flatMap Append.whole := by
  induction calls with
  | nil => exact records_nil
  | cons a calls ih =>
      obtain ⟨ha, hcalls⟩ := List.forall_mem_cons.mp hshort
      obtain ⟨hlater, hclean'⟩ := List.pairwise_cons.mp hclean
      rw [List.flatMap_cons, List.flatMap_cons]
      by_cases htorn : a.Torn
      · -- what follows the torn frame is empty
        have hzero : ∀ a' ∈ calls, a'.left = 0 := fun a' ha' => hlater a' ha' htorn
        have hwritten : calls.flatMap Append.written = [] :=
          List.flatMap_eq_nil_iff.mpr fun a' ha' => by
            rw [Append.written, hzero a' ha', List.take_zero]
        have hwhole : calls.flatMap Append.whole = [] :=
          List.flatMap_eq_nil_iff.mpr fun a' ha' => by
            rw [Append.whole, hzero a' ha', frame_length, if_pos (by omega)]
        rw [hwritten, hwhole, List.append_nil, List.append_nil,
          Append.records_written_of_torn htorn ha, Append.whole, if_pos htorn.2]
      · have hwhole : ∀ r ∈ a.whole, r.length < 2 ^ 32 := fun r hr => by
          rw [Append.whole] at hr
          split at hr
          · cases hr
          · rwa [List.mem_singleton.mp hr]
        rw [Append.written_eq_whole htorn, records_frames hwhole, ih hcalls hclean']

/-- A replay delivers every acknowledged record of a session in which nothing is
written behind a torn frame. -/
theorem session_keeps_acknowledged {recs : List Bytes} (h : Session path w calls w')
    (hw : w.bytes path = some (recs.flatMap frame)) (hrecs : ∀ r ∈ recs, r.length < 2 ^ 32)
    (hshort : ∀ a ∈ calls, a.data.length < 2 ^ 32)
    (hclean : calls.Pairwise fun a a' => a.Torn → a'.left = 0) :
    Observes Env.sure (replayAll path) (fun r => r.1 = .OK ∧
      (recs ++ (calls.filter Append.acknowledged).map Append.data).Sublist r.2) w' := by
  have hbytes : w'.bytes path =
      some (recs.flatMap frame ++ calls.flatMap Append.written) := by
    rw [h.bytes, hw]
    rfl
  refine (observes_replayAll (E := Env.sure) hbytes).mono fun r hr => ?_
  rw [hr.resolve_right id, records_frames hrecs, records_written hshort hclean]
  exact ⟨rfl, (List.Sublist.refl recs).append
    (Session.sublist (h.whole_of_acknowledged (by rw [hw]; simp)))⟩

/-- An empty log file at the empty path. -/
def emptyLog : World := World.put ⟨true, ∅⟩ [] .empty

/-- A failing append that leaves nothing takes nothing away. -/
theorem session_keeps_acknowledged_nothing_left :
    Observes Env.sure (replayAll []) (fun r => r.1 = .OK ∧
      ([[7]] ++ [[]] : List Bytes).Sublist r.2)
      (((emptyLog.append [] (frame [7])).append [] ((frame [8]).take 0)).append [] (frame [])) := by
  have hwhole : Append.written ⟨[], false, 8, true⟩ = frame [] :=
    List.take_of_length_le (Nat.le_of_eq (frame_length _))
  have hw : (emptyLog.append [] (frame [7])).bytes [] = some ([[7]].flatMap frame) := by
    rw [bytes_append_same, emptyLog, bytes_put_same]
    rfl
  have hcalls : Session [] (emptyLog.append [] (frame [7]))
      [⟨[8], true, 0, false⟩, ⟨[], false, 8, true⟩] _ :=
    .call (addRecord_fail [8] true 0 []) (bytes_append_same _ _ _) rfl
      (.call (addRecord_ok (by decide +kernel)) (by rw [bytes_append_same, hwhole]) rfl (.done _))
  exact session_keeps_acknowledged hcalls hw (by decide) (by decide) (by decide)

/-- A log whose file holds a torn byte of a frame, and then a whole frame. -/
def tornLog : World := (emptyLog.append [] ((frame []).take 1)).append [] (frame [])

/-- An append that fails and leaves one byte, then one that is acknowledged. -/
theorem session_tornLog :
    Session [] emptyLog [⟨[], false, 1, false⟩, ⟨[], false, 8, true⟩] tornLog := by
  have hwhole : Append.written ⟨[], false, 8, true⟩ = frame [] :=
    List.take_of_length_le (Nat.le_of_eq (frame_length _))
  refine .call (addRecord_fail [] false 1 []) (bytes_append_same _ _ _) rfl ?_
  refine .call (addRecord_ok (by decide +kernel)) ?_ rfl (.done _)
  rw [bytes_append_same, hwhole]

/-- One byte of a frame, and the frame behind it is not found. -/
theorem records_torn_byte : records ((frame []).take 1 ++ frame []) = [] := by decide +kernel

/-- Behind a torn frame an acknowledged record is lost. -/
theorem session_loses_acknowledged :
    ¬∀ (path : Path) (w w' : World) (calls : List Append), Session path w calls w' →
      w.bytes path = some [] → (∀ a ∈ calls, a.data.length < 2 ^ 32) →
        Observes Env.sure (replayAll path) (fun r => r.1 = .OK ∧
          ((calls.filter Append.acknowledged).map Append.data).Sublist r.2) w' := by
  intro h
  have hlost := h _ _ _ _ session_tornLog (bytes_put_same _ _ _) (by decide)
  have hbytes : tornLog.bytes [] = some ((frame []).take 1 ++ frame []) := by
    rw [tornLog, bytes_append_same, bytes_append_same, emptyLog, bytes_put_same]
    rfl
  obtain ⟨r, ⟨-, hsub⟩, hr⟩ := hlost.both (observes_replayAll (E := Env.sure) hbytes)
  rw [hr.resolve_right id, records_torn_byte] at hsub
  exact absurd (List.eq_nil_of_sublist_nil hsub) (by decide)

end OneSession

/-- A session that a crash ends: the records it appended, all acknowledged, and
the call in which the process dies. -/
structure Life where
  acks : List (Bytes × Bool)
  last : Append

namespace Life

/-- The calls of the session. An acknowledged one has written its whole frame. -/
def calls (l : Life) : List Append :=
  l.acks.map (fun r => ⟨r.1, r.2, (frame r.1).length, true⟩) ++ [l.last]

/-- The records that are whole in the file. -/
def whole (l : Life) : List Bytes := l.acks.map Prod.fst ++ l.last.whole

theorem calls_written (l : Life) :
    l.calls.flatMap Append.written = (l.acks.map Prod.fst).flatMap frame ++ l.last.written := by
  rw [calls, List.flatMap_append, List.flatMap_map, List.flatMap_map, List.flatMap_singleton]
  congr 1
  exact List.flatMap_congr fun r _ => List.take_length

theorem calls_whole (l : Life) : l.calls.flatMap Append.whole = l.whole := by
  rw [calls, whole, List.flatMap_append, List.flatMap_map, List.flatMap_singleton,
    List.map_eq_flatMap]
  congr 1
  exact List.flatMap_congr fun r _ => if_neg (Nat.lt_irrefl _)

/-- A call that is acknowledged leaves no torn frame. -/
theorem not_torn_of_mem_acks {l : Life} {a : Append}
    (h : a ∈ l.acks.map fun r => (⟨r.1, r.2, (frame r.1).length, true⟩ : Append)) : ¬a.Torn := by
  obtain ⟨r, -, rfl⟩ := List.mem_map.mp h
  exact fun htorn => Nat.lt_irrefl _ htorn.2

end Life

/-- The part of a session in which every call returns: a replay, `Open`, and
records appended one after the other. -/
def live (path : Path) (rs : List (Bytes × Bool)) : Prog World (List Status × WriteAheadLog) := do
  let _ ← replayAll path
  let (_, log) ← WriteAheadLog.open path
  appendAll rs log

/-- Sessions on one file, each of which dies while it appends a record. -/
inductive Lives (path : Path) : World → List Life → World → Prop where
  | done (w : World) : Lives path w [] w
  | next {w w₁ w₂ w' : World} {l : Life} {lives : List Life} {answers rest last : List Fault}
      {ss : List Status} {log : WriteAheadLog} {t t' : Nat}
      (returned : live path l.acks w answers = .returned (ss, log) w₁ rest t)
      (acknowledged : ∀ s ∈ ss, s = .OK)
      (crashed : log.addRecord l.last.data l.last.sync w₁ last = .crashed w₂ t')
      (left : w₂.bytes path = (w₁.bytes path).map (· ++ l.last.written))
      (later : Lives path w₂ lives w') : Lives path w (l :: lives) w'

theorem observes_replayAll_any {E : Env} (path : Path) (w : World) :
    Observes E (replayAll path) (fun _ => True) w := by
  cases hb : w.bytes path with
  | none => exact (observes_replayAll_missing hb).mono fun _ _ => trivial
  | some data => exact (observes_replayAll hb).mono fun _ _ => trivial

/-- A log that is not open acknowledges nothing. -/
theorem wp_appendAll_closed {E : Env} {C : World → Nat → Prop} {rs : List (Bytes × Bool)}
    {Q : List Status × WriteAheadLog → World → Nat → Prop}
    (hQ : ∀ ss, ss.length = rs.length → (∀ s ∈ ss, s ≠ .OK) → Q (ss, ⟨none, path⟩) w b) :
    wp E (appendAll rs ⟨none, path⟩) Q C w b := by
  induction rs generalizing Q with
  | nil => exact wp_pure (hQ [] rfl (by simp))
  | cons r rs ih =>
      refine wp_bind (wp_pure (wp_bind (ih fun ss hlen hss => wp_pure (hQ _ ?_ ?_))))
      · rw [List.length_cons, List.length_cons, hlen]
      · exact List.forall_mem_cons.mpr ⟨by decide, hss⟩

/-- A session whose appends are all acknowledged has added their frames. -/
theorem wp_live {E : Env} {C : World → Nat → Prop} {rs : List (Bytes × Bool)}
    {Q : List Status × WriteAheadLog → World → Nat → Prop}
    (hfit : E.excludes ∨ ((w.bytes path).getD []).length +
      ((rs.map Prod.fst).flatMap frame).length ≤ maxFileBytes)
    (hok : ∀ ss w', ((∀ s ∈ ss, s = .OK) ∨ E.fails) → ((∀ s ∈ ss, s = .OK) → w'.bytes path =
      some ((w.bytes path).getD [] ++ (rs.map Prod.fst).flatMap frame)) →
      Q (ss, ⟨some ⟨path, []⟩, path⟩) w' b)
    (hfail : E.fails → ∀ ss, ss.length = rs.length → (∀ s ∈ ss, s ≠ .OK) →
      Q (ss, ⟨none, path⟩) w b)
    (hC : E.crashes → ∀ w', C w' b) : wp E (live path rs) Q C w b := by
  rw [live]
  refine wp_observes (observes_replayAll_any path w) (fun hc => hC hc w) fun _ _ => ?_
  refine wp_bind (wp_open (fun w' _ hb => ?_) (fun hf s _ => ?_) fun hc w' _ _ => hC hc w')
  · refine wp_appendAll rfl (hfit.imp_right fun h => ?_) (fun ss w'' hss hw'' => ?_)
      fun hc w'' => hC hc w''
    · rwa [hb, Option.getD_some]
    · refine hok ss w'' hss fun hall => ?_
      rw [(hw'' hall).bytes, hb, Option.map_some]
  · exact wp_appendAll_closed (hfail hf)

/-- What one session leaves in the file. -/
theorem live_left {rs : List (Bytes × Bool)} {answers rest last : List Fault} {ss : List Status}
    {log : WriteAheadLog} {w w₁ w₂ : World} {t t' : Nat} {data : Bytes} {sync : Bool}
    (returned : live path rs w answers = .returned (ss, log) w₁ rest t)
    (acknowledged : ∀ s ∈ ss, s = .OK)
    (crashed : log.addRecord data sync w₁ last = .crashed w₂ t') :
    w₁.bytes path = some ((w.bytes path).getD [] ++ (rs.map Prod.fst).flatMap frame) := by
  have hwp : wp Env.hostile (live path rs) (fun r w' _ => (∀ s ∈ r.1, s = .OK) →
      r.2 = ⟨none, path⟩ ∨ w'.bytes path =
        some ((w.bytes path).getD [] ++ (rs.map Prod.fst).flatMap frame))
      (fun _ _ => True) w t :=
    wp_live (Or.inl trivial) (fun _ _ _ hw' hall => Or.inr (hw' hall))
      (fun _ _ _ _ _ => Or.inl rfl) fun _ _ => trivial
  rcases hwp.of_returned (Env.hostile_admits _) returned (Nat.le_refl t) acknowledged with h | h
  · -- a call on a log that is not open does not touch the file
    rw [show log = ⟨none, path⟩ from h] at crashed
    cases crashed
  · exact h

/-- The file after some sessions. -/
theorem Lives.bytes {lives : List Life} {w w' : World} (h : Lives path w lives w') :
    (w'.bytes path).getD [] =
      (w.bytes path).getD [] ++ (lives.flatMap Life.calls).flatMap Append.written := by
  induction h with
  | done w => simp
  | next returned acknowledged crashed left later ih =>
      rw [ih, left, live_left returned acknowledged crashed, List.flatMap_cons,
        List.flatMap_append, Life.calls_written]
      simp only [Option.map_some, Option.getD_some, List.append_assoc]

/-- As long as no session appends anything behind a torn frame, the next replay
delivers every acknowledged record of every session in order, and besides these
only whole records. -/
theorem lives_keep_acknowledged {recs : List Bytes} {lives : List Life} {w w' : World}
    (h : Lives path w lives w') (hw : (w.bytes path).getD [] = recs.flatMap frame)
    (hrecs : ∀ r ∈ recs, r.length < 2 ^ 32)
    (hshort : ∀ l ∈ lives, (∀ r ∈ l.acks, r.1.length < 2 ^ 32) ∧ l.last.data.length < 2 ^ 32)
    (hclean : lives.Pairwise fun l l' => l.last.Torn → l'.acks = [] ∧ l'.last.left = 0) :
    Observes Env.sure (replayAll path)
      (fun r => r = (.OK, recs ++ lives.flatMap Life.whole)) w' := by
  have hcalls : records (recs.flatMap frame ++ (lives.flatMap Life.calls).flatMap Append.written) =
      recs ++ lives.flatMap Life.whole := by
    rw [records_frames hrecs, records_written, List.flatMap_assoc]
    · congr 1
      exact List.flatMap_congr fun l _ => l.calls_whole
    · intro a ha
      obtain ⟨l, hl, ha⟩ := List.mem_flatMap.mp ha
      rcases List.mem_append.mp ha with ha | ha
      · obtain ⟨r, hr, rfl⟩ := List.mem_map.mp ha
        exact (hshort l hl).1 r hr
      · rw [List.mem_singleton.mp ha]
        exact (hshort l hl).2
    · refine List.pairwise_flatMap.mpr ⟨fun l _ => ?_, hclean.imp fun {l l'} hll a ha a' ha' => ?_⟩
      · refine List.pairwise_append.mpr ⟨?_, List.pairwise_singleton _ _, fun a ha _ _ htorn =>
          absurd htorn (Life.not_torn_of_mem_acks ha)⟩
        exact List.pairwise_of_forall_mem_list fun a ha _ _ htorn =>
          absurd htorn (Life.not_torn_of_mem_acks ha)
      · intro htorn
        rcases List.mem_append.mp ha with ha | ha
        · exact absurd htorn (Life.not_torn_of_mem_acks ha)
        · rw [List.mem_singleton.mp ha] at htorn
          obtain ⟨hacks, hleft⟩ := hll htorn
          rw [Life.calls, hacks, List.map_nil, List.nil_append] at ha'
          rw [List.mem_singleton.mp ha', hleft]
  have hbytes := h.bytes
  rw [hw] at hbytes
  cases hb : w'.bytes path with
  | none =>
      rw [hb, Option.getD_none] at hbytes
      rw [← hcalls, ← hbytes, records_nil]
      exact (observes_replayAll_missing hb).mono fun r hr => hr.resolve_right id
  | some data =>
      rw [hb, Option.getD_some] at hbytes
      rw [← hcalls, ← hbytes]
      exact (observes_replayAll hb).mono fun r hr => hr.resolve_right id

theorem addRecord_crash (data : Bytes) (sync : Bool) (n : Nat) (rest : List Fault) (w : World) :
    addRecord ⟨some ⟨path, []⟩, path⟩ data sync w (.crash n :: rest) =
      .crashed (w.append path ((frame data).take n)) 0 :=
  Prog.bind_of_crashed (fwrite_crash _ _ _)

/-- Where nothing fails, a session and the crash that ends it exist. -/
theorem Lives.exists_next (path : Path) (w : World) (acks : List (Bytes × Bool)) (data : Bytes) (sync : Bool)
    (n : Nat) (hfit : ((w.bytes path).getD []).length +
      ((acks.map Prod.fst).flatMap frame).length ≤ maxFileBytes) :
    ∃ w', w'.bytes path = some ((w.bytes path).getD [] ++ (acks.map Prod.fst).flatMap frame ++
        (frame data).take n) ∧
      ∀ lives w'', Lives path w' lives w'' →
        Lives path w (⟨acks, ⟨data, sync, n, false⟩⟩ :: lives) w'' := by
  have hwp : ∀ b, wp Env.sure (live path acks) (fun r w' _ => (∀ s ∈ r.1, s = .OK) ∧
      r.2 = ⟨some ⟨path, []⟩, path⟩ ∧ w'.bytes path =
        some ((w.bytes path).getD [] ++ (acks.map Prod.fst).flatMap frame))
      (fun _ _ => False) w b := fun b =>
    wp_live (Or.inr hfit) (fun ss w' hss hw' => ⟨hss.resolve_right id, rfl, hw' (hss.resolve_right id)⟩)
      (fun hf => hf.elim) fun hc => hc.elim
  obtain ⟨⟨ss, log⟩, w', rest, t, hrun, hack, hlog, hbytes⟩ := wp.returns hwp
  obtain rfl : log = ⟨some ⟨path, []⟩, path⟩ := hlog
  refine ⟨w'.append path ((frame data).take n), ?_, fun lives w'' hlives =>
    .next hrun hack (addRecord_crash data sync n [] w') (bytes_append_same _ _ _) hlives⟩
  rw [bytes_append_same, hbytes, Option.map_some]

/-- A session that leaves nothing behind at its end takes nothing away. -/
theorem lives_keep_acknowledged_two :
    ∃ w', Observes Env.sure (replayAll [])
      (fun r => r = (.OK, [] ++ [([([7], true)], ⟨[8], false, 0, false⟩),
        ([([], false)], ⟨[9], false, 3, false⟩)].flatMap fun l => Life.whole ⟨l.1, l.2⟩)) w' := by
  obtain ⟨w₁, hw₁, h₁⟩ := Lives.exists_next [] emptyLog [([7], true)] [8] false 0
    (by decide +kernel)
  obtain ⟨w₂, hw₂, h₂⟩ := Lives.exists_next [] w₁ [([], false)] [9] false 3
    (by rw [hw₁]; decide +kernel)
  exact ⟨w₂, lives_keep_acknowledged (h₁ _ _ (h₂ _ _ (.done w₂)))
    (by rw [emptyLog, bytes_put_same]; rfl) (by simp) (by decide) (by decide)⟩

/-- A session that appends behind the torn frame of an earlier one loses what it appends. -/
theorem lives_lose_acknowledged :
    ¬∀ (path : Path) (w w' : World) (lives : List Life), Lives path w lives w' →
      (w.bytes path).getD [] = [] →
      (∀ l ∈ lives, (∀ r ∈ l.acks, r.1.length < 2 ^ 32) ∧ l.last.data.length < 2 ^ 32) →
        Observes Env.sure (replayAll path) (fun r => r.1 = .OK ∧
          (lives.flatMap fun l => l.acks.map Prod.fst).Sublist r.2) w' := by
  intro h
  have hempty : emptyLog.bytes [] = some [] := bytes_put_same _ _ _
  obtain ⟨w₁, hw₁, h₁⟩ := Lives.exists_next [] emptyLog [] [] false 1
    (by decide +kernel)
  obtain ⟨w₂, hw₂, h₂⟩ := Lives.exists_next [] w₁ [([], false)] [] false 0
    (by rw [hw₁, hempty]; decide +kernel)
  have hlost := h _ _ _ _ (h₁ _ _ (h₂ _ _ (.done w₂))) (by rw [hempty]; rfl) (by decide)
  have hbytes : w₂.bytes [] = some ((frame []).take 1 ++ frame []) := by
    rw [hw₂, hw₁, hempty]
    simp
  obtain ⟨r, ⟨-, hsub⟩, hr⟩ := hlost.both (observes_replayAll (E := Env.sure) hbytes)
  rw [hr.resolve_right id, records_torn_byte] at hsub
  exact absurd (List.eq_nil_of_sublist_nil hsub) (by decide)

end ClomDB.WriteAheadLog
