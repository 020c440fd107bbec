import ClomDB.CounterRound
import ClomDB.Settling

/-!
# The last write

The database is a map: `Get` answers with the value of the last operation on a
key, however the steps of writes, flushes, compactions and reopenings lie
between each other, as long as the counter of file numbers does not come round.
Where it does, the table with the newer value is taken for the older one.
-/

namespace ClomDB

open FaultProgram FileSystem FileSystem.World SSTable DB

/-- The operations that a step has applied. -/
def Event.ops : Event → List BatchOp
  | .returned (.write _ batch) true _ => WriteBatch.decodeOps batch.rep
  | _ => []

/-- The last operation on a key. -/
def lastOn (key : Bytes) (ops : List BatchOp) : Option BatchOp :=
  ops.reverse.find? fun op => op.key = key

/-- The value that the last operation on a key puts there. -/
def lastWritten (es : List Event) : Content := fun key =>
  (lastOn key (es.flatMap Event.ops)).bind BatchOp.value?

section LastWrite

variable {d : Path} {w : World} {es : List Event} {t : Nat} {m : Machine} {db : DB}

/-- Applying operations in order leaves the last one on each key. -/
theorem foldl_apply (ops : List BatchOp) (c : Content) (key : Bytes) :
    ops.foldl BatchOp.apply c key = (lastOn key ops).elim (c key) BatchOp.value? := by
  induction ops using List.reverseRecOn with
  | nil => rfl
  | append_singleton ops op ih =>
      rw [List.foldl_append, List.foldl_cons, List.foldl_nil, BatchOp.apply, lastOn,
        List.reverse_append, List.reverse_singleton, List.singleton_append, List.find?_cons]
      by_cases hkey : op.key = key
      · subst hkey
        simp
      · rw [Function.update_of_ne (Ne.symm hkey), ih, decide_eq_false hkey]
        rfl

/-- The effect of a step is that of its operations. -/
theorem effect_eq_ops {e : Event} (hissued : e.Issued) (hregular : e.Regular) (c : Content) :
    e.effect c = e.ops.foldl BatchOp.apply c := by
  cases e with
  | crashed op => rfl
  | killed => rfl
  | returned op accepting s =>
      cases op with
      | write opts batch =>
          cases accepting with
          | false => rfl
          | true =>
              obtain ⟨ops, hshort, rfl⟩ := hissued
              have hlen : (WriteBatch.ofOps ops).rep.length < 2 ^ 32 := hregular
              have hafter : (WriteBatch.ofOps ops).after c =
                (Event.ops (.returned (.write opts (WriteBatch.ofOps ops)) true s)).foldl
                  BatchOp.apply c := rfl
              simp only [Event.effect]
              split
              next hempty =>
                -- an empty batch has no operation
                have hnil : ops = [] := by
                  by_contra hne
                  rw [WriteBatch.ofOps_not_empty hne (by omega)] at hempty
                  cases hempty
                subst hnil
                rfl
              next => exact hafter
      | _ => rfl

theorem contentOf_eq_lastWritten (hes : ∀ e ∈ es, e.Issued ∧ e.Regular) :
    contentOf es (fun _ => none) = lastWritten es := by
  have hfold : ∀ (es : List Event) (c : Content), (∀ e ∈ es, e.Issued ∧ e.Regular) →
      contentOf es c = (es.flatMap Event.ops).foldl BatchOp.apply c := by
    intro es
    induction es with
    | nil => exact fun c _ => rfl
    | cons e es ih =>
        intro c hes
        obtain ⟨he, hes⟩ := List.forall_mem_cons.mp hes
        rw [List.flatMap_cons, List.foldl_append, ← effect_eq_ops he.1 he.2 c, ← ih _ hes]
        rfl
  funext key
  rw [hfold es _ hes, foldl_apply, lastWritten]
  cases lastOn key (es.flatMap Event.ops) <;> rfl

/-- In every state that a run without a failing call reaches, whose batches were
issued with `Put` and `Delete`, an open database answers with the last operation on the
key, as long as file numbers do not wrap. -/
theorem get_last_written (hblank : Blank d w) (hpath : d.getLast? ≠ some separator)
    (hr : Run Env.calm Free d ⟨w, none⟩ es t m) (hes : ∀ e ∈ es, e.Issued ∧ e.Regular)
    (ht : t + 1 < 2 ^ 64) (hdb : m.db = some db) (hopen : db.closed = false) :
    Answers m.world db (lastWritten es) := by
  have hrun : Run ⟨False, False, True, True⟩ Free d ⟨w, none⟩ es t m :=
    Run.mono (E := Env.calm) (fun h => h) (fun h => h) (fun _ _ _ _ => id) hr
  have hstands := hrun.stands trivial trivial (fun hno => False.elim (or_self_iff.mp hno))
    (Or.inr hpath) (hblank.start (some fun _ => none) (by simp) ht)
    (fun _ _ e he => (hes e he).2) (Nat.le_refl t)
  rw [Option.map_some, contentOf_eq_lastWritten hes, Machine.Stands, hdb] at hstands
  exact Standing.answers hstands hopen

theorem get_last_written_twoWrites : ∃ es m db, twoWrites = some (es, 1, m) ∧ m.db = some db ∧
    Answers m.world db (lastWritten es) := by
  obtain ⟨es, m, db, hr, hdb, hes, hregular⟩ := twoWrites_run
  have hopen : db.closed = false := by
    have h : twoWritesMeets (fun _ db => !db.closed) = true := by decide +kernel
    rw [twoWritesMeets_iff hr hdb] at h
    simpa using h
  have hissued : ∀ e ∈ es, e.Issued := by
    refine issued_of_execute (fun p hp => ?_) hr
    rcases List.mem_cons.mp hp with rfl | hp
    · exact trivial
    rcases List.mem_cons.mp hp with rfl | hp
    · exact ⟨[.put [0x61] [0x78]], by simp [BatchOp.Short], rfl⟩
    rcases List.mem_cons.mp hp with rfl | hp
    · exact trivial
    · rw [List.mem_singleton.mp hp]
      exact ⟨[.put [0x62] [0x79]], by simp [BatchOp.Short], rfl⟩
  exact ⟨es, m, db, hr, hdb, get_last_written ⟨rfl, rfl⟩ (by decide)
    (twoWrites_reached (fun _ _ _ => trivial) hr hes) (fun e he => ⟨hissued e he, hregular e he⟩)
    (by decide) hdb hopen⟩

/-- A call of `Open` or `Write` that has returned OK. -/
def Event.Served : Event → Prop
  | .returned (.reopen _) _ s | .returned (.write _ _) _ s => s.ok = true
  | _ => False

/-- Before the last number the newer of two values is put under the number zero. -/
theorem get_misses_last_written : ¬∀ (d : Path) (w : World) (es : List Event) (t : Nat) (m : Machine)
    (db : DB), Blank d w → d.getLast? ≠ some separator → Run Env.calm Free d ⟨w, none⟩ es t m →
      (∀ e ∈ es, e.Issued ∧ e.Regular ∧ e.Served) → m.db = some db → db.closed = false →
      Answers m.world db (lastWritten es) := by
  intro hclaim
  obtain ⟨w₀, db₀, t₀, hopened, h₀⟩ := rounding_start
  obtain ⟨es, l1, db₁, w₁, t₁, hrun₁, hes, hl1, hn, h₁⟩ := h₀.rounds (Nat.zero_le 1)
    (fun f hf => absurd hf List.not_mem_nil) [0x64] 0xAAAAAAAAAAAAAAAA
  have hlast : 1 + 3 * UInt64.ofNat 0xAAAAAAAAAAAAAAAA = 0xFFFFFFFFFFFFFFFF := by decide
  rw [hlast] at hn h₁
  obtain ⟨f, db₂, w₂, t₂, hrun₂, -, ht, h₂⟩ := h₁.round hl1 hn [0x64] 0x79 0x7A
  rw [if_pos (show (0xFFFFFFFFFFFFFFFF : UInt64) + 1 ≤ 0xFFFFFFFFFFFFFFFF by decide)] at ht
  have hall := (hopened.run.trans hrun₁).trans hrun₂
  have hput : ∀ value, Event.Issued (.returned (.write {} (putOne value)) true .OK) ∧
      Event.Regular (.returned (.write {} (putOne value)) true .OK) ∧
      Event.Served (.returned (.write {} (putOne value)) true .OK) := fun value =>
    ⟨⟨[.put [0x61] [value]], by simp [BatchOp.Short], rfl⟩, Nat.le_of_ble_eq_true rfl, rfl⟩
  have hserved : ∀ e ∈ ([.returned (.reopen roundOptions) false .OK] ++ es) ++
      [.returned (.write {} (putOne 0x79)) true .OK, .returned (.write {} (putOne 0x7A)) true .OK],
      e.Issued ∧ e.Regular ∧ e.Served := by
    intro e he
    rcases List.mem_append.mp he with he | he
    · rcases List.mem_append.mp he with he | he
      · rw [List.mem_singleton.mp he]
        exact ⟨trivial, by decide, rfl⟩
      · rw [hes e he]
        exact hput 0x78
    · rcases List.mem_pair.mp he with rfl | rfl
      · exact hput 0x79
      · exact hput 0x7A
  have hanswers := hclaim [0x64] ⟨false, ∅⟩ _ _ _ db₂ ⟨rfl, rfl⟩ (by decide) hall hserved rfl
    h₂.closed
  have hwritten := congrFun (hanswers.eq_seen h₂.closed) [0x61]
  rw [h₂.seen ht, lastWritten, List.flatMap_append, lastOn, List.reverse_append] at hwritten
  have hops : ([.returned (.write {} (putOne 0x79)) true .OK,
      .returned (.write {} (putOne 0x7A)) true .OK].flatMap Event.ops) =
      [.put [0x61] [0x79], .put [0x61] [0x7A]] := by decide +kernel
  rw [hops] at hwritten
  cases hwritten

end LastWrite

end ClomDB
