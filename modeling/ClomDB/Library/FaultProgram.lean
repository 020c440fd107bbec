import Mathlib.Order.Basic

/-!
# Programs with faults, crashes and a tally

A program of this file reads and changes one state and makes calls to an
environment. A fault script answers the calls in order: a call succeeds,
fails, or is the last thing the process does. Nothing is said about the
state type or about the calls themselves.

The tally counts the ticks a program spends. A weakest precondition carries
a budget for it, so that a bound on the ticks of a whole execution is a
bound at every point inside it.

## Implementation notes

An exhausted script answers every remaining call with success. A call may be
able to succeed in some states only, and an execution in which it succeeds in
another one does not exist. A program that ran out of fuel is told apart from
such an execution: the first is a statement about the program, the second is not.
-/

namespace FaultProgram

/-- The environment's answer to one call. -/
inductive Fault where
  | ok
  | fail (n : Nat)
  | crash (n : Nat)
  deriving DecidableEq, Repr

/-- The call fails. -/
def Fault.fails : Fault → Bool
  | .fail _ => true
  | _ => false

theorem Fault.fails_iff {f : Fault} : f.fails = true ↔ ∃ n, f = .fail n := by
  cases f <;> simp [Fault.fails]

/-- The end of an execution. Only a returned program has a value and a rest of
the script; a crashed one leaves its state behind. -/
inductive Outcome (σ α : Type) where
  | returned (value : α) (state : σ) (rest : List Fault) (ticks : Nat)
  | crashed (state : σ) (ticks : Nat)
  | running (ticks : Nat)
  | impossible (ticks : Nat)
  deriving DecidableEq

/-- A program is run on a state and a fault script. -/
def Prog (σ α : Type) : Type := σ → List Fault → Outcome σ α

variable {σ α β : Type}

namespace Outcome

/-- The value of an execution that returned. -/
def value : Outcome σ α → Option α
  | .returned a _ _ _ => some a
  | _ => none

theorem value_eq_some {o : Outcome σ α} {a : α} (h : o.value = some a) :
    ∃ s rest t, o = .returned a s rest t := by
  cases o <;> simp_all [value]

/-- The state that an execution leaves. -/
def state : Outcome σ α → Option σ
  | .returned _ s _ _ | .crashed s _ => some s
  | _ => none

/-- What holds where an execution returns. -/
def AtReturn (o : Outcome σ α) (p : α → σ → List Fault → Prop) : Prop :=
  match o with
  | .returned a s rest _ => p a s rest
  | _ => True

@[simp] theorem atReturn_returned {a : α} {s : σ} {rest : List Fault} {t : Nat}
    {p : α → σ → List Fault → Prop} : (returned a s rest t).AtReturn p ↔ p a s rest := Iff.rfl

/-- Ticks spent before an execution count towards its own. -/
def after (spent : Nat) : Outcome σ α → Outcome σ α
  | .returned a s rest t => .returned a s rest (spent + t)
  | .crashed s t => .crashed s (spent + t)
  | .running t => .running (spent + t)
  | .impossible t => .impossible (spent + t)

@[simp] theorem after_zero (o : Outcome σ α) : o.after 0 = o := by
  cases o <;> simp [after]

theorem after_after (m n : Nat) (o : Outcome σ α) :
    (o.after n).after m = o.after (m + n) := by
  cases o <;> simp [after, Nat.add_assoc]

end Outcome

namespace Prog

/-- Return a value without a call. -/
def ret (a : α) : Prog σ α := fun s fs => .returned a s fs 0

/-- The second program runs on the state and on the script the first one left. -/
def seq (c : Prog σ α) (k : α → Prog σ β) : Prog σ β := fun s fs =>
  match c s fs with
  | .returned a s' rest t => (k a s' rest).after t
  | .crashed s' t => .crashed s' t
  | .running t => .running t
  | .impossible t => .impossible t

instance : Monad (Prog σ) where
  pure := ret
  bind := seq

theorem seq_assoc {γ : Type} (c : Prog σ α) (k : α → Prog σ β) (l : β → Prog σ γ) :
    seq (seq c k) l = seq c (fun a => seq (k a) l) := by
  funext s fs
  simp only [seq]
  cases c s fs with
  | returned a s' rest t =>
      simp only
      cases k a s' rest with
      | returned b s'' rest' t' => exact (Outcome.after_after t t' _).symm
      | crashed s'' t' => rfl
      | running t' => rfl
      | impossible t' => rfl
  | crashed s' t => rfl
  | running t => rfl
  | impossible t => rfl

theorem seq_ret (c : Prog σ α) : seq c (fun a => ret a) = c := by
  funext s fs
  simp only [seq]
  cases c s fs <;> simp [ret, Outcome.after]

theorem ret_seq (a : α) (k : α → Prog σ β) : seq (ret a) k = k a := by
  funext s fs
  exact Outcome.after_zero _

instance : LawfulMonad (Prog σ) :=
  LawfulMonad.mk' (Prog σ) seq_ret ret_seq seq_assoc

/-- Running on from where the first program has returned. -/
theorem bind_of_returned {c : Prog σ α} {k : α → Prog σ β} {s s' : σ} {fs rest : List Fault}
    {a : α} (h : c s fs = .returned a s' rest 0) : (c >>= k) s fs = k a s' rest := by
  change seq c k s fs = _
  rw [seq, h]
  exact Outcome.after_zero _

/-- A crash of the first program is one of the whole. -/
theorem bind_of_crashed {c : Prog σ α} {k : α → Prog σ β} {s s' : σ} {fs : List Fault} {t : Nat}
    (h : c s fs = .crashed s' t) : (c >>= k) s fs = .crashed s' t := by
  change seq c k s fs = _
  rw [seq, h]

/-- An execution that returns is one of the first program and one of the second. -/
theorem bind_returned {c : Prog σ α} {k : α → Prog σ β} {s s' : σ} {fs rest : List Fault} {b : β}
    {t : Nat} (h : (c >>= k) s fs = .returned b s' rest t) : ∃ a s₁ rest₁ t₁ t₂,
      c s fs = .returned a s₁ rest₁ t₁ ∧ k a s₁ rest₁ = .returned b s' rest t₂ := by
  change seq c k s fs = _ at h
  rw [seq] at h
  cases hc : c s fs with
  | returned a s₁ rest₁ t₁ =>
      rw [hc] at h
      cases hk : k a s₁ rest₁ with
      | returned b' s₂ rest₂ t₂ =>
          simp only [hk, Outcome.after] at h
          cases h
          exact ⟨a, s₁, rest₁, t₁, t₂, rfl, hk⟩
      | crashed => simp [hk, Outcome.after] at h
      | running => simp [hk, Outcome.after] at h
      | impossible => simp [hk, Outcome.after] at h
  | crashed => rw [hc] at h; cases h
  | running => rw [hc] at h; cases h
  | impossible => rw [hc] at h; cases h

/-- Read the state. -/
def state : Prog σ σ := fun s fs => .returned s s fs 0

/-- Change the state without a call. -/
def modify (f : σ → σ) : Prog σ Unit := fun s fs => .returned () (f s) fs 0

/-- One call. Its three effects are total functions, and the script decides
which of them takes place. It succeeds only in states with `p`. -/
def callIf (p : σ → Prop) [DecidablePred p] (ok : σ → α × σ) (fail : Nat → σ → α × σ)
    (crash : Nat → σ → σ) : Prog σ α := fun s fs =>
  match fs with
  | [] => if p s then .returned (ok s).1 (ok s).2 [] 0 else .impossible 0
  | .ok :: rest => if p s then .returned (ok s).1 (ok s).2 rest 0 else .impossible 0
  | .fail n :: rest => .returned (fail n s).1 (fail n s).2 rest 0
  | .crash n :: _ => .crashed (crash n s) 0

/-- A call that may succeed in every state. -/
def call (ok : σ → α × σ) (fail : Nat → σ → α × σ) (crash : Nat → σ → σ) : Prog σ α :=
  callIf (fun _ => True) ok fail crash

/-- A call that changes nothing. -/
def probeIf (p : Prop) [Decidable p] (ok : σ → α) (fail : Nat → α) : Prog σ α :=
  callIf (fun _ => p) (fun s => (ok s, s)) (fun n s => (fail n, s)) (fun _ s => s)

def probe (ok : σ → α) (fail : Nat → α) : Prog σ α := probeIf True ok fail

/-- Spend one tick. -/
def tick : Prog σ Unit := fun s fs => .returned () s fs 1

/-- The process ends here. -/
def abort : Prog σ α := fun s _ => .crashed s 0

/-- The fuel of a loop is used up. -/
def outOfFuel : Prog σ α := fun _ _ => .running 0

/-- No execution uses up its fuel. -/
def Ends (c : Prog σ α) : Prop := ∀ s fs t, c s fs ≠ .running t

section Ends

variable {c : Prog σ α} {k : α → Prog σ β}

theorem ends_pure (a : α) : Ends (pure a : Prog σ α) := fun _ _ _ h => nomatch h

theorem ends_abort : Ends (abort : Prog σ α) := fun _ _ _ h => nomatch h

theorem ends_tick : Ends (tick : Prog σ Unit) := fun _ _ _ h => nomatch h

theorem ends_state : Ends (state : Prog σ σ) := fun _ _ _ h => nomatch h

theorem ends_callIf {p : σ → Prop} [DecidablePred p] {ok : σ → α × σ} {fail : Nat → σ → α × σ}
    {crash : Nat → σ → σ} : Ends (callIf p ok fail crash) := by
  intro s fs t h
  have hsuccess : ∀ rest, (if p s then Outcome.returned (ok s).1 (ok s).2 rest 0
      else .impossible 0) ≠ .running t := by
    intro rest
    by_cases hp : p s
    · rw [if_pos hp]
      exact fun h => nomatch h
    · rw [if_neg hp]
      exact fun h => nomatch h
  cases fs with
  | nil => exact hsuccess [] h
  | cons f rest =>
      cases f with
      | ok => exact hsuccess rest h
      | fail n => exact nomatch h
      | crash n => exact nomatch h

/-- Fuel is used up in the first program, or in the second one after the first. -/
theorem bind_running {s : σ} {fs : List Fault} {t : Nat} (h : (c >>= k) s fs = .running t) :
    (∃ t', c s fs = .running t') ∨ ∃ a s₁ rest₁ t₁ t₂, c s fs = .returned a s₁ rest₁ t₁ ∧
      k a s₁ rest₁ = .running t₂ := by
  change seq c k s fs = _ at h
  rw [seq] at h
  cases hc : c s fs with
  | returned a s₁ rest₁ t₁ =>
      rw [hc] at h
      cases hk : k a s₁ rest₁ with
      | running t₂ => exact Or.inr ⟨a, s₁, rest₁, t₁, t₂, rfl, hk⟩
      | returned => simp [hk, Outcome.after] at h
      | crashed => simp [hk, Outcome.after] at h
      | impossible => simp [hk, Outcome.after] at h
  | running t' => exact Or.inl ⟨t', rfl⟩
  | crashed => rw [hc] at h; cases h
  | impossible => rw [hc] at h; cases h

theorem Ends.bind (hc : Ends c) (hk : ∀ a, Ends (k a)) : Ends (c >>= k) := by
  intro s fs t h
  rcases bind_running h with ⟨t', hrun⟩ | ⟨a, s₁, rest₁, _, t₂, -, hrun⟩
  · exact hc s fs t' hrun
  · exact hk a s₁ rest₁ t₂ hrun

theorem Ends.ite {p : Prop} [Decidable p] {d : Prog σ α} (hc : Ends c) (hd : Ends d) :
    Ends (if p then c else d) := by
  by_cases hp : p
  · rw [if_pos hp]; exact hc
  · rw [if_neg hp]; exact hd

end Ends

end Prog

/-- Which answers an environment may give, whether a loop may go on for longer
than its fuel, and whether a call may be one that could not succeed. -/
structure Env where
  fails : Prop
  crashes : Prop
  diverges : Prop
  excludes : Prop

namespace Env

/-- The scripts of an environment. -/
def Admits (E : Env) (fs : List Fault) : Prop :=
  (∀ n, Fault.fail n ∈ fs → E.fails) ∧ (∀ n, Fault.crash n ∈ fs → E.crashes)

@[simp] theorem admits_nil (E : Env) : E.Admits [] := by
  simp [Admits]

theorem Admits.tail {E : Env} {f : Fault} {fs : List Fault} (h : E.Admits (f :: fs)) :
    E.Admits fs :=
  ⟨fun n hn => h.1 n (List.mem_cons_of_mem _ hn),
    fun n hn => h.2 n (List.mem_cons_of_mem _ hn)⟩

/-- Every call succeeds and every loop ends within its fuel. -/
def calm : Env := ⟨False, False, False, True⟩

/-- Calls may fail, and the process may crash in any of them. -/
def hostile : Env := ⟨True, True, True, True⟩

/-- Every call succeeds, and every execution exists. -/
def sure : Env := ⟨False, False, False, False⟩

theorem hostile_admits (fs : List Fault) : hostile.Admits fs :=
  ⟨fun _ _ => trivial, fun _ _ => trivial⟩

end Env

/-- What an outcome must satisfy, given the ticks that may still be spent. An
execution over the budget satisfies everything. -/
def Outcome.Meets (E : Env) (Q : α → σ → Nat → Prop) (C : σ → Nat → Prop) (b : Nat) :
    Outcome σ α → Prop
  | .returned a s rest t => t ≤ b → E.Admits rest ∧ Q a s (b - t)
  | .crashed s t => t ≤ b → C s (b - t)
  | .running t => t ≤ b → E.diverges
  | .impossible t => t ≤ b → E.excludes

theorem Outcome.Meets.after {E : Env} {Q : α → σ → Nat → Prop} {C : σ → Nat → Prop}
    {o : Outcome σ α} {t b : Nat} (h : t ≤ b → o.Meets E Q C (b - t)) :
    (o.after t).Meets E Q C b := by
  cases o with
  | returned a s rest u =>
      intro hle
      have hq := h (by omega) (by omega)
      rwa [Nat.sub_sub] at hq
  | crashed s u =>
      intro hle
      have hq := h (by omega) (by omega)
      rwa [Nat.sub_sub] at hq
  | running u => exact fun hle => h (by omega) (by omega)
  | impossible u => exact fun hle => h (by omega) (by omega)

/-- From `s`, with a budget of `b` ticks, every execution that ends does so in
`Q`, and every crash leaves a state in `C`. -/
def wp (E : Env) (c : Prog σ α) (Q : α → σ → Nat → Prop) (C : σ → Nat → Prop)
    (s : σ) (b : Nat) : Prop :=
  ∀ fs, E.Admits fs → (c s fs).Meets E Q C b

section Rules

variable {E : Env} {Q : α → σ → Nat → Prop} {C : σ → Nat → Prop} {s : σ} {b : Nat}

theorem wp_pure {a : α} (h : Q a s b) : wp E (pure a : Prog σ α) Q C s b :=
  fun _ hfs _ => ⟨hfs, h⟩

theorem wp_bind {c : Prog σ α} {k : α → Prog σ β} {Q : β → σ → Nat → Prop}
    (h : wp E c (fun a s' b' => wp E (k a) Q C s' b') C s b) :
    wp E (c >>= k) Q C s b := by
  intro fs hfs
  have hc := h fs hfs
  change (Prog.seq c k s fs).Meets E Q C b
  simp only [Prog.seq]
  cases hr : c s fs with
  | returned a s' rest t =>
      rw [hr] at hc
      exact Outcome.Meets.after fun ht => (hc ht).2 rest (hc ht).1
  | crashed s' t => rw [hr] at hc; exact hc
  | running t => rw [hr] at hc; exact hc
  | impossible t => rw [hr] at hc; exact hc

/-- Sequencing for one script, by the ends of the first program. -/
theorem Outcome.Meets.bind {c : Prog σ α} {k : α → Prog σ β} {Q : β → σ → Nat → Prop}
    {fs : List Fault} (hd : E.diverges) (hx : E.excludes)
    (hcrash : ∀ s' t, c s fs = .crashed s' t → t ≤ b → C s' (b - t))
    (hk : ∀ a s' rest t, c s fs = .returned a s' rest t → t ≤ b →
      (k a s' rest).Meets E Q C (b - t)) : ((c >>= k) s fs).Meets E Q C b := by
  change (Prog.seq c k s fs).Meets E Q C b
  simp only [Prog.seq]
  cases hr : c s fs with
  | returned a s' rest t => exact Outcome.Meets.after (hk a s' rest t hr)
  | crashed s' t => exact hcrash s' t hr
  | running t => exact fun _ => hd
  | impossible t => exact fun _ => hx

theorem Outcome.Meets.mono {o : Outcome σ α} {Q' : α → σ → Nat → Prop} {C' : σ → Nat → Prop}
    (h : o.Meets E Q' C' b) (hQ : ∀ a s' b', Q' a s' b' → Q a s' b')
    (hC : ∀ s' b', C' s' b' → C s' b') : o.Meets E Q C b := by
  cases o with
  | returned a s' rest t => exact fun ht => ⟨(h ht).1, hQ _ _ _ (h ht).2⟩
  | crashed s' t => exact fun ht => hC _ _ (h ht)
  | running t => exact h
  | impossible t => exact h

theorem Outcome.Meets.and_atReturn {o : Outcome σ α} {p : α → σ → List Fault → Prop}
    (h : o.Meets E Q C b) (hp : o.AtReturn p) :
    o.Meets E (fun a s b => Q a s b ∧ ∃ rest, p a s rest) C b := by
  cases o with
  | returned a s' rest t => exact fun ht => ⟨(h ht).1, (h ht).2, rest, hp⟩
  | crashed s' t => exact h
  | running t => exact h
  | impossible t => exact h

/-- A hostile environment asks nothing of the way an execution ends. -/
theorem Outcome.Meets.hostile {o : Outcome σ α} (h : o.Meets E Q C b) :
    o.Meets Env.hostile Q C b := by
  cases o with
  | returned a s' rest t => exact fun ht => ⟨Env.hostile_admits rest, (h ht).2⟩
  | crashed s' t => exact h
  | running t => exact fun _ => trivial
  | impossible t => exact fun _ => trivial

/-- The consequence rule. -/
theorem wp_mono {c : Prog σ α} {Q' : α → σ → Nat → Prop} {C' : σ → Nat → Prop}
    (h : wp E c Q' C' s b) (hQ : ∀ a s' b', Q' a s' b' → Q a s' b')
    (hC : ∀ s' b', C' s' b' → C s' b') : wp E c Q C s b :=
  fun fs hfs => (h fs hfs).mono hQ hC

/-- The conjunction rule. The second specification is of an environment that
answers no more than the first one does. -/
theorem wp_within {E' : Env} {c : Prog σ α} {Q' : α → σ → Nat → Prop} {C' : σ → Nat → Prop}
    (hE : ∀ fs, E'.Admits fs → E.Admits fs) (h : wp E c Q C s b) (h' : wp E' c Q' C' s b) :
    wp E' c (fun a s' b' => Q a s' b' ∧ Q' a s' b') (fun s' b' => C s' b' ∧ C' s' b') s b := by
  intro fs hfs
  have hc := h fs (hE fs hfs)
  have hc' := h' fs hfs
  cases hr : c s fs with
  | returned a s' rest t =>
      rw [hr] at hc hc'
      exact fun ht => ⟨(hc' ht).1, (hc ht).2, (hc' ht).2⟩
  | crashed s' t =>
      rw [hr] at hc hc'
      exact fun ht => ⟨hc ht, hc' ht⟩
  | running t => rw [hr] at hc'; exact hc'
  | impossible t => rw [hr] at hc'; exact hc'

theorem wp_and {c : Prog σ α} {Q' : α → σ → Nat → Prop} {C' : σ → Nat → Prop}
    (h : wp E c Q C s b) (h' : wp E c Q' C' s b) :
    wp E c (fun a s' b' => Q a s' b' ∧ Q' a s' b') (fun s' b' => C s' b' ∧ C' s' b') s b :=
  wp_within (fun _ => id) h h'

/-- The budget only goes down. -/
theorem wp_spent {c : Prog σ α} (h : wp E c Q C s b) :
    wp E c (fun a s' b' => Q a s' b' ∧ b' ≤ b) (fun s' b' => C s' b' ∧ b' ≤ b) s b := by
  intro fs hfs
  have hc := h fs hfs
  cases hr : c s fs with
  | returned a s' rest t =>
      rw [hr] at hc
      exact fun ht => ⟨(hc ht).1, (hc ht).2, Nat.sub_le b t⟩
  | crashed s' t =>
      rw [hr] at hc
      exact fun ht => ⟨hc ht, Nat.sub_le b t⟩
  | running t => rw [hr] at hc; exact hc
  | impossible t => rw [hr] at hc; exact hc

/-- Sequencing through the specification of the first program. -/
theorem wp_then {c : Prog σ α} {k : α → Prog σ β} {Q : β → σ → Nat → Prop}
    {R : α → σ → Nat → Prop} {C' : σ → Nat → Prop} (h : wp E c R C' s b)
    (hk : ∀ a s' b', R a s' b' → wp E (k a) Q C s' b')
    (hC : ∀ s' b', C' s' b' → C s' b') : wp E (c >>= k) Q C s b :=
  wp_bind (wp_mono h hk hC)

theorem wp_state {Q : σ → σ → Nat → Prop} (h : Q s s b) : wp E (Prog.state : Prog σ σ) Q C s b :=
  fun _ hfs _ => ⟨hfs, h⟩

theorem wp_modify {f : σ → σ} {Q : Unit → σ → Nat → Prop} (h : Q () (f s) b) :
    wp E (Prog.modify f) Q C s b :=
  fun _ hfs _ => ⟨hfs, h⟩

theorem wp_callIf {p : σ → Prop} [DecidablePred p] {ok : σ → α × σ} {fail : Nat → σ → α × σ}
    {crash : Nat → σ → σ} (hp : E.excludes ∨ p s) (hok : p s → Q (ok s).1 (ok s).2 b)
    (hfail : E.fails → ∀ n, Q (fail n s).1 (fail n s).2 b)
    (hcrash : E.crashes → ∀ n, C (crash n s) b) :
    wp E (Prog.callIf p ok fail crash) Q C s b := by
  have hsuccess : ∀ rest, E.Admits rest → (if p s then
      Outcome.returned (ok s).1 (ok s).2 rest 0 else .impossible 0).Meets E Q C b := by
    intro rest hrest
    by_cases hps : p s
    · rw [if_pos hps]
      exact fun _ => ⟨hrest, hok hps⟩
    · rw [if_neg hps]
      exact fun _ => hp.resolve_right hps
  intro fs hfs
  cases fs with
  | nil => exact hsuccess [] hfs
  | cons f rest =>
      cases f with
      | ok => exact hsuccess rest hfs.tail
      | fail n => exact fun _ => ⟨hfs.tail, hfail (hfs.1 n List.mem_cons_self) n⟩
      | crash n => exact fun _ => hcrash (hfs.2 n List.mem_cons_self) n

theorem wp_call {ok : σ → α × σ} {fail : Nat → σ → α × σ} {crash : Nat → σ → σ}
    (hok : Q (ok s).1 (ok s).2 b)
    (hfail : E.fails → ∀ n, Q (fail n s).1 (fail n s).2 b)
    (hcrash : E.crashes → ∀ n, C (crash n s) b) :
    wp E (Prog.call ok fail crash) Q C s b :=
  wp_callIf (Or.inr trivial) (fun _ => hok) hfail hcrash

/-- A tick is paid from the budget. -/
theorem wp_tick {Q : Unit → σ → Nat → Prop} (h : ∀ b', b = b' + 1 → Q () s b') :
    wp E (Prog.tick : Prog σ Unit) Q C s b := by
  intro fs hfs ht
  exact ⟨hfs, h (b - 1) (by omega)⟩

theorem wp_abort (h : C s b) : wp E (Prog.abort : Prog σ α) Q C s b :=
  fun _ _ _ => h

theorem wp_outOfFuel (h : E.diverges) : wp E (Prog.outOfFuel : Prog σ α) Q C s b :=
  fun _ _ _ => h

theorem wp_ite {p : Prop} [Decidable p] {c d : Prog σ α} (hc : p → wp E c Q C s b)
    (hd : ¬p → wp E d Q C s b) : wp E (if p then c else d) Q C s b := by
  by_cases hp : p
  · rw [if_pos hp]; exact hc hp
  · rw [if_neg hp]; exact hd hp

/-- Reading a specification off an execution that returned. -/
theorem wp.of_returned {c : Prog σ α} {fs rest : List Fault} {a : α} {s' : σ} {t : Nat}
    (h : wp E c Q C s b) (hfs : E.Admits fs) (hr : c s fs = .returned a s' rest t)
    (ht : t ≤ b) : Q a s' (b - t) := by
  have hc := h fs hfs
  rw [hr] at hc
  exact (hc ht).2

theorem wp.of_crashed {c : Prog σ α} {fs : List Fault} {s' : σ} {t : Nat}
    (h : wp E c Q C s b) (hfs : E.Admits fs) (hr : c s fs = .crashed s' t) (ht : t ≤ b) :
    C s' (b - t) := by
  have hc := h fs hfs
  rw [hr] at hc
  exact hc ht

theorem wp.of_running {c : Prog σ α} {fs : List Fault} {t : Nat} (h : wp E c Q C s b)
    (hfs : E.Admits fs) (hr : c s fs = .running t) (ht : t ≤ b) : E.diverges := by
  have hc := h fs hfs
  rw [hr] at hc
  exact hc ht

/-- In a hostile environment every execution is accounted for. -/
theorem wp_hostile {c : Prog σ α} : wp Env.hostile c (fun _ _ _ => True) (fun _ _ => True) s b := by
  intro fs _
  cases hr : c s fs with
  | returned a s' rest t => exact fun _ => ⟨Env.hostile_admits rest, trivial⟩
  | crashed s' t => exact fun _ => trivial
  | running t => exact fun _ => trivial
  | impossible t => exact fun _ => trivial

/-- Where every execution exists and nothing fails, the program returns. -/
theorem wp.returns {c : Prog σ α} {R : α → σ → Prop}
    (h : ∀ b, wp Env.sure c (fun a s' _ => R a s') (fun _ _ => False) s b) :
    ∃ a s' rest t, c s [] = .returned a s' rest t ∧ R a s' := by
  cases hr : c s [] with
  | returned a s' rest t =>
      exact ⟨a, s', rest, t, rfl, (h t).of_returned (Env.admits_nil _) hr (Nat.le_refl t)⟩
  | crashed s' t => exact ((h t).of_crashed (Env.admits_nil _) hr (Nat.le_refl t)).elim
  | running t => exact ((h t).of_running (Env.admits_nil _) hr (Nat.le_refl t)).elim
  | impossible t =>
      have himpossible := h t [] (Env.admits_nil _)
      rw [hr] at himpossible
      exact (himpossible (Nat.le_refl t)).elim

/-- A program that cannot return is the end of the process. -/
theorem wp.dies {c : Prog σ α} {R : σ → Prop}
    (h : ∀ b, wp Env.sure c (fun _ _ _ => False) (fun s' _ => R s') s b) :
    ∃ s' t, c s [] = .crashed s' t ∧ R s' := by
  cases hr : c s [] with
  | returned a s' rest t =>
      exact ((h t).of_returned (Env.admits_nil _) hr (Nat.le_refl t)).elim
  | crashed s' t => exact ⟨s', t, rfl, (h t).of_crashed (Env.admits_nil _) hr (Nat.le_refl t)⟩
  | running t => exact ((h t).of_running (Env.admits_nil _) hr (Nat.le_refl t)).elim
  | impossible t =>
      have himpossible := h t [] (Env.admits_nil _)
      rw [hr] at himpossible
      exact (himpossible (Nat.le_refl t)).elim

end Rules

section Observation

variable {E : Env} {R : α → Prop} {s : σ}

/-- The program only looks: it ends in a value of `R`, and neither state nor
budget has changed. -/
def Observes (E : Env) (c : Prog σ α) (R : α → Prop) (s : σ) : Prop :=
  ∀ b, wp E c (fun a s' b' => R a ∧ s' = s ∧ b' = b)
    (fun s' b' => E.crashes ∧ s' = s ∧ b' = b) s b

theorem Observes.ret {a : α} (h : R a) : Observes E (pure a : Prog σ α) R s :=
  fun _ => wp_pure ⟨h, rfl, rfl⟩

theorem Observes.mono {c : Prog σ α} {R' : α → Prop} (h : Observes E c R' s)
    (hR : ∀ a, R' a → R a) : Observes E c R s :=
  fun b => wp_mono (h b) (fun _ _ _ ⟨ha, hs⟩ => ⟨hR _ ha, hs⟩) fun _ _ hs => hs

theorem Observes.bind {c : Prog σ α} {k : α → Prog σ β} {R' : β → Prop}
    (h : Observes E c R s) (hk : ∀ a, R a → Observes E (k a) R' s) :
    Observes E (c >>= k) R' s := by
  intro b
  refine wp_then (h b) ?_ fun _ _ hs => hs
  rintro a _ _ ⟨ha, rfl, rfl⟩
  exact hk a ha _

theorem Observes.state {c : σ → Prog σ α} (h : Observes E (c s) R s) :
    Observes E (Prog.state >>= c) R s :=
  fun b => wp_bind (wp_state (h b))

theorem Observes.probeIf {p : Prop} [Decidable p] {ok : σ → α} {fail : Nat → α}
    (hp : E.excludes ∨ p) (hok : p → R (ok s)) (hfail : E.fails → ∀ n, R (fail n)) :
    Observes E (Prog.probeIf p ok fail) R s :=
  fun _ => wp_callIf hp (fun h => ⟨hok h, rfl, rfl⟩) (fun he n => ⟨hfail he n, rfl, rfl⟩)
    fun hc _ => ⟨hc, rfl, rfl⟩

theorem Observes.probe {ok : σ → α} {fail : Nat → α} (hok : R (ok s))
    (hfail : E.fails → ∀ n, R (fail n)) : Observes E (Prog.probe ok fail) R s :=
  Observes.probeIf (Or.inr trivial) (fun _ => hok) hfail

/-- Of two observations of one program some value has both properties. -/
theorem Observes.both {c : Prog σ α} {R' : α → Prop} (h : Observes Env.sure c R s)
    (h' : Observes Env.sure c R' s) : ∃ a, R a ∧ R' a := by
  have hwp : ∀ b, wp Env.sure c (fun a _ _ => R a) (fun _ _ => False) s b := fun b =>
    wp_mono (h b) (fun _ _ _ ha => ha.1) fun _ _ hc => hc.1
  obtain ⟨a, s', rest, t, hr, ha⟩ := wp.returns hwp
  exact ⟨a, ha, ((h' t).of_returned (Env.admits_nil _) hr (Nat.le_refl t)).1⟩

/-- Looking first, then going on with what was seen. -/
theorem wp_observes {c : Prog σ α} {k : α → Prog σ β} {Q : β → σ → Nat → Prop}
    {C : σ → Nat → Prop} {b : Nat} (h : Observes E c R s) (hC : E.crashes → C s b)
    (hk : ∀ a, R a → wp E (k a) Q C s b) : wp E (c >>= k) Q C s b := by
  refine wp_then (h b) ?_ ?_
  · rintro a _ _ ⟨ha, rfl, rfl⟩
    exact hk a ha
  · rintro _ _ ⟨hc, rfl, rfl⟩
    exact hC hc

end Observation

section Echoes

variable {E : Env} {s s₀ : σ} {c d : Prog σ α}

/-- The program only looks, and it returns what it returns on a state of
reference where every call succeeds. It may end the process. -/
def Echoes (E : Env) (s₀ : σ) (c : Prog σ α) (s : σ) : Prop :=
  ∀ b, wp E c (fun a s' b' => (∃ t, c s₀ [] = .returned a s₀ [] t) ∧ s' = s ∧ b' = b)
    (fun s' _ => s' = s) s b

theorem Echoes.ret (a : α) : Echoes E s₀ (pure a : Prog σ α) s :=
  fun _ => wp_pure ⟨⟨0, rfl⟩, rfl, rfl⟩

theorem Echoes.bind {k : α → Prog σ β} (h : Echoes E s₀ c s)
    (hk : ∀ a t, c s₀ [] = .returned a s₀ [] t → Echoes E s₀ (k a) s) :
    Echoes E s₀ (c >>= k) s := by
  intro b
  refine wp_then (h b) ?_ fun _ _ => id
  rintro a _ _ ⟨⟨t, ht⟩, rfl, rfl⟩
  refine wp_mono (hk a t ht _) ?_ fun _ _ => id
  rintro a' s' b' ⟨⟨t', ht'⟩, hs⟩
  refine ⟨⟨t + t', ?_⟩, hs⟩
  change Prog.seq c k s₀ [] = _
  rw [Prog.seq, ht]
  change (k a s₀ []).after t = _
  rw [ht']
  rfl

theorem Echoes.ite {p : Prop} [Decidable p] (hc : Echoes E s₀ c s) (hd : Echoes E s₀ d s) :
    Echoes E s₀ (if p then c else d) s := by
  by_cases hp : p
  · rw [if_pos hp]
    exact hc
  · rw [if_neg hp]
    exact hd

/-- A call that sees the same in both states. -/
theorem Echoes.probeIf {p : Prop} [Decidable p] {ok : σ → α} {fail : Nat → α} (hf : ¬E.fails)
    (hp : E.excludes ∨ p) (h : ok s = ok s₀) : Echoes E s₀ (Prog.probeIf p ok fail) s := by
  refine fun b => wp_callIf hp (fun hps => ⟨⟨0, ?_⟩, rfl, rfl⟩) (fun he => absurd he hf) fun _ _ => rfl
  rw [Prog.probeIf, Prog.callIf, if_pos hps]
  simp only [h]

theorem Echoes.probe {ok : σ → α} {fail : Nat → α} (hf : ¬E.fails) (h : ok s = ok s₀) :
    Echoes E s₀ (Prog.probe ok fail) s :=
  Echoes.probeIf hf (Or.inr trivial) h

theorem Echoes.abort : Echoes E s₀ (Prog.abort : Prog σ α) s := fun _ => wp_abort rfl

/-- What is returned where every call succeeds is returned on the state of
reference as well. -/
theorem Echoes.of_returned {a : α} {s' : σ} {rest : List Fault} {t : Nat} (h : Echoes E s₀ c s)
    (hr : c s [] = .returned a s' rest t) : ∃ t, c s₀ [] = .returned a s₀ [] t :=
  ((h t).of_returned (Env.admits_nil E) hr (Nat.le_refl t)).1

end Echoes

section Effects

/-- An environment in which an execution need not return. -/
class Env.Lenient (E : Env) : Prop where
  diverges : E.diverges
  excludes : E.excludes

instance : Env.hostile.Lenient := ⟨trivial, trivial⟩

variable {E : Env} {R : σ → σ → Prop} {P : α → Prop} {P' : β → Prop}

/-- Whatever its calls answer, and also when the process dies in it, the program
changes the state as the relation says. What it returns has a property. -/
def Effects (E : Env) (R : σ → σ → Prop) (P : α → Prop) (c : Prog σ α) : Prop :=
  ∀ s b, wp E c (fun a s' _ => R s s' ∧ P a) (fun s' _ => R s s') s b

theorem Effects.mono {c : Prog σ α} {R₁ : σ → σ → Prop} {P₁ : α → Prop} (h : Effects E R₁ P₁ c)
    (hR : ∀ s s', R₁ s s' → R s s') (hP : ∀ a, P₁ a → P a) : Effects E R P c :=
  fun s b => wp_mono (h s b) (fun _ _ _ ⟨hs, ha⟩ => ⟨hR _ _ hs, hP _ ha⟩) fun _ _ hs => hR _ _ hs

theorem Effects.ret [Std.Refl R] {a : α} (h : P a) : Effects E R P (pure a : Prog σ α) :=
  fun s _ => wp_pure ⟨Std.Refl.refl s, h⟩

theorem Effects.bind [IsTrans σ R] {c : Prog σ α} {k : α → Prog σ β} (h : Effects E R P c)
    (hk : ∀ a, P a → Effects E R P' (k a)) : Effects E R P' (c >>= k) := by
  intro s b
  refine wp_then (h s b) ?_ fun _ _ hs => hs
  rintro a s₁ b₁ ⟨hs₁, ha⟩
  exact wp_mono (hk a ha s₁ b₁) (fun _ _ _ ⟨hs, hb⟩ => ⟨IsTrans.trans _ _ _ hs₁ hs, hb⟩)
    fun _ _ hs => IsTrans.trans _ _ _ hs₁ hs

theorem Effects.ite {p : Prop} [Decidable p] {c d : Prog σ α} (hc : p → Effects E R P c)
    (hd : ¬p → Effects E R P d) : Effects E R P (if p then c else d) :=
  fun s b => wp_ite (fun h => hc h s b) fun h => hd h s b

theorem Effects.callIf [E.Lenient] {p : σ → Prop} [DecidablePred p] {ok : σ → α × σ} {fail : Nat → σ → α × σ}
    {crash : Nat → σ → σ} (hok : ∀ s, R s (ok s).2 ∧ P (ok s).1)
    (hfail : ∀ n s, R s (fail n s).2 ∧ P (fail n s).1) (hcrash : ∀ n s, R s (crash n s)) :
    Effects E R P (Prog.callIf p ok fail crash) :=
  fun s _ => wp_callIf (Or.inl Env.Lenient.excludes) (fun _ => hok s) (fun _ n => hfail n s)
    fun _ n => hcrash n s

/-- A call that changes nothing. -/
theorem Effects.probeIf [E.Lenient] [Std.Refl R] {p : Prop} [Decidable p] {ok : σ → α} {fail : Nat → α}
    (hok : ∀ s, P (ok s)) (hfail : ∀ n, P (fail n)) : Effects E R P (Prog.probeIf p ok fail) :=
  Effects.callIf (fun s => ⟨Std.Refl.refl s, hok s⟩) (fun n s => ⟨Std.Refl.refl s, hfail n⟩)
    fun _ s => Std.Refl.refl s

theorem Effects.state [Std.Refl R] [IsTrans σ R] {c : σ → Prog σ α} (h : ∀ s, Effects E R P (c s)) :
    Effects E R P (Prog.state >>= c) :=
  fun s b => wp_bind (wp_state (h s s b))

theorem Effects.tick [Std.Refl R] : Effects E R (fun _ => True) (Prog.tick : Prog σ Unit) :=
  fun s _ => wp_tick fun _ _ => ⟨Std.Refl.refl s, trivial⟩

theorem Effects.abort [Std.Refl R] : Effects E R P (Prog.abort : Prog σ α) :=
  fun s _ => wp_abort (Std.Refl.refl s)

theorem Effects.outOfFuel [E.Lenient] : Effects E R P (Prog.outOfFuel : Prog σ α) :=
  fun _ _ => wp_outOfFuel Env.Lenient.diverges

end Effects

section Reading

/-- The answers that an execution which returns has used. -/
def Prog.used (c : Prog σ α) (s : σ) (fs : List Fault) : List Fault :=
  match c s fs with
  | .returned _ _ rest _ => fs.take (fs.length - rest.length)
  | _ => fs

/-- One of the calls fails. -/
def Prog.MeetsFailure (c : Prog σ α) (s : σ) (fs : List Fault) : Prop :=
  ∃ n, Fault.fail n ∈ c.used s fs

instance (c : Prog σ α) (s : σ) (fs : List Fault) (p : α → σ → List Fault → Prop)
    [∀ a s rest, Decidable (p a s rest)] : Decidable ((c s fs).AtReturn p) :=
  match c s fs with
  | .returned a s rest _ => inferInstanceAs (Decidable (p a s rest))
  | .crashed _ _ | .running _ | .impossible _ => isTrue trivial

instance (c : Prog σ α) (s : σ) (fs : List Fault) : Decidable (c.MeetsFailure s fs) :=
  decidable_of_iff (∃ f ∈ c.used s fs, f.fails = true) (by
    simp only [Prog.MeetsFailure]
    constructor
    · rintro ⟨f, hf, hfail⟩
      obtain ⟨n, rfl⟩ := Fault.fails_iff.mp hfail
      exact ⟨n, hf⟩
    · rintro ⟨n, hn⟩
      exact ⟨.fail n, hn, rfl⟩)

/-- The answers that an execution which returns has left. -/
def Prog.left (c : Prog σ α) (s : σ) (fs : List Fault) : List Fault :=
  match c s fs with
  | .returned _ _ rest _ => rest
  | _ => []

/-- The items whose program meets no failing call, when the programs run one
after the other. -/
def spared {ι : Type} (p : ι → Prog σ α) (s : σ) : List ι → List Fault → List ι
  | [], _ => []
  | i :: is, fs =>
      if (p i).MeetsFailure s fs then spared p s is ((p i).left s fs)
      else i :: spared p s is ((p i).left s fs)

/-- The program only looks. It ends in `bad` if one of its calls fails, and in
`good` if none does. -/
def Reads (c : Prog σ α) (good bad : α → Prop) (s : σ) : Prop :=
  ∀ fs, match c s fs with
    | .returned a s' rest t => s' = s ∧ t = 0 ∧ ∃ used, fs = used ++ rest ∧
        ((∀ n, Fault.fail n ∉ used) ∧ good a ∨ (∃ n, Fault.fail n ∈ used) ∧ bad a)
    | .crashed s' t => s' = s ∧ t = 0 ∧ ∃ n, Fault.crash n ∈ fs
    | .running _ => False
    | .impossible _ => False

variable {good bad : α → Prop} {s : σ}

theorem Reads.ret {a : α} (h : good a) : Reads (pure a : Prog σ α) good bad s :=
  fun fs => ⟨rfl, rfl, [], rfl, Or.inl ⟨by simp, h⟩⟩

theorem Reads.state {c : σ → Prog σ α} (h : Reads (c s) good bad s) :
    Reads (Prog.state >>= c) good bad s := by
  intro fs
  have hc := h fs
  have hrun : (Prog.state >>= c) s fs = c s s fs := Prog.bind_of_returned rfl
  rw [hrun]
  exact hc

/-- After a failing call the rest of the program ends in `bad` in any case. -/
theorem Reads.bind {c : Prog σ α} {k : α → Prog σ β} {good' bad' : β → Prop}
    (h : Reads c good bad s) (hgood : ∀ a, good a → Reads (k a) good' bad' s)
    (hbad : ∀ a, bad a → Reads (k a) bad' bad' s) : Reads (c >>= k) good' bad' s := by
  intro fs
  have hc := h fs
  cases hr : c s fs with
  | returned a s' rest t =>
      rw [hr] at hc
      obtain ⟨rfl, rfl, used, rfl, hcase⟩ := hc
      rw [Prog.bind_of_returned hr]
      rcases hcase with ⟨hno, ha⟩ | ⟨⟨n, hn⟩, ha⟩
      · have hk := hgood a ha rest
        cases hr' : k a s' rest with
        | returned b s'' rest' t' =>
            rw [hr'] at hk
            obtain ⟨rfl, rfl, used', rfl, hcase'⟩ := hk
            refine ⟨rfl, rfl, used ++ used', (List.append_assoc _ _ _).symm, hcase'.imp ?_ ?_⟩
            · rintro ⟨hno', hb⟩
              exact ⟨fun n hn => (List.mem_append.mp hn).elim (hno n) (hno' n), hb⟩
            · rintro ⟨⟨n, hn⟩, hb⟩
              exact ⟨⟨n, List.mem_append_right _ hn⟩, hb⟩
        | crashed s'' t' =>
            rw [hr'] at hk
            obtain ⟨rfl, rfl, n, hn⟩ := hk
            exact ⟨rfl, rfl, n, List.mem_append_right _ hn⟩
        | running t' => rw [hr'] at hk; exact hk
        | impossible t' => rw [hr'] at hk; exact hk
      · have hk := hbad a ha rest
        cases hr' : k a s' rest with
        | returned b s'' rest' t' =>
            rw [hr'] at hk
            obtain ⟨rfl, rfl, used', rfl, hcase'⟩ := hk
            exact ⟨rfl, rfl, used ++ used', (List.append_assoc _ _ _).symm,
              Or.inr ⟨⟨n, List.mem_append_left _ hn⟩, hcase'.elim And.right And.right⟩⟩
        | crashed s'' t' =>
            rw [hr'] at hk
            obtain ⟨rfl, rfl, m, hm⟩ := hk
            exact ⟨rfl, rfl, m, List.mem_append_right _ hm⟩
        | running t' => rw [hr'] at hk; exact hk
        | impossible t' => rw [hr'] at hk; exact hk
  | crashed s' t =>
      rw [hr] at hc
      rw [Prog.bind_of_crashed hr]
      exact hc
  | running t => rw [hr] at hc; exact hc.elim
  | impossible t => rw [hr] at hc; exact hc.elim

theorem Reads.mono {good' bad' : α → Prop} {c : Prog σ α} (h : Reads c good bad s)
    (hgood : ∀ a, good a → good' a) (hbad : ∀ a, bad a → bad' a) : Reads c good' bad' s := by
  intro fs
  have hc := h fs
  cases hr : c s fs with
  | returned a s' rest t =>
      rw [hr] at hc
      obtain ⟨hs, ht, used, hused, hcase⟩ := hc
      exact ⟨hs, ht, used, hused, hcase.imp (And.imp_right (hgood a)) (And.imp_right (hbad a))⟩
  | crashed s' t => rw [hr] at hc; exact hc
  | running t => rw [hr] at hc; exact hc
  | impossible t => rw [hr] at hc; exact hc

theorem Reads.probe {ok : σ → α} {fail : Nat → α} (hok : good (ok s))
    (hfail : ∀ n, bad (fail n)) : Reads (Prog.probe ok fail) good bad s := by
  intro fs
  cases fs with
  | nil => exact ⟨rfl, rfl, [], rfl, Or.inl ⟨by simp, hok⟩⟩
  | cons f rest =>
      cases f with
      | ok => exact ⟨rfl, rfl, [.ok], rfl, Or.inl ⟨by simp, hok⟩⟩
      | fail n => exact ⟨rfl, rfl, [.fail n], rfl, Or.inr ⟨⟨n, by simp⟩, hfail n⟩⟩
      | crash n => exact ⟨rfl, rfl, n, by simp⟩

/-- Forgetting which of the calls failed. -/
theorem Reads.observes {E : Env} {c : Prog σ α} (h : Reads c good bad s) :
    Observes E c (fun a => good a ∨ E.fails ∧ bad a) s := by
  intro b fs hfs
  have hc := h fs
  cases hr : c s fs with
  | returned a s' rest t =>
      rw [hr] at hc
      obtain ⟨rfl, rfl, used, rfl, hcase⟩ := hc
      refine fun _ => ⟨⟨fun n hn => hfs.1 n (List.mem_append_right _ hn),
        fun n hn => hfs.2 n (List.mem_append_right _ hn)⟩, hcase.imp And.right ?_, rfl, rfl⟩
      rintro ⟨⟨n, hn⟩, hb⟩
      exact ⟨hfs.1 n (List.mem_append_left _ hn), hb⟩
  | crashed s' t =>
      rw [hr] at hc
      obtain ⟨rfl, rfl, n, hn⟩ := hc
      exact fun _ => ⟨hfs.2 n hn, rfl, rfl⟩
  | running t => rw [hr] at hc; exact hc.elim
  | impossible t => rw [hr] at hc; exact hc.elim

/-- A program that only looks has no effect. -/
theorem Reads.effects {E : Env} {R : σ → σ → Prop} [Std.Refl R] {c : Prog σ α}
    (h : ∀ s, ∃ good bad, Reads c good bad s) : Effects E R (fun _ => True) c := by
  intro s b
  obtain ⟨good, bad, hreads⟩ := h s
  refine wp_mono (hreads.observes b) ?_ ?_
  · rintro a _ _ ⟨-, rfl, -⟩
    exact ⟨Std.Refl.refl _, trivial⟩
  · rintro _ _ ⟨-, rfl, -⟩
    exact Std.Refl.refl _

/-- An execution that returns tells by its value whether a call failed. -/
theorem Reads.of_returned {c : Prog σ α} {s' : σ} {fs rest : List Fault} {a : α} {t : Nat}
    (h : Reads c good bad s) (hr : c s fs = .returned a s' rest t) :
    s' = s ∧ t = 0 ∧ (¬c.MeetsFailure s fs ∧ good a ∨ c.MeetsFailure s fs ∧ bad a) := by
  have hc := h fs
  rw [hr] at hc
  obtain ⟨hs, ht, used, rfl, hcase⟩ := hc
  have hused : c.used s (used ++ rest) = used := by
    rw [Prog.used, hr]
    simp
  rw [Prog.MeetsFailure, hused]
  exact ⟨hs, ht, hcase.imp_left (And.imp_left not_exists.mpr)⟩

/-- Where no call fails the program ends in one value, and every failing call
shows in the value it ends in. -/
def Failsafe (c : Prog σ α) (bad : α → Prop) (s : σ) : Prop := ∃ a, Reads c (· = a) bad s

theorem Failsafe.ret (a : α) : Failsafe (pure a : Prog σ α) bad s := ⟨a, Reads.ret rfl⟩

theorem Failsafe.bind {c : Prog σ α} {k : α → Prog σ β} {bad' : β → Prop} (h : Failsafe c bad s)
    (hgood : ∀ a, Failsafe (k a) bad' s) (hbad : ∀ a, bad a → Reads (k a) bad' bad' s) :
    Failsafe (c >>= k) bad' s := by
  obtain ⟨a, ha⟩ := h
  obtain ⟨b, hb⟩ := hgood a
  refine ⟨b, ha.bind (fun a' ha' => ?_) hbad⟩
  rw [ha']
  exact hb

theorem Failsafe.state {c : σ → Prog σ α} (h : Failsafe (c s) bad s) :
    Failsafe (Prog.state >>= c) bad s := by
  obtain ⟨a, ha⟩ := h
  exact ⟨a, ha.state⟩

theorem Failsafe.probe {ok : σ → α} {fail : Nat → α} (hfail : ∀ n, bad (fail n)) :
    Failsafe (Prog.probe ok fail) bad s :=
  ⟨ok s, Reads.probe rfl hfail⟩

/-- Where no call is the last thing the process does, the program returns. -/
theorem Reads.returns {c : Prog σ α} {fs : List Fault} (h : Reads c good bad s)
    (hfs : ∀ n, Fault.crash n ∉ fs) : ∃ a, c s fs = .returned a s (c.left s fs) 0 ∧
      c.left s fs ⊆ fs ∧ (¬c.MeetsFailure s fs ∧ good a ∨ c.MeetsFailure s fs ∧ bad a) := by
  have hc := h fs
  cases hr : c s fs with
  | returned a s' rest t =>
      obtain ⟨rfl, rfl, hcase⟩ := h.of_returned hr
      rw [hr] at hc
      obtain ⟨-, -, used, rfl, -⟩ := hc
      have hleft : c.left s' (used ++ rest) = rest := by rw [Prog.left, hr]
      rw [hleft]
      exact ⟨a, rfl, List.subset_append_right _ _, hcase⟩
  | crashed s' t =>
      rw [hr] at hc
      obtain ⟨-, -, n, hn⟩ := hc
      exact absurd hn (hfs n)
  | running t => rw [hr] at hc; exact hc.elim
  | impossible t => rw [hr] at hc; exact hc.elim

/-- Without a script the program ends well. -/
theorem Reads.returns_nil {c : Prog σ α} (h : Reads c good bad s) :
    ∃ a, c s [] = .returned a s (c.left s []) 0 ∧ good a := by
  obtain ⟨a, hr, -, ⟨-, ha⟩ | ⟨⟨n, hn⟩, -⟩⟩ := h.returns fun _ => List.not_mem_nil
  · exact ⟨a, hr, ha⟩
  · rw [Prog.used, hr] at hn
    exact absurd (List.mem_of_mem_take hn) List.not_mem_nil

/-- The run without a script tells the value. -/
theorem Failsafe.reads {c : Prog σ α} {a : α} {rest : List Fault} (h : Failsafe c bad s)
    (hr : c s [] = .returned a s rest 0) : Reads c (· = a) bad s := by
  obtain ⟨a', ha⟩ := h
  obtain ⟨a'', hr', rfl⟩ := ha.returns_nil
  rw [hr] at hr'
  cases hr'
  exact ha

/-- A program that returns for every script of the environment is an observation. -/
theorem Observes.of_returns {E : Env} {c : Prog σ α} {R : α → Prop}
    (h : ∀ fs, E.Admits fs → ∃ a rest, rest ⊆ fs ∧ c s fs = .returned a s rest 0 ∧ R a) :
    Observes E c R s := by
  intro b fs hfs
  obtain ⟨a, rest, hrest, hr, ha⟩ := h fs hfs
  rw [hr]
  exact fun _ => ⟨⟨fun n hn => hfs.1 n (hrest hn), fun n hn => hfs.2 n (hrest hn)⟩, ha, rfl, rfl⟩

section Success

variable {R : α → σ → Prop}

/-- An execution that returns without a failing call ends in `R`. -/
def Succeeds (c : Prog σ α) (R : α → σ → Prop) (s : σ) : Prop :=
  ∀ fs a s' rest t, c s fs = .returned a s' rest t →
    ∃ used, fs = used ++ rest ∧ ((∀ n, Fault.fail n ∉ used) → R a s')

theorem Succeeds.ret {a : α} (h : R a s) : Succeeds (pure a : Prog σ α) R s := by
  intro fs a' s' rest t hr
  cases hr
  exact ⟨[], rfl, fun _ => h⟩

theorem Succeeds.mono {c : Prog σ α} {R' : α → σ → Prop} (h : Succeeds c R s)
    (hR : ∀ a s', R a s' → R' a s') : Succeeds c R' s := by
  intro fs a s' rest t hr
  obtain ⟨used, hused, ha⟩ := h fs a s' rest t hr
  exact ⟨used, hused, fun hno => hR a s' (ha hno)⟩

theorem Succeeds.bind {c : Prog σ α} {k : α → Prog σ β} {R' : β → σ → Prop} (h : Succeeds c R s)
    (hany : ∀ a s', Succeeds (k a) (fun _ _ => True) s')
    (hk : ∀ a s', R a s' → Succeeds (k a) R' s') : Succeeds (c >>= k) R' s := by
  intro fs b s' rest t hr
  obtain ⟨a, s₁, rest₁, t₁, t₂, hc, hb⟩ := Prog.bind_returned hr
  obtain ⟨used, rfl, ha⟩ := h fs a s₁ rest₁ t₁ hc
  obtain ⟨used', rfl, -⟩ := hany a s₁ rest₁ b s' rest t₂ hb
  refine ⟨used ++ used', (List.append_assoc used used' rest).symm, fun hno => ?_⟩
  obtain ⟨used'', heq, hb'⟩ := hk a s₁ (ha fun n hn => hno n (List.mem_append_left _ hn)) _ b s'
    rest t₂ hb
  obtain rfl := List.append_cancel_right heq
  exact hb' fun n hn => hno n (List.mem_append_right _ hn)

theorem Succeeds.ite {p : Prop} [Decidable p] {c d : Prog σ α} (hc : p → Succeeds c R s)
    (hd : ¬p → Succeeds d R s) : Succeeds (if p then c else d) R s := by
  by_cases hp : p
  · rw [if_pos hp]; exact hc hp
  · rw [if_neg hp]; exact hd hp

theorem Succeeds.callIf {p : σ → Prop} [DecidablePred p] {ok : σ → α × σ}
    {fail : Nat → σ → α × σ} {crash : Nat → σ → σ} (h : p s → R (ok s).1 (ok s).2) :
    Succeeds (Prog.callIf p ok fail crash) R s := by
  intro fs a s' rest t hr
  have hsuccess : ∀ rest', (if p s then Outcome.returned (ok s).1 (ok s).2 rest' 0
      else .impossible 0) = .returned a s' rest t → rest' = rest ∧ R a s' := by
    intro rest' hif
    by_cases hp : p s
    · rw [if_pos hp] at hif
      cases hif
      exact ⟨rfl, h hp⟩
    · rw [if_neg hp] at hif
      cases hif
  cases fs with
  | nil =>
      obtain ⟨rfl, ha⟩ := hsuccess [] hr
      exact ⟨[], rfl, fun _ => ha⟩
  | cons f rest' =>
      cases f with
      | ok =>
          obtain ⟨rfl, ha⟩ := hsuccess rest' hr
          exact ⟨[.ok], rfl, fun _ => ha⟩
      | fail n =>
          cases hr
          exact ⟨[.fail n], rfl, fun hno => absurd List.mem_cons_self (hno n)⟩
      | crash n => cases hr

theorem Succeeds.call {ok : σ → α × σ} {fail : Nat → σ → α × σ} {crash : Nat → σ → σ}
    (h : R (ok s).1 (ok s).2) : Succeeds (Prog.call ok fail crash) R s :=
  Succeeds.callIf fun _ => h

theorem Succeeds.of_returned {c : Prog σ α} {s' : σ} {fs rest : List Fault} {a : α} {t : Nat}
    (h : Succeeds c R s) (hr : c s fs = .returned a s' rest t) (hno : ¬c.MeetsFailure s fs) :
    R a s' := by
  obtain ⟨used, rfl, ha⟩ := h fs a s' rest t hr
  refine ha fun n hn => hno ⟨n, ?_⟩
  have hused : c.used s (used ++ rest) = used := by
    rw [Prog.used, hr]
    simp
  rwa [hused]

end Success

section Spared

variable {ι : Type} {p : ι → Prog σ α}

theorem spared_cons (i : ι) (is : List ι) (fs : List Fault) : spared p s (i :: is) fs =
    if (p i).MeetsFailure s fs then spared p s is ((p i).left s fs)
    else i :: spared p s is ((p i).left s fs) := rfl

theorem spared_sublist (is : List ι) (fs : List Fault) : (spared p s is fs).Sublist is := by
  induction is generalizing fs with
  | nil => exact List.Sublist.refl _
  | cons i is ih =>
      rw [spared_cons]
      split
      · exact (ih _).cons i
      · exact (ih _).cons_cons i

theorem Prog.not_meetsFailure {c : Prog σ α} {fs : List Fault} (hfs : ∀ n, Fault.fail n ∉ fs) :
    ¬c.MeetsFailure s fs := by
  rintro ⟨n, hn⟩
  rw [Prog.used] at hn
  split at hn
  · exact hfs n (List.mem_of_mem_take hn)
  · exact hfs n hn

theorem Reads.left_subset {c : Prog σ α} (h : Reads c good bad s) (fs : List Fault) :
    c.left s fs ⊆ fs := by
  have hc := h fs
  rw [Prog.left]
  cases hr : c s fs with
  | returned a s' rest t =>
      rw [hr] at hc
      obtain ⟨-, -, used, rfl, -⟩ := hc
      exact List.subset_append_right _ _
  | crashed s' t => exact List.nil_subset _
  | running t => exact List.nil_subset _
  | impossible t => exact List.nil_subset _

/-- Where no call fails every item is spared. -/
theorem spared_of_no_failure {is : List ι} {fs : List Fault} (hfs : ∀ n, Fault.fail n ∉ fs)
    (h : ∀ i ∈ is, ∃ good bad, Reads (p i) good bad s) : spared p s is fs = is := by
  induction is generalizing fs with
  | nil => rfl
  | cons i is ih =>
      obtain ⟨⟨good, bad, hi⟩, his⟩ := List.forall_mem_cons.mp h
      rw [spared_cons, if_neg (Prog.not_meetsFailure hfs),
        ih (fun n hn => hfs n (hi.left_subset fs hn)) his]

end Spared

end Reading

end FaultProgram
