import Mathlib.Logic.Function.Basic
import Mathlib.Data.List.Basic

/-!
# Shared objects

Clients call an object at the same time, and the object may be restarted under
them. A history is linearizable if every call that returns takes effect at one
point between its two marks, with the reply that an object serving one call at a
time gives there. A call that a restart cuts off takes effect before the restart
or not at all.

## Implementation notes

The points are marks of a longer list. What is left when they are taken out is
the history.
-/

namespace SharedObject

variable {σ Call Reply ι : Type}

/-- An object that serves one call at a time. -/
structure Object (σ Call Reply : Type) where
  does : σ → Call → Reply → σ → Prop
  restarts : σ → σ → Prop

inductive Mark (Call Reply ι : Type) where
  | call (i : ι) (c : Call)
  | point (i : ι) (r : Reply)
  | ret (i : ι) (r : Reply)
  | restart

/-- What a history tells. -/
def Mark.seen : Mark Call Reply ι → Bool
  | .point _ _ => false
  | _ => true

/-- How far the call of a client is. -/
inductive Phase (Call Reply : Type) where
  | idle
  | pending (c : Call)
  | answered (r : Reply)

section Moves

variable [DecidableEq ι] {O : Object σ Call Reply} {s s' s'' : σ}
  {p p' p'' : ι → Phase Call Reply} {k k' : Mark Call Reply ι} {ks ks' : List (Mark Call Reply ι)}

/-- One mark of an object and the calls of its clients. -/
inductive Object.Takes (O : Object σ Call Reply) (s : σ) (p : ι → Phase Call Reply) :
    Mark Call Reply ι → σ → (ι → Phase Call Reply) → Prop where
  | call {i : ι} {c : Call} (idle : p i = .idle) :
      Takes O s p (.call i c) s (Function.update p i (.pending c))
  | point {i : ι} {c : Call} {r : Reply} {s' : σ} (pending : p i = .pending c)
      (does : O.does s c r s') : Takes O s p (.point i r) s' (Function.update p i (.answered r))
  | ret {i : ι} {r : Reply} (answered : p i = .answered r) :
      Takes O s p (.ret i r) s (Function.update p i .idle)
  | restart {s' : σ} (restarts : O.restarts s s') : Takes O s p .restart s' fun _ => .idle

/-- Marks one after the other. -/
inductive Object.Moves (O : Object σ Call Reply) (s : σ) (p : ι → Phase Call Reply) :
    List (Mark Call Reply ι) → σ → (ι → Phase Call Reply) → Prop where
  | start : Moves O s p [] s p
  | take {ks : List (Mark Call Reply ι)} {k : Mark Call Reply ι} {s' s'' : σ}
      {p' p'' : ι → Phase Call Reply} (moves : Moves O s p ks s' p')
      (last : O.Takes s' p' k s'' p'') : Moves O s p (ks ++ [k]) s'' p''

theorem Object.Takes.moves (h : O.Takes s p k s' p') : O.Moves s p [k] s' p' :=
  Object.Moves.start.take h

theorem Object.Moves.trans (h : O.Moves s p ks s' p') (h' : O.Moves s' p' ks' s'' p'') :
    O.Moves s p (ks ++ ks') s'' p'' := by
  induction h' with
  | start => rwa [List.append_nil]
  | take moves last ih =>
      rw [← List.append_assoc]
      exact ih.take last

theorem Object.Moves.eq_of_nil (h : O.Moves s p [] s' p') : s' = s ∧ p' = p := by
  generalize hall : [] = all at h
  cases h with
  | start => exact ⟨rfl, rfl⟩
  | take => exact absurd hall.symm (List.append_ne_nil_of_right_ne_nil _ (List.cons_ne_nil _ _))

/-- The first mark, and the others after it. -/
theorem Object.Moves.first (h : O.Moves s p (k :: ks) s' p') :
    ∃ s₁ p₁, O.Takes s p k s₁ p₁ ∧ O.Moves s₁ p₁ ks s' p' := by
  generalize hall : k :: ks = all at h
  induction h generalizing ks with
  | start => cases hall
  | @take all k' s₁ s₂ p₁ p₂ moves last ih =>
      cases all with
      | nil =>
          obtain ⟨rfl, rfl⟩ := List.cons.inj hall
          obtain ⟨rfl, rfl⟩ := moves.eq_of_nil
          exact ⟨s₂, p₂, last, .start⟩
      | cons k₁ before =>
          obtain ⟨rfl, rfl⟩ := List.cons.inj hall
          obtain ⟨s₃, p₃, hfirst, hrest⟩ := ih rfl
          exact ⟨s₃, p₃, hfirst, hrest.take last⟩

/-- A history of idle clients that begins with a restart. -/
theorem Object.Moves.restarted {all : List (Mark Call Reply ι)}
    (h : O.Moves s (fun _ => .idle) all s' p') (hall : all.filter Mark.seen = .restart :: ks) :
    ∃ s₁ rest, rest.filter Mark.seen = ks ∧ O.restarts s s₁ ∧
      O.Moves s₁ (fun _ => .idle) rest s' p' := by
  cases all with
  | nil => cases hall
  | cons k rest =>
      obtain ⟨s₁, p₁, htakes, hrest⟩ := h.first
      cases htakes with
      | call => cases hall
      | point pending => cases pending
      | ret => cases hall
      | restart restarts => exact ⟨s₁, rest, (List.cons.inj hall).2, restarts, hrest⟩

/-- A history that an idle object and its clients can have, and where it leads. -/
def Object.Linearizes (O : Object σ Call Reply) (s : σ) (ks : List (Mark Call Reply ι)) (s' : σ)
    (p' : ι → Phase Call Reply) : Prop :=
  ∃ all, all.filter Mark.seen = ks ∧ O.Moves s (fun _ => .idle) all s' p'

end Moves

section Serial

variable {O : Object σ Call Reply} {s s' s'' : σ} {c : Call} {r : Reply} {xs : List (Call × Reply)}

/-- Calls one after the other, each with its reply. -/
inductive Object.Serial (O : Object σ Call Reply) : σ → List (Call × Reply) → σ → Prop where
  | start {s : σ} : Serial O s [] s
  | serve {s s' s'' : σ} {c : Call} {r : Reply} {xs : List (Call × Reply)} (does : O.does s c r s')
      (rest : Serial O s' xs s'') : Serial O s ((c, r) :: xs) s''

theorem Object.Serial.snoc (h : O.Serial s xs s') (hdoes : O.does s' c r s'') :
    O.Serial s (xs ++ [(c, r)]) s'' := by
  induction h with
  | start => exact .serve hdoes .start
  | serve does _ ih => exact .serve does (ih hdoes)

/-- The history of one client that gets some replies. -/
def marks : List (Call × Reply) → List (Mark Call Reply Unit)
  | [] => []
  | x :: xs => .call () x.1 :: .ret () x.2 :: marks xs

@[simp] theorem length_marks (xs : List (Call × Reply)) : (marks xs).length = 2 * xs.length := by
  induction xs with
  | nil => rfl
  | cons x xs ih => simp only [marks, List.length_cons, ih, Nat.mul_add]

theorem marks_append (xs ys : List (Call × Reply)) : marks (xs ++ ys) = marks xs ++ marks ys := by
  induction xs with
  | nil => rfl
  | cons x xs ih => rw [List.cons_append, marks, ih]; rfl

theorem marks_inj {xs ys : List (Call × Reply)} (h : marks xs = marks ys) : xs = ys := by
  induction xs generalizing ys with
  | nil =>
      cases ys with
      | nil => rfl
      | cons y ys => cases h
  | cons x xs ih =>
      cases ys with
      | nil => cases h
      | cons y ys =>
          rw [marks, marks] at h
          obtain ⟨hcall, h⟩ := List.cons.inj h
          obtain ⟨hret, h⟩ := List.cons.inj h
          rw [ih h, Prod.ext (Mark.call.inj hcall).2 (Mark.ret.inj hret).2]

/-- What the object has done for a client that is alone, as far as its call is. -/
def Object.Alone (O : Object σ Call Reply) (s : σ) (ks : List (Mark Call Reply Unit)) (s' : σ) :
    Phase Call Reply → Prop
  | .idle => ∃ xs, ks = marks xs ∧ O.Serial s xs s'
  | .pending c => ∃ xs, ks = marks xs ++ [.call () c] ∧ O.Serial s xs s'
  | .answered r => ∃ xs c, ks = marks xs ++ [.call () c] ∧ O.Serial s (xs ++ [(c, r)]) s'

theorem Object.Moves.alone {ks : List (Mark Call Reply Unit)} {p : Unit → Phase Call Reply}
    (h : O.Moves s (fun _ => .idle) ks s' p) (hrestart : .restart ∉ ks) :
    O.Alone s (ks.filter Mark.seen) s' (p ()) := by
  induction h with
  | start => exact ⟨[], rfl, .start⟩
  | @take ks k s' s'' p' p'' moves last ih =>
      have hbefore := ih fun hk => hrestart (List.mem_append_left _ hk)
      rw [List.filter_append]
      cases last with
      | call idle =>
          rw [idle] at hbefore
          obtain ⟨xs, hks, hserial⟩ := hbefore
          rw [Function.update_self, hks]
          exact ⟨xs, rfl, hserial⟩
      | point pending does =>
          rw [pending] at hbefore
          obtain ⟨xs, hks, hserial⟩ := hbefore
          rw [Function.update_self, hks]
          exact ⟨xs, _, List.append_nil _, hserial.snoc does⟩
      | ret answered =>
          rw [answered] at hbefore
          obtain ⟨xs, c, hks, hserial⟩ := hbefore
          rw [Function.update_self, hks]
          refine ⟨_, ?_, hserial⟩
          rw [marks_append, List.append_assoc]
          rfl
      | restart => exact absurd (List.mem_append_right _ List.mem_cons_self) hrestart

theorem restart_notMem_marks (xs : List (Call × Reply)) : .restart ∉ marks xs := by
  induction xs with
  | nil => exact List.not_mem_nil
  | cons x xs ih => simp [marks, ih]

/-- A client that is alone and has all its replies is served one call after the other. -/
theorem Object.Moves.serial {ks : List (Mark Call Reply Unit)} {p : Unit → Phase Call Reply}
    (h : O.Moves s (fun _ => .idle) ks s' p) (hks : ks.filter Mark.seen = marks xs) :
    O.Serial s xs s' := by
  have halone := h.alone fun hk =>
    restart_notMem_marks xs (hks ▸ List.mem_filter.mpr ⟨hk, rfl⟩)
  -- a call on its way would make the number of marks odd
  have hodd : ∀ (ys : List (Call × Reply)) (c : Call), marks xs ≠ marks ys ++ [.call () c] := by
    intro ys c heq
    have hlen := congrArg List.length heq
    rw [List.length_append, length_marks, length_marks, List.length_singleton] at hlen
    omega
  rw [hks] at halone
  cases hp : p () with
  | idle =>
      rw [hp] at halone
      obtain ⟨ys, hys, hserial⟩ := halone
      rwa [marks_inj hys]
  | pending c =>
      rw [hp] at halone
      obtain ⟨ys, hys, -⟩ := halone
      exact absurd hys (hodd ys c)
  | answered r =>
      rw [hp] at halone
      obtain ⟨ys, c, hys, -⟩ := halone
      exact absurd hys (hodd ys c)

end Serial

end SharedObject
