import ClomDB.Library.SharedObject

/-!
# Dialogues

A program that asks an object for one thing after the other and prints on the
way. What it prints on an object that is shared follows from what it prints on
one that serves it alone.
-/

namespace SharedObject

variable {σ Call Reply Shown α β : Type}

inductive Dialogue (Call Reply Shown α : Type) : Type where
  | done (a : α)
  | say (x : Shown) (rest : Dialogue Call Reply Shown α)
  | ask (c : Call) (rest : Reply → Dialogue Call Reply Shown α)

namespace Dialogue

def bind : Dialogue Call Reply Shown α → (α → Dialogue Call Reply Shown β) →
    Dialogue Call Reply Shown β
  | .done a, k => k a
  | .say x rest, k => .say x (bind rest k)
  | .ask c rest, k => .ask c fun r => bind (rest r) k

instance : Monad (Dialogue Call Reply Shown) where
  pure := .done
  bind := bind

/-- Print something. -/
def print (x : Shown) : Dialogue Call Reply Shown Unit := .say x (.done ())

/-- Ask for something. -/
def request (c : Call) : Dialogue Call Reply Shown Reply := .ask c .done

/-- A dialogue with some replies, what it prints and what it ends with. -/
inductive Ends : Dialogue Call Reply Shown α → List (Call × Reply) → List Shown → α → Prop where
  | done {a : α} : Ends (.done a) [] [] a
  | say {x : Shown} {rest : Dialogue Call Reply Shown α} {xs : List (Call × Reply)}
      {out : List Shown} {a : α} (ends : Ends rest xs out a) : Ends (.say x rest) xs (x :: out) a
  | ask {c : Call} {r : Reply} {rest : Reply → Dialogue Call Reply Shown α}
      {xs : List (Call × Reply)} {out : List Shown} {a : α} (ends : Ends (rest r) xs out a) :
      Ends (.ask c rest) ((c, r) :: xs) out a

/-- A dialogue with an object that serves it alone. -/
inductive Talks (O : Object σ Call Reply) :
    Dialogue Call Reply Shown α → σ → List Shown → α → σ → Prop where
  | done {a : α} {s : σ} : Talks O (.done a) s [] a s
  | say {x : Shown} {rest : Dialogue Call Reply Shown α} {s s' : σ} {out : List Shown} {a : α}
      (talks : Talks O rest s out a s') : Talks O (.say x rest) s (x :: out) a s'
  | ask {c : Call} {r : Reply} {rest : Reply → Dialogue Call Reply Shown α} {s s' s'' : σ}
      {out : List Shown} {a : α} (does : O.does s c r s') (talks : Talks O (rest r) s' out a s'') :
      Talks O (.ask c rest) s out a s''

variable {O : Object σ Call Reply} {s s' : σ} {out : List Shown} {a : α} {b : β}
  {p : Dialogue Call Reply Shown α} {k : α → Dialogue Call Reply Shown β}
  {xs : List (Call × Reply)}

/-- A dialogue whose replies an object gives that serves one call at a time. -/
theorem Ends.talks (h : p.Ends xs out a) (hs : O.Serial s xs s') : Talks O p s out a s' := by
  induction h generalizing s with
  | done =>
      cases hs
      exact .done
  | say _ ih => exact .say (ih hs)
  | ask _ ih =>
      cases hs with
      | serve does rest => exact .ask does (ih rest)

theorem talks_pure {b : α} (h : Talks O (pure b : Dialogue Call Reply Shown α) s out a s') :
    out = [] ∧ a = b ∧ s' = s := by
  cases h
  exact ⟨rfl, rfl, rfl⟩

/-- A dialogue that goes on after another one. -/
theorem talks_bind (h : Talks O (p >>= k) s out b s') : ∃ out₁ out₂ a s₁, out = out₁ ++ out₂ ∧
    Talks O p s out₁ a s₁ ∧ Talks O (k a) s₁ out₂ b s' := by
  change Talks O (p.bind k) s out b s' at h
  induction p generalizing s out with
  | done a => exact ⟨[], out, a, s, rfl, .done, h⟩
  | say x rest ih =>
      cases h with
      | say talks =>
          obtain ⟨out₁, out₂, a, s₁, rfl, hfirst, hrest⟩ := ih talks
          exact ⟨x :: out₁, out₂, a, s₁, rfl, .say hfirst, hrest⟩
  | ask c rest ih =>
      cases h with
      | ask does talks =>
          obtain ⟨out₁, out₂, a, s₁, rfl, hfirst, hrest⟩ := ih _ talks
          exact ⟨out₁, out₂, a, s₁, rfl, .ask does hfirst, hrest⟩

theorem talks_print {x : Shown} {k : Unit → Dialogue Call Reply Shown β}
    (h : Talks O (print x >>= k) s out b s') : ∃ out', out = x :: out' ∧
      Talks O (k ()) s out' b s' := by
  cases h with
  | say talks => exact ⟨_, rfl, talks⟩

theorem talks_request {c : Call} {k : Reply → Dialogue Call Reply Shown β}
    (h : Talks O (request c >>= k) s out b s') : ∃ r s₁, O.does s c r s₁ ∧
      Talks O (k r) s₁ out b s' := by
  cases h with
  | ask does talks => exact ⟨_, _, does, talks⟩

end Dialogue

end SharedObject
