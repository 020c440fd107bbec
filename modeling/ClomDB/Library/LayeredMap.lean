import Mathlib.Data.Option.Basic
import Mathlib.Logic.Function.Basic

/-!
# Maps in layers with deletions

A layer of a key-value map says nothing of a key, deletes it or gives it a
value. Layers are laid over each other, the newest on top, and the view of a
layer forgets the difference between a deleted key and an absent one. The
lemmas say what may be done to a stack of layers without changing its view.
-/

namespace LayeredMap

variable {K V : Type*}

/-- What a layer says of each key. -/
abbrev Layer (K V : Type*) := K → Option (Option V)

/-- The upper layer decides where it says anything. -/
def overlay (upper lower : Layer K V) : Layer K V := fun k => (upper k).or (lower k)

/-- The layer that says nothing. -/
def silent : Layer K V := fun _ => none

/-- The layer that speaks of one key only. -/
def single [DecidableEq K] (k : K) (r : Option V) : Layer K V := fun k' =>
  if k' = k then some r else none

/-- A list of layers, the first one on top. -/
def stack : List (Layer K V) → Layer K V
  | [] => silent
  | l :: ls => overlay l (stack ls)

/-- The map a reader sees. -/
def view (l : Layer K V) : K → Option V := fun k => (l k).join

/-- A layer without its deletions. -/
def prune (l : Layer K V) : Layer K V := fun k =>
  match l k with
  | some none => none
  | r => r

/-- Everything the layer says is true of the map `c`. -/
def Reports (l : Layer K V) (c : K → Option V) : Prop :=
  ∀ k r, l k = some r → c k = r

@[simp] theorem overlay_silent (l : Layer K V) : overlay l silent = l := by
  funext k
  simp [overlay, silent]

@[simp] theorem silent_overlay (l : Layer K V) : overlay silent l = l := by
  funext k
  simp [overlay, silent]

theorem overlay_assoc (a b c : Layer K V) : overlay (overlay a b) c = overlay a (overlay b c) := by
  funext k
  simp [overlay, Option.or_assoc]

theorem stack_append (as bs : List (Layer K V)) :
    stack (as ++ bs) = overlay (stack as) (stack bs) := by
  induction as with
  | nil => simp [stack]
  | cons a as ih => simp [stack, ih, overlay_assoc]

theorem stack_eq_none_iff {ls : List (Layer K V)} {k : K} :
    stack ls k = none ↔ ∀ l ∈ ls, l k = none := by
  induction ls with
  | nil => simp [stack, silent]
  | cons l ls ih => simp [stack, overlay, Option.or_eq_none_iff, ih]

/-- The topmost layer that speaks decides. -/
theorem stack_eq_some {ls : List (Layer K V)} {k : K} {r : Option V}
    (h : stack ls k = some r) : ∃ l ∈ ls, l k = some r := by
  induction ls with
  | nil => simp [stack, silent] at h
  | cons l ls ih =>
      simp only [stack, overlay] at h
      cases hl : l k with
      | some r' =>
          rw [hl] at h
          exact ⟨l, List.mem_cons_self, by simpa [hl] using h⟩
      | none =>
          rw [hl] at h
          obtain ⟨l', hl', hr⟩ := ih (by simpa using h)
          exact ⟨l', List.mem_cons_of_mem _ hl', hr⟩

/-- When at most one layer speaks of each key, the order does not matter. -/
theorem stack_eq_of_mem {ls : List (Layer K V)} {k : K} {r : Option V}
    (hone : ∀ l ∈ ls, ∀ r', l k = some r' → r' = r)
    (hsome : ∃ l ∈ ls, l k = some r) : stack ls k = some r := by
  cases hs : stack ls k with
  | none =>
      obtain ⟨l, hl, hr⟩ := hsome
      rw [stack_eq_none_iff.mp hs l hl] at hr
      cases hr
  | some r' =>
      obtain ⟨l, hl, hr⟩ := stack_eq_some hs
      rw [hone l hl r' hr]

@[simp] theorem view_silent : view (silent : Layer K V) = fun _ => none := rfl

theorem view_overlay (a b : Layer K V) (k : K) :
    view (overlay a b) k = match a k with | some r => r | none => view b k := by
  cases h : a k <;> simp [view, overlay, h]

theorem overlay_single [DecidableEq K] (k : K) (r : Option V) (l : Layer K V) (k' : K) :
    overlay (single k r) l k' = if k' = k then some r else l k' := by
  rw [overlay, single]
  split <;> simp

@[simp] theorem view_overlay_single [DecidableEq K] (k : K) (r : Option V) (l : Layer K V) :
    view (overlay (single k r) l) = Function.update (view l) k r := by
  funext k'
  rw [view_overlay, single, Function.update_apply]
  split
  next h => split at h <;> simp_all
  next h => split at h <;> simp_all

/-- Below a layer only the view matters. -/
theorem view_overlay_congr (a : Layer K V) {b b' : Layer K V} (h : view b = view b') :
    view (overlay a b) = view (overlay a b') := by
  funext k
  rw [view_overlay, view_overlay, h]

@[simp] theorem view_prune (l : Layer K V) : view (prune l) = view l := by
  funext k
  simp only [view, prune]
  split
  next h => rw [h]; rfl
  next => rfl

/-- A layer over a map shows `c` exactly when it tells the truth about `c` and
the map below shows `c` wherever the layer is silent. -/
theorem view_overlay_eq_iff {a b : Layer K V} {c : K → Option V} :
    view (overlay a b) = c ↔ Reports a c ∧ ∀ k, a k = none → view b k = c k := by
  constructor
  · rintro rfl
    refine ⟨fun k r h => ?_, fun k h => ?_⟩
    · rw [view_overlay, h]
    · rw [view_overlay, h]
  · rintro ⟨hr, hn⟩
    funext k
    rw [view_overlay]
    cases h : a k with
    | some r => exact (hr k r h).symm
    | none => exact hn k h

theorem Reports.overlay {a b : Layer K V} {c : K → Option V} (ha : Reports a c)
    (hb : Reports b c) : Reports (overlay a b) c := by
  intro k r h
  cases hk : a k with
  | some r' =>
      have : r' = r := by simpa [LayeredMap.overlay, hk] using h
      exact this ▸ ha k r' hk
  | none => exact hb k r (by simpa [LayeredMap.overlay, hk] using h)

end LayeredMap
