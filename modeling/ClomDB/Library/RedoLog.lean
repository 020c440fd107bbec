import ClomDB.Library.LayeredMap

/-!
# A buffer and a redo log over a tree of layers

A store keeps its newest writes in a buffer over a tree of layers. Each write
also goes to a redo log, and after a crash the log is laid over the copy of
the tree that is on disk. `Sound` relates the four layers to the map the store
stands for, and each theorem is one thing a store may do.
-/

namespace RedoLog

open LayeredMap

variable {K V : Type*}

/-- The four layers of a store. -/
structure Store (K V : Type*) where
  buffer : Layer K V
  log : Layer K V
  tree : Layer K V
  disk : Layer K V

namespace Store

/-- What a reader of the running store sees. -/
def content (s : Store K V) : K → Option V := view (overlay s.buffer s.tree)

/-- What is left after a crash: the log is replayed over the tree on disk. -/
def recovered (s : Store K V) : K → Option V := view (overlay s.log s.disk)

end Store

/-- The store stands for the map `c`, running and after a crash. -/
structure Sound (s : Store K V) (c : K → Option V) : Prop where
  content : s.content = c
  log : Reports s.log c
  disk : ∀ k, s.log k = none → view s.disk k = c k
  buffer : ∀ k, s.log k = none → s.buffer k = none

namespace Sound

variable {s : Store K V} {c : K → Option V}

theorem recovered (h : Sound s c) : s.recovered = c :=
  view_overlay_eq_iff.mpr ⟨h.log, h.disk⟩

/-- Where the log is silent the tree alone shows the content. -/
theorem view_tree (h : Sound s c) {k : K} (hk : s.log k = none) : view s.tree k = c k := by
  have hc := congrFun h.content k
  rwa [Store.content, view_overlay, h.buffer k hk] at hc

/-- A write goes to the buffer and to the log. -/
theorem write (h : Sound s c) (ops : Layer K V) :
    Sound { s with buffer := overlay ops s.buffer, log := overlay ops s.log }
      (view (overlay ops (overlay s.buffer s.tree))) := by
  have hc : view (overlay s.buffer s.tree) = c := h.content
  refine ⟨by rw [Store.content, overlay_assoc], fun k r hr => ?_, fun k hk => ?_, fun k hk => ?_⟩
  · rw [view_overlay]
    cases ho : ops k with
    | some r' => simpa [overlay, ho] using hr
    | none => rw [hc]; exact h.log k r (by simpa [overlay, ho] using hr)
  · obtain ⟨ho, hl⟩ := Option.or_eq_none_iff.mp hk
    rw [view_overlay, ho, hc]
    exact h.disk k hl
  · obtain ⟨ho, hl⟩ := Option.or_eq_none_iff.mp hk
    exact Option.or_eq_none_iff.mpr ⟨ho, h.buffer k hl⟩

/-- The tree may change as long as the running store shows the same map. -/
theorem rebuild (h : Sound s c) {tree : Layer K V} (ht : view (overlay s.buffer tree) = c) :
    Sound { s with tree := tree } c :=
  ⟨ht, h.log, h.disk, h.buffer⟩

/-- A tree with the same view may take the place of the tree. -/
theorem replace (h : Sound s c) {tree : Layer K V} (ht : view tree = view s.tree) :
    Sound { s with tree := tree } c :=
  h.rebuild ((view_overlay_congr s.buffer ht).trans h.content)

/-- The buffer is laid over the tree, and stays. -/
theorem push (h : Sound s c) : Sound { s with tree := overlay s.buffer s.tree } c := by
  refine h.rebuild ?_
  have hc := h.content
  funext k
  rw [← hc, Store.content, view_overlay, view_overlay]
  cases s.buffer k <;> rfl

/-- The tree becomes the one on disk. -/
theorem save (h : Sound s c) : Sound { s with disk := s.tree } c :=
  ⟨h.content, h.log, fun _ hk => h.view_tree hk, h.buffer⟩

/-- The buffer may go when the tree shows everything. -/
theorem clear (h : Sound s c) (ht : view s.tree = c) :
    Sound { s with buffer := silent } c :=
  ⟨by rw [Store.content, silent_overlay, ht], h.log, h.disk, fun _ _ => rfl⟩

/-- The log may go when the disk shows everything and the buffer is empty. -/
theorem truncate (h : Sound s c) (hd : view s.disk = c) (hb : s.buffer = silent) :
    Sound { s with log := silent } c :=
  ⟨h.content, fun _ _ hr => by simp [silent] at hr, fun k _ => by rw [hd],
    fun k _ => by rw [hb]; rfl⟩

/-- A restart replays the log into the buffer, over the tree on disk. -/
theorem restart {log disk : Layer K V} (h : view (overlay log disk) = c) :
    Sound ⟨log, log, disk, disk⟩ c :=
  ⟨h, (view_overlay_eq_iff.mp h).1, (view_overlay_eq_iff.mp h).2, fun _ hk => hk⟩

end Sound

end RedoLog
