import Std.Data.ExtTreeMap
import Mathlib.Data.List.Basic
import Mathlib.Data.List.Pairwise

/-!
# Ascending runs of keyed entries

A run is a list of entries in strictly increasing order of their keys. Looking
a key up in a run, the binary search of `std::lower_bound`, and inserting runs
into an ordered map one after the other agree on what a key's entry is.
-/

namespace KeyedRun

open Std

section Search

variable {E : Type}

/-- The halving loop of `std::lower_bound`. Each round shortens the range, so
its length is fuel enough. -/
def lowerBoundLoop (less : E → Bool) (xs : List E) : Nat → Nat → Nat → Nat
  | 0, first, _ => first
  | fuel + 1, first, len =>
      if len = 0 then first
      else
        let half := len / 2
        match xs[first + half]? with
        | none => first
        | some x =>
            if less x then lowerBoundLoop less xs fuel (first + half + 1) (len - half - 1)
            else lowerBoundLoop less xs fuel first half

/-- `std::lower_bound`: the position of the first element not below the target. -/
def lowerBound (less : E → Bool) (xs : List E) : Nat :=
  lowerBoundLoop less xs xs.length 0 xs.length

theorem lowerBoundLoop_eq {less : E → Bool} {xs : List E} {n : Nat}
    (hlow : ∀ i x, xs[i]? = some x → i < n → less x = true)
    (hhigh : ∀ i x, xs[i]? = some x → n ≤ i → less x = false)
    (fuel first len : Nat) (hfuel : len ≤ fuel) (hfirst : first ≤ n) (hn : n ≤ first + len)
    (hlen : first + len ≤ xs.length) : lowerBoundLoop less xs fuel first len = n := by
  induction fuel generalizing first len with
  | zero =>
      simp only [lowerBoundLoop]
      omega
  | succ fuel ih =>
      simp only [lowerBoundLoop]
      by_cases h0 : len = 0
      · rw [if_pos h0]
        omega
      · have hmid : first + len / 2 < xs.length := by omega
        rw [if_neg h0, List.getElem?_eq_getElem hmid]
        simp only
        by_cases hlt : first + len / 2 < n
        · rw [if_pos (hlow _ _ (List.getElem?_eq_getElem hmid) hlt)]
          exact ih _ _ (by omega) (by omega) (by omega) (by omega)
        · rw [hhigh _ _ (List.getElem?_eq_getElem hmid) (by omega)]
          exact ih _ _ (by omega) (by omega) (by omega) (by omega)

theorem lowerBound_eq {less : E → Bool} {xs : List E} {n : Nat} (hn : n ≤ xs.length)
    (hlow : ∀ i x, xs[i]? = some x → i < n → less x = true)
    (hhigh : ∀ i x, xs[i]? = some x → n ≤ i → less x = false) :
    lowerBound less xs = n :=
  lowerBoundLoop_eq hlow hhigh _ _ _ (Nat.le_refl _) (Nat.zero_le _) (by omega) (by omega)

end Search

variable {E K : Type} [Ord K] [DecidableEq K] (key : E → K)

/-- Strictly increasing keys. -/
def Ascending (es : List E) : Prop :=
  es.Pairwise fun a b => compare (key a) (key b) = .lt

instance (es : List E) : Decidable (Ascending key es) :=
  inferInstanceAs (Decidable (es.Pairwise _))

/-- The entry of a key. -/
def find (k : K) (es : List E) : Option E := es.find? fun e => key e = k

/-- Insert every entry under its key, in order. -/
def insertAll [TransOrd K] (m : ExtTreeMap K E) (es : List E) : ExtTreeMap K E :=
  es.foldl (fun m e => m.insert (key e) e) m

variable {key}

omit [Ord K] in
theorem find_eq_none_iff {k : K} {es : List E} :
    find key k es = none ↔ ∀ e ∈ es, key e ≠ k := by
  simp [find]

omit [Ord K] in
theorem mem_of_find {k : K} {es : List E} {e : E} (h : find key k es = some e) :
    e ∈ es ∧ key e = k := by
  refine ⟨List.mem_of_find?_eq_some h, ?_⟩
  simpa using List.find?_some h

omit [Ord K] in
theorem find_cons (k : K) (e : E) (es : List E) :
    find key k (e :: es) = if key e = k then some e else find key k es := by
  by_cases h : key e = k <;> simp [find, h]

omit [Ord K] in
theorem find_append (k : K) (es fs : List E) :
    find key k (es ++ fs) = (find key k es).or (find key k fs) := by
  simp [find, List.find?_append]

section Order

variable [TransOrd K]

omit [DecidableEq K] in
theorem ne_of_compare_lt {a b : K} (h : compare a b = .lt) : a ≠ b := by
  rintro rfl
  have heq : compare a a = .eq := ReflCmp.compare_self
  rw [heq] at h
  cases h

omit [DecidableEq K] in
theorem compare_lt_asymm {a b : K} (h : compare a b = .lt) : compare b a ≠ .lt := by
  have hswap : compare b a = (compare a b).swap := OrientedCmp.eq_swap
  rw [hswap, h]
  decide

/-- In a run an entry is the one found under its key. -/
theorem find_of_mem {es : List E} (h : Ascending key es) {e : E} (he : e ∈ es) :
    find key (key e) es = some e := by
  induction es with
  | nil => cases he
  | cons a es ih =>
      obtain ⟨ha, hes⟩ := List.pairwise_cons.mp h
      rw [find_cons]
      rcases List.mem_cons.mp he with rfl | he
      · rw [if_pos rfl]
      · rw [if_neg (ne_of_compare_lt (ha e he)), ih hes he]

theorem find_eq_some_iff {es : List E} (h : Ascending key es) {k : K} {e : E} :
    find key k es = some e ↔ e ∈ es ∧ key e = k := by
  constructor
  · exact mem_of_find
  · rintro ⟨he, rfl⟩
    exact find_of_mem h he

/-- Runs with the same finds are equal. -/
theorem ext_find {es fs : List E} (hes : Ascending key es) (hfs : Ascending key fs)
    (h : ∀ k, find key k es = find key k fs) : es = fs := by
  have hmem : ∀ e, e ∈ es ↔ e ∈ fs := by
    intro e
    have he := find_eq_some_iff hes (k := key e) (e := e)
    have hf := find_eq_some_iff hfs (k := key e) (e := e)
    rw [h] at he
    simpa using he.symm.trans hf
  have hnodup : ∀ {gs : List E}, Ascending key gs → gs.Nodup := by
    intro gs hg
    exact hg.imp fun hab heq => ne_of_compare_lt hab (congrArg key heq)
  have hperm : es.Perm fs := (List.perm_ext_iff_of_nodup (hnodup hes) (hnodup hfs)).mpr hmem
  exact hperm.eq_of_pairwise (fun a b _ _ hab hba => absurd hba (compare_lt_asymm hab)) hes hfs

/-- A key below the first entry is in no entry of the run. -/
theorem find_eq_none_of_lt_head {es : List E} (h : Ascending key es) {k : K} {e : E}
    (he : es.head? = some e) (hk : compare k (key e) = .lt) : find key k es = none := by
  cases es with
  | nil => rfl
  | cons a es =>
      obtain rfl : a = e := by simpa using he
      rw [find_eq_none_iff]
      intro b hb
      rcases List.mem_cons.mp hb with rfl | hb
      · exact (ne_of_compare_lt hk).symm
      · exact (ne_of_compare_lt (TransCmp.lt_trans hk ((List.pairwise_cons.mp h).1 b hb))).symm

/-- A key above the last entry is in no entry of the run. -/
theorem find_eq_none_of_last_lt {es : List E} (h : Ascending key es) {k : K} {e : E}
    (he : es.getLast? = some e) (hk : compare (key e) k = .lt) : find key k es = none := by
  obtain ⟨init, rfl⟩ := List.getLast?_eq_some_iff.mp he
  obtain ⟨-, -, hlast⟩ := List.pairwise_append.mp h
  rw [find_eq_none_iff]
  intro b hb
  rcases List.mem_append.mp hb with hb | hb
  · exact ne_of_compare_lt (TransCmp.lt_trans (hlast b hb e List.mem_cons_self) hk)
  · rw [List.mem_singleton.mp hb]
    exact ne_of_compare_lt hk

omit [DecidableEq K] in
/-- Dropping the entries below a key leaves those that are not below it. -/
theorem mem_dropWhile_iff {es : List E} (h : Ascending key es) {k : K} {e : E} :
    e ∈ es.dropWhile (fun e => compare (key e) k == .lt) ↔ e ∈ es ∧ compare (key e) k ≠ .lt := by
  induction es with
  | nil => simp
  | cons a es ih =>
      obtain ⟨ha, hes⟩ := List.pairwise_cons.mp h
      by_cases hlt : compare (key a) k = .lt
      · rw [List.dropWhile_cons_of_pos (by simp [hlt]), ih hes, List.mem_cons]
        constructor
        · rintro ⟨he, hne⟩
          exact ⟨Or.inr he, hne⟩
        · rintro ⟨rfl | he, hne⟩
          · exact absurd hlt hne
          · exact ⟨he, hne⟩
      · rw [List.dropWhile_cons_of_neg (by simp [hlt]), List.mem_cons]
        refine ⟨fun he => ⟨he, fun hk => hlt ?_⟩, fun he => he.1⟩
        rcases he with rfl | he
        · exact hk
        · exact TransCmp.lt_trans (ha e he) hk

/-- The entry at the lower bound of a key, if it has the key, is the one found. -/
theorem getElem?_lowerBound {es : List E} (h : Ascending key es) (k : K) :
    (es[lowerBound (fun e => compare (key e) k == .lt) es]?).filter (fun e => key e = k) =
      find key k es := by
  obtain ⟨n, hn, hlow, hhigh⟩ : ∃ n ≤ es.length,
      (∀ i x, es[i]? = some x → i < n → (compare (key x) k == .lt) = true) ∧
      (∀ i x, es[i]? = some x → n ≤ i → (compare (key x) k == .lt) = false) := by
    induction es with
    | nil => exact ⟨0, Nat.le_refl _, by simp, by simp⟩
    | cons a es ih =>
        obtain ⟨ha, hes⟩ := List.pairwise_cons.mp h
        by_cases hak : compare (key a) k = .lt
        · obtain ⟨n, hn, hlow, hhigh⟩ := ih hes
          refine ⟨n + 1, by simpa using hn, ?_, ?_⟩
          · intro i x hx hi
            cases i with
            | zero =>
                obtain rfl : a = x := by simpa using hx
                simp [hak]
            | succ i => exact hlow i x (by simpa using hx) (by omega)
          · intro i x hx hi
            cases i with
            | zero => omega
            | succ i => exact hhigh i x (by simpa using hx) (by omega)
        · refine ⟨0, Nat.zero_le _, by intro i x _ hi; omega, ?_⟩
          intro i x hx _
          have hx' : x = a ∨ x ∈ es := by
            simpa using List.mem_of_getElem? hx
          rcases hx' with rfl | hx'
          · simpa using hak
          · simp only [beq_eq_false_iff_ne, ne_eq]
            exact fun hlt => hak (TransCmp.lt_trans (ha x hx') hlt)
  rw [lowerBound_eq hn hlow hhigh]
  cases hx : es[n]? with
  | none =>
      have hlen : es.length ≤ n := List.getElem?_eq_none_iff.mp hx
      symm
      simp only [Option.filter_none]
      rw [find_eq_none_iff]
      intro e he
      obtain ⟨i, hi, rfl⟩ := List.getElem_of_mem he
      have := hlow i _ (List.getElem?_eq_getElem hi) (by omega)
      exact ne_of_compare_lt (by simpa using this)
  | some x =>
      by_cases hxk : key x = k
      · subst hxk
        rw [find_of_mem h (List.mem_of_getElem? hx)]
        simp
      · simp only [Option.filter_some, hxk, decide_false, Bool.false_eq_true, if_false]
        symm
        rw [find_eq_none_iff]
        intro e he hek
        obtain ⟨i, hi, rfl⟩ := List.getElem_of_mem he
        have hi' := List.getElem?_eq_getElem hi
        have hne : ¬i < n := fun hlt => by
          have hless := hlow i _ hi' hlt
          rw [hek] at hless
          exact ne_of_compare_lt (by simpa only [beq_iff_eq] using hless) rfl
        have hin : n ≠ i := by
          rintro rfl
          rw [hi'] at hx
          exact hxk (Option.some.inj hx ▸ hek)
        have hn' : n < es.length := by omega
        have hpair := List.pairwise_iff_getElem.mp h n i hn' hi (by omega)
        have hge := hhigh n x hx (Nat.le_refl _)
        rw [List.getElem?_eq_getElem hn'] at hx
        rw [Option.some.inj hx, hek] at hpair
        simp [hpair] at hge

variable [LawfulEqOrd K]

theorem getElem?_insertAll (m : ExtTreeMap K E) {es : List E} (h : Ascending key es) (k : K) :
    (insertAll key m es)[k]? = (find key k es).or m[k]? := by
  induction es generalizing m with
  | nil => simp [insertAll, find]
  | cons e es ih =>
      obtain ⟨he, hes⟩ := List.pairwise_cons.mp h
      have hrec := ih (m.insert (key e) e) hes
      rw [insertAll] at hrec ⊢
      rw [List.foldl_cons, hrec, find_cons, ExtTreeMap.getElem?_insert]
      by_cases hk : key e = k
      · subst hk
        have hnone : find key (key e) es = none := by
          rw [find_eq_none_iff]
          exact fun b hb => (ne_of_compare_lt (he b hb)).symm
        simp [hnone]
      · have hcmp : compare (key e) k ≠ .eq := fun hc => hk (LawfulEqCmp.eq_of_compare hc)
        simp [hk, hcmp]

/-- Every entry of the map is under its own key. -/
def Keyed (key : E → K) (m : ExtTreeMap K E) : Prop := ∀ k e, m[k]? = some e → key e = k

omit [DecidableEq K] [LawfulEqOrd K] in
theorem Keyed.empty : Keyed key (∅ : ExtTreeMap K E) := by
  intro k e h
  simp at h

omit [DecidableEq K] in
theorem Keyed.insertAll {m : ExtTreeMap K E} (h : Keyed key m) (es : List E) :
    Keyed key (insertAll key m es) := by
  induction es generalizing m with
  | nil => exact h
  | cons e es ih =>
      refine ih (m := m.insert (key e) e) fun k e' he' => ?_
      rw [ExtTreeMap.getElem?_insert] at he'
      split at he'
      next hc => rw [← Option.some.inj he']; exact LawfulEqCmp.eq_of_compare hc
      next => exact h k e' he'

section ToList

variable {V : Type} {m : ExtTreeMap K V} {f : K → V → E}

omit [DecidableEq K] [LawfulEqOrd K] in
/-- The bindings of a map, made into entries of their keys, are a run. -/
theorem ascending_toList [LawfulEqOrd K] (hf : ∀ k v, m[k]? = some v → key (f k v) = k) :
    Ascending key (m.toList.map fun p => f p.1 p.2) := by
  have hpair : m.toList.Pairwise fun a b => compare a.1 b.1 = .lt :=
    ExtTreeMap.ordered_keys_toList
  rw [Ascending, List.pairwise_map]
  refine hpair.imp_of_mem fun {a b} ha hb hab => ?_
  rw [hf a.1 a.2 (ExtTreeMap.mem_toList_iff_getElem?_eq_some.mp ha),
    hf b.1 b.2 (ExtTreeMap.mem_toList_iff_getElem?_eq_some.mp hb)]
  exact hab

theorem find_toList (hf : ∀ k v, m[k]? = some v → key (f k v) = k) (k : K) :
    find key k (m.toList.map fun p => f p.1 p.2) = (m[k]?).map (f k) := by
  cases hm : m[k]? with
  | none =>
      rw [Option.map_none, find_eq_none_iff]
      intro e he hek
      obtain ⟨⟨k', v⟩, hmem, rfl⟩ := List.mem_map.mp he
      have hget := ExtTreeMap.mem_toList_iff_getElem?_eq_some.mp hmem
      rw [hf k' v hget] at hek
      rw [hek, hm] at hget
      cases hget
  | some v =>
      have hmem : f k v ∈ m.toList.map fun p => f p.1 p.2 :=
        List.mem_map.mpr ⟨(k, v), ExtTreeMap.mem_toList_iff_getElem?_eq_some.mpr hm, rfl⟩
      have hfind := find_of_mem (ascending_toList hf) hmem
      rwa [hf k v hm] at hfind

end ToList

omit [DecidableEq K] in
/-- The entries of a keyed map in key order. -/
theorem Keyed.ascending_values {m : ExtTreeMap K E} (h : Keyed key m) :
    Ascending key (m.toList.map Prod.snd) :=
  ascending_toList (f := fun _ e => e) h

theorem Keyed.find_values {m : ExtTreeMap K E} (h : Keyed key m) (k : K) :
    find key k (m.toList.map Prod.snd) = m[k]? :=
  (find_toList (f := fun _ e => e) h k).trans (by simp)

end Order

end KeyedRun
