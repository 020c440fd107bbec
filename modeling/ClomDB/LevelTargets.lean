import ClomDB.DB
import Mathlib.Data.Fintype.Order
import Mathlib.Order.Fin.Basic

/-!
# Level size targets

`NeedsCompactionLocked` against the rule of `options.h`: level 1 has a target
of `level1_target_bytes`, each next level one that is `level_size_multiplier`
times as large, and the first level above its target is compacted.

## Implementation notes

The rule is stated over numbers. The code adds and multiplies in a `size_t`,
so it compares the two remainders modulo `2 ^ 64`.
-/

namespace ClomDB.DB

section First

variable {α : Type*} [LinearOrder α] {ls : List α} {p q : α → Prop}

/-- The smallest member of a list with a property. -/
def FirstWith (ls : List α) (p : α → Prop) (l : α) : Prop :=
  p l ∧ ∀ j ∈ ls, j < l → ¬p j

theorem exists_firstWith [WellFoundedLT α] {l : α} (hl : l ∈ ls) (hp : p l) : ∃ j ∈ ls, j ≤ l ∧ FirstWith ls p j := by
  induction l using WellFoundedLT.induction with
  | ind l ih =>
      by_cases hfirst : ∃ j ∈ ls, j < l ∧ p j
      · obtain ⟨j, hj, hlt, hpj⟩ := hfirst
        obtain ⟨i, hi, hle, hfirst⟩ := ih j hlt hj hpj
        exact ⟨i, hi, hle.trans hlt.le, hfirst⟩
      · exact ⟨l, hl, le_rfl, hp, fun j hj hlt hpj => hfirst ⟨j, hj, hlt, hpj⟩⟩

/-- Two properties have the same first member exactly when they agree on every
member that has none of the first property before it. -/
theorem firstWith_congr_iff [WellFoundedLT α] : (∀ l ∈ ls, FirstWith ls q l ↔ FirstWith ls p l) ↔
    ∀ l ∈ ls, (∀ j ∈ ls, j < l → ¬p j) → (q l ↔ p l) := by
  constructor
  · intro hsame l hl hnone
    have hnone' : ∀ j ∈ ls, j < l → ¬q j := by
      intro j hj hlt hq
      obtain ⟨i, hi, hle, hfirst⟩ := exists_firstWith hj hq
      exact hnone i hi (hle.trans_lt hlt) ((hsame i hi).mp hfirst).1
    constructor
    · intro hq
      exact ((hsame l hl).mp ⟨hq, hnone'⟩).1
    · intro hp
      exact ((hsame l hl).mpr ⟨hp, hnone⟩).1
  · intro hagree l hl
    constructor
    · rintro ⟨hq, hbefore⟩
      have hnone : ∀ j ∈ ls, j < l → ¬p j := by
        intro j hj hlt hp
        obtain ⟨i, hi, hle, hfirst⟩ := exists_firstWith hj hp
        exact hbefore i hi (hle.trans_lt hlt) ((hagree i hi hfirst.2).mpr hfirst.1)
      exact ⟨(hagree l hl hnone).mp hq, hnone⟩
    · rintro ⟨hp, hbefore⟩
      refine ⟨(hagree l hl hbefore).mpr hp, fun j hj hlt hq => ?_⟩
      have hnone : ∀ i ∈ ls, i < j → ¬p i := fun i hi hi' => hbefore i hi (hi'.trans hlt)
      exact hbefore j hj hlt ((hagree j hj hnone).mp hq)

/-- The first hit of a search in a sorted list. -/
theorem find?_eq_some_iff_firstWith [DecidablePred p] (hsorted : ls.Pairwise (· < ·)) {l : α}
    (hl : l ∈ ls) : ls.find? (fun j => decide (p j)) = some l ↔ FirstWith ls p l := by
  induction ls with
  | nil => cases hl
  | cons a ls ih =>
      obtain ⟨ha, hsorted⟩ := List.pairwise_cons.mp hsorted
      rw [List.find?_cons]
      by_cases hp : p a
      · simp only [hp, decide_true]
        constructor
        · intro h
          obtain rfl := Option.some.inj h
          refine ⟨hp, fun j hj hlt => ?_⟩
          rcases List.mem_cons.mp hj with rfl | hj
          · exact absurd hlt (lt_irrefl _)
          · exact absurd (hlt.trans (ha j hj)) (lt_irrefl _)
        · rintro ⟨-, hbefore⟩
          rcases List.mem_cons.mp hl with rfl | hl
          · rfl
          · exact absurd hp (hbefore a List.mem_cons_self (ha l hl))
      · simp only [hp, decide_false]
        rcases List.mem_cons.mp hl with rfl | hl
        · constructor
          · intro h
            have hhit := List.find?_some (p := fun j => decide (p j)) h
            exact absurd (of_decide_eq_true hhit) hp
          · intro h
            exact absurd h.1 hp
        · rw [ih hsorted hl]
          constructor
          · rintro ⟨hpl, hbefore⟩
            refine ⟨hpl, fun j hj hlt => ?_⟩
            rcases List.mem_cons.mp hj with rfl | hj
            · exact hp
            · exact hbefore j hj hlt
          · rintro ⟨hpl, hbefore⟩
            exact ⟨hpl, fun j hj => hbefore j (List.mem_cons_of_mem a hj)⟩

end First

/-- The levels with a size target. -/
def sizedLevels : List (Fin kMaxLevels) := [1, 2, 3, 4]

/-- The total size of some files. -/
def totalBytes (files : List FileMetaData) : Nat :=
  (files.map fun fm => fm.fileSize.toNat).sum

/-- The target size of a level: `level1_target_bytes` for level 1, and
`level_size_multiplier` times more for each level below it. -/
def targetBytes (options : Options) (lvl : Fin kMaxLevels) : Nat :=
  options.level1TargetBytes.toNat * (max 1 options.levelSizeMultiplier).toNat ^ (lvl.val - 1)

/-- The level holds more than its target. -/
def Oversized (db : DB) (lvl : Fin kMaxLevels) : Prop :=
  targetBytes db.options lvl < totalBytes (db.version.levels lvl)

/-- The level seems to hold more than its target in 64 bits. -/
def SeemsOversized (db : DB) (lvl : Fin kMaxLevels) : Prop :=
  targetBytes db.options lvl % 2 ^ 64 < totalBytes (db.version.levels lvl) % 2 ^ 64

instance (db : DB) : DecidablePred (Oversized db) := fun lvl =>
  inferInstanceAs (Decidable (targetBytes db.options lvl < totalBytes (db.version.levels lvl)))

instance (db : DB) : DecidablePred (SeemsOversized db) := fun lvl =>
  inferInstanceAs (Decidable (targetBytes db.options lvl % 2 ^ 64 <
    totalBytes (db.version.levels lvl) % 2 ^ 64))

/-- The sum that the code forms is the total size modulo `2 ^ 64`. -/
theorem levelBytes_toNat (files : List FileMetaData) :
    (levelBytes files).toNat = totalBytes files % 2 ^ 64 := by
  have hfold : ∀ (files : List FileMetaData) (total : UInt64),
      (files.foldl (fun total fm => total + fm.fileSize) total).toNat =
        (total.toNat + totalBytes files) % 2 ^ 64 := by
    intro files
    induction files with
    | nil =>
        intro total
        exact (Nat.mod_eq_of_lt total.toNat_lt).symm
    | cons fm files ih =>
        intro total
        rw [List.foldl_cons, ih, UInt64.toNat_add, Nat.mod_add_mod, Nat.add_assoc]
        rfl
  rw [levelBytes, hfold]
  exact congrArg (· % 2 ^ 64) (Nat.zero_add _)

theorem ofInt_toNat {m : Int} (h : 0 ≤ m) : (UInt64.ofInt m).toNat = m.toNat % 2 ^ 64 := by
  obtain ⟨n, rfl⟩ := Int.eq_ofNat_of_zero_le h
  rw [UInt64.ofInt, UInt64.toNat_ofNat']
  omega

/-- The loop searches consecutive levels with the comparison in 64 bits. -/
theorem needsCompactionLoop_eq_find (db : DB) (lvls : List (Fin kMaxLevels)) (i : Nat)
    (target : UInt64) (hlvls : lvls.map Fin.val = List.range' (i + 1) lvls.length)
    (htarget : target.toNat = db.options.level1TargetBytes.toNat *
      (max 1 db.options.levelSizeMultiplier).toNat ^ i % 2 ^ 64) :
    needsCompactionLoop db.version (UInt64.ofInt (max 1 db.options.levelSizeMultiplier)) lvls
      target = lvls.find? fun lvl => decide (SeemsOversized db lvl) := by
  induction lvls generalizing i target with
  | nil => rfl
  | cons lvl lvls ih =>
      rw [List.map_cons, List.length_cons, List.range'_succ] at hlvls
      obtain ⟨hlvl, hlvls⟩ := List.cons.inj hlvls
      have hiff : levelBytes (db.version.levels lvl) > target ↔ SeemsOversized db lvl := by
        rw [gt_iff_lt, UInt64.lt_iff_toNat_lt, levelBytes_toNat, htarget, SeemsOversized,
          targetBytes, hlvl, Nat.add_sub_cancel]
      have hnext : (target * UInt64.ofInt (max 1 db.options.levelSizeMultiplier)).toNat =
          db.options.level1TargetBytes.toNat *
            (max 1 db.options.levelSizeMultiplier).toNat ^ (i + 1) % 2 ^ 64 := by
        rw [UInt64.toNat_mul, htarget, ofInt_toNat (by omega), ← Nat.mul_mod, Nat.mul_assoc,
          ← Nat.pow_succ]
      rw [needsCompactionLoop, List.find?_cons, ih (i + 1) _ hlvls hnext]
      by_cases hs : SeemsOversized db lvl
      · rw [if_pos (hiff.mpr hs)]
        simp only [hs, decide_true]
      · rw [if_neg fun h => hs (hiff.mp h)]
        simp only [hs, decide_false]

/-- Below the trigger of L0, the code selects the first level that seems too large. -/
theorem needsCompactionLocked_eq_some_iff {db : DB}
    (hl0 : ((db.version.levels 0).length : Int) < db.options.l0CompactionTrigger)
    {lvl : Fin kMaxLevels} (hlvl : lvl ∈ sizedLevels) :
    db.needsCompactionLocked = some lvl ↔ FirstWith sizedLevels (SeemsOversized db) lvl := by
  have hcast : (Int32.ofNat (db.version.levels 0).length).toInt ≤
      (db.version.levels 0).length := by
    rw [Int32.toInt_ofNat', Int.bmod_def, Int32.size]
    split <;> omega
  rw [needsCompactionLocked, if_neg (by omega),
    needsCompactionLoop_eq_find db [1, 2, 3, 4] 0 _ rfl
      (by rw [Nat.pow_zero, Nat.mul_one, Nat.mod_eq_of_lt (UInt64.toNat_lt _)])]
  exact find?_eq_some_iff_firstWith (by decide) hlvl

/-- The code follows the size rule exactly when wrapping changes no comparison
up to the first level that is above its target. -/
theorem needsCompactionLocked_follows_iff (db : DB)
    (hl0 : ((db.version.levels 0).length : Int) < db.options.l0CompactionTrigger) :
    (∀ lvl ∈ sizedLevels, db.needsCompactionLocked = some lvl ↔
        Oversized db lvl ∧ ∀ j ∈ sizedLevels, j < lvl → ¬Oversized db j) ↔
      ∀ lvl ∈ sizedLevels, (∀ j ∈ sizedLevels, j < lvl → ¬Oversized db j) →
        (targetBytes db.options lvl % 2 ^ 64 < totalBytes (db.version.levels lvl) % 2 ^ 64 ↔
          targetBytes db.options lvl < totalBytes (db.version.levels lvl)) := by
  have hcode : ∀ lvl ∈ sizedLevels, (db.needsCompactionLocked = some lvl ↔
      FirstWith sizedLevels (SeemsOversized db) lvl) :=
    fun lvl hlvl => needsCompactionLocked_eq_some_iff hl0 hlvl
  refine Iff.trans ?_ (firstWith_congr_iff (p := Oversized db) (q := SeemsOversized db))
  exact forall₂_congr fun lvl hlvl => by rw [hcode lvl hlvl]; rfl

/-- A level 2 with one byte, and a level 1 target of half of `2 ^ 64`. -/
def wrappedTarget : DB :=
  { dbPath := []
    options := { level1TargetBytes := 2 ^ 63 }
    version := Version.setLevel {} 2
      [{ number := 1, minKey := [], maxKey := [], fileSize := 1 }] }

theorem needsCompactionLocked_follows_iff_wrappedTarget :
    (∀ lvl ∈ sizedLevels, wrappedTarget.needsCompactionLocked = some lvl ↔
        Oversized wrappedTarget lvl ∧ ∀ j ∈ sizedLevels, j < lvl → ¬Oversized wrappedTarget j) ↔
      ∀ lvl ∈ sizedLevels, (∀ j ∈ sizedLevels, j < lvl → ¬Oversized wrappedTarget j) →
        (targetBytes wrappedTarget.options lvl % 2 ^ 64 <
            totalBytes (wrappedTarget.version.levels lvl) % 2 ^ 64 ↔
          targetBytes wrappedTarget.options lvl < totalBytes (wrappedTarget.version.levels lvl)) :=
  needsCompactionLocked_follows_iff wrappedTarget (by decide)

/-- The target of level 2 wraps to 0, and its one byte is selected for compaction. -/
theorem wrappedTarget_selected : ¬∀ (db : DB),
    ((db.version.levels 0).length : Int) < db.options.l0CompactionTrigger →
    ∀ lvl ∈ sizedLevels, db.needsCompactionLocked = some lvl ↔
      Oversized db lvl ∧ ∀ j ∈ sizedLevels, j < lvl → ¬Oversized db j := by
  intro h
  have hselected : wrappedTarget.needsCompactionLocked = some 2 := by decide +kernel
  have hsmall : ¬Oversized wrappedTarget 2 := by decide +kernel
  exact hsmall ((h wrappedTarget (by decide) 2 (by decide)).mp hselected).1

end ClomDB.DB
