import ClomDB.DB
import ClomDB.Tree

/-!
# The files of a database directory

The names of the manifest, the log and the tables denote different files, and
different file numbers have different table names, also beyond twelve digits.
A step of the engine that writes new tables touches no other file.
-/

namespace ClomDB

open FileSystem FileSystem.World SSTable

/-- The number that a padded text stands for. -/
def unpad (b : Bytes) : Nat := Nat.ofDigits 10 (b.reverse.map fun c => c.toNat - 48)

theorem digit_toNat {d : Nat} (h : d < 10) : (UInt8.ofNat (48 + d)).toNat = 48 + d := by
  rw [UInt8.toNat_ofNat', Nat.mod_eq_of_lt (by omega)]

theorem unpad_zeroPad (n : UInt64) : unpad (zeroPad n) = n.toNat := by
  have hdigits : ∀ d ∈ Nat.digits 10 n.toNat ++
      List.replicate (12 - (Nat.digits 10 n.toNat).length) 0, d < 10 := by
    intro d hd
    rcases List.mem_append.mp hd with hd | hd
    · exact Nat.digits_lt_base (by decide) hd
    · rw [List.eq_of_mem_replicate hd]; decide
  simp only [unpad, zeroPad]
  rw [← List.map_reverse, List.reverse_reverse, List.map_map]
  have hid : (Nat.digits 10 n.toNat ++
      List.replicate (12 - (Nat.digits 10 n.toNat).length) 0).map
        ((fun c : UInt8 => c.toNat - 48) ∘ fun d => UInt8.ofNat (48 + d)) =
      Nat.digits 10 n.toNat ++ List.replicate (12 - (Nat.digits 10 n.toNat).length) 0 := by
    refine (List.map_congr_left fun d hd => ?_).trans (List.map_id _)
    simp only [Function.comp_apply, digit_toNat (hdigits d hd), id_eq]
    omega
  rw [hid, Nat.ofDigits_append_replicate_zero, Nat.ofDigits_digits]

theorem zeroPad_inj {m n : UInt64} (h : zeroPad m = zeroPad n) : m = n := by
  have := congrArg unpad h
  rw [unpad_zeroPad, unpad_zeroPad] at this
  exact UInt64.toNat_inj.mp this

/-- A padded number consists of digits, and of at least one. -/
theorem mem_zeroPad {n : UInt64} {c : UInt8} (h : c ∈ zeroPad n) : 48 ≤ c.toNat ∧ c.toNat < 58 := by
  obtain ⟨d, hd, rfl⟩ := List.mem_map.mp h
  have hd10 : d < 10 := by
    rcases List.mem_append.mp (List.mem_reverse.mp hd) with hd | hd
    · exact Nat.digits_lt_base (by decide) hd
    · rw [List.eq_of_mem_replicate hd]; decide
  rw [digit_toNat hd10]
  omega

theorem zeroPad_ne_nil (n : UInt64) : zeroPad n ≠ [] := by
  intro h
  have hlen := congrArg List.length h
  simp only [zeroPad, List.length_map, List.length_reverse, List.length_append,
    List.length_replicate, List.length_nil] at hlen
  omega

namespace DB

def tmpName : Bytes := manifestName ++ ascii ['.', 't', 'm', 'p']

theorem tmpPath_manifestPath (d : Path) :
    Version.tmpPath (manifestPath d) = dbFile d tmpName := by
  simp [Version.tmpPath, manifestPath, dbFile, tmpName]

theorem sstName_inj {m n : UInt64} (h : sstName m = sstName n) : m = n :=
  zeroPad_inj (List.append_cancel_right h)

theorem separator_notMem_sstName (n : UInt64) : separator ∉ sstName n := by
  intro h
  rcases List.mem_append.mp h with h | h
  · exact absurd (mem_zeroPad h).1 (by decide)
  · exact absurd h (by decide)

theorem separator_notMem_names :
    separator ∉ walName ∧ separator ∉ manifestName ∧ separator ∉ tmpName := by decide

/-- A table's name begins with a digit. -/
theorem sstName_head (n : UInt64) : ∃ c rest, sstName n = c :: rest ∧ c.toNat < 58 := by
  cases hz : zeroPad n with
  | nil => exact absurd hz (zeroPad_ne_nil n)
  | cons c rest =>
      refine ⟨c, rest ++ sstExtension, by rw [sstName, hz, List.cons_append], ?_⟩
      exact (mem_zeroPad (n := n) (by rw [hz]; exact List.mem_cons_self)).2

theorem sstName_ne (n : UInt64) :
    sstName n ≠ walName ∧ sstName n ≠ manifestName ∧ sstName n ≠ tmpName := by
  obtain ⟨c, rest, hn, hc⟩ := sstName_head n
  rw [hn]
  refine ⟨fun h => ?_, fun h => ?_, fun h => ?_⟩ <;>
    · have hhead := congrArg List.head? h
      have hc' := Option.some.inj hhead
      rw [hc'] at hc
      exact absurd hc (by decide)

section Paths

variable (d : Path)

theorem sstablePath_inj {m n : UInt64}
    (h : canonical (sstablePath d m) = canonical (sstablePath d n)) : m = n :=
  sstName_inj ((canonical_dbFile_inj (separator_notMem_sstName m)
    (separator_notMem_sstName n)).mp h)

theorem sstablePath_ne_wal (n : UInt64) :
    canonical (sstablePath d n) ≠ canonical (walPath d) := fun h =>
  (sstName_ne n).1 ((canonical_dbFile_inj (separator_notMem_sstName n)
    separator_notMem_names.1).mp h)

theorem sstablePath_ne_manifest (n : UInt64) :
    canonical (sstablePath d n) ≠ canonical (manifestPath d) := fun h =>
  (sstName_ne n).2.1 ((canonical_dbFile_inj (separator_notMem_sstName n)
    separator_notMem_names.2.1).mp h)

theorem sstablePath_ne_tmp (n : UInt64) :
    canonical (sstablePath d n) ≠ canonical (Version.tmpPath (manifestPath d)) := fun h => by
  rw [tmpPath_manifestPath] at h
  exact (sstName_ne n).2.2 ((canonical_dbFile_inj (separator_notMem_sstName n)
    separator_notMem_names.2.2).mp h)

theorem wal_ne_manifest : canonical (walPath d) ≠ canonical (manifestPath d) := fun h =>
  absurd ((canonical_dbFile_inj separator_notMem_names.1 separator_notMem_names.2.1).mp h)
    (by decide)

theorem wal_ne_tmp :
    canonical (walPath d) ≠ canonical (Version.tmpPath (manifestPath d)) := fun h => by
  rw [tmpPath_manifestPath] at h
  exact absurd ((canonical_dbFile_inj separator_notMem_names.1 separator_notMem_names.2.2).mp h)
    (by decide)

theorem manifest_ne_tmp :
    canonical (manifestPath d) ≠ canonical (Version.tmpPath (manifestPath d)) := fun h => by
  rw [tmpPath_manifestPath] at h
  exact absurd ((canonical_dbFile_inj separator_notMem_names.2.1
    separator_notMem_names.2.2).mp h) (by decide)

end Paths

/-- Only files of tables numbered from `n` on have changed. -/
structure Fresh (d : Path) (n : UInt64) (w w' : World) : Prop where
  directory : w'.directory = w.directory
  file : ∀ q, (∀ m, n ≤ m → canonical q ≠ canonical (sstablePath d m)) → w'.file q = w.file q

namespace Fresh

variable {d : Path} {m n : UInt64} {w w' w'' : World}

theorem refl (d : Path) (n : UInt64) (w : World) : Fresh d n w w := ⟨rfl, fun _ _ => rfl⟩

theorem trans (h : Fresh d n w w') (h' : Fresh d n w' w'') : Fresh d n w w'' :=
  ⟨h'.directory.trans h.directory, fun q hq => (h'.file q hq).trans (h.file q hq)⟩

theorem mono (h : Fresh d n w w') (hmn : m ≤ n) : Fresh d m w w' :=
  ⟨h.directory, fun q hq => h.file q fun k hk => hq k (UInt64.le_trans hmn hk)⟩

theorem of_onlyAt (h : OnlyAt (sstablePath d m) w w') (hnm : n ≤ m) : Fresh d n w w' :=
  ⟨h.directory, fun q hq => h.file q (hq m hnm)⟩

theorem bytes_table (h : Fresh d n w w') (hmn : m < n) :
    w'.bytes (sstablePath d m) = w.bytes (sstablePath d m) := by
  rw [World.bytes, World.bytes, h.file _ fun k hk heq => ?_]
  rw [sstablePath_inj d heq] at hmn
  exact UInt64.lt_irrefl _ (UInt64.lt_of_lt_of_le hmn hk)

theorem bytes_wal (h : Fresh d n w w') : w'.bytes (walPath d) = w.bytes (walPath d) := by
  rw [World.bytes, World.bytes, h.file _ fun k _ heq => sstablePath_ne_wal d k heq.symm]

theorem bytes_manifest (h : Fresh d n w w') :
    w'.bytes (manifestPath d) = w.bytes (manifestPath d) := by
  rw [World.bytes, World.bytes, h.file _ fun k _ heq => sstablePath_ne_manifest d k heq.symm]

end Fresh

end DB

end ClomDB
