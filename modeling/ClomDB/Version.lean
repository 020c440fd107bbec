import ClomDB.CRC32C
import ClomDB.Coding
import ClomDB.FileSystem
import Mathlib.Logic.Function.Basic

/-!
# Versions and the manifest

`version.h` and `version.cpp`: the live tables of each level, saved as one
snapshot and loaded back.

## Implementation notes

`Load` fills its object while it reads, so a failing load returns what it has
filled in so far. `Save` closes a stream that buffers nothing, and ignores the
result; that call is left out.
-/

namespace ClomDB

open FaultProgram FileSystem FileSystem.World Coding

abbrev kMaxLevels : Nat := 6

instance : NeZero kMaxLevels := ⟨by decide⟩

def kManifestMagic : UInt64 := 0x436c6f6d444d4631

structure FileMetaData where
  number : UInt64 := 0
  minKey : Bytes := []
  maxKey : Bytes := []
  fileSize : UInt64 := 0
  deriving DecidableEq, Repr

/-- One list for each level. -/
abbrev Levels (α : Type) : Type := Fin kMaxLevels → List α

structure Version where
  levels : Levels FileMetaData := fun _ => []
  nextFileNumber : UInt64 := 1

namespace Version

/-- `MutableLevel(level)` assigned to. -/
def setLevel (v : Version) (level : Fin kMaxLevels) (files : List FileMetaData) : Version :=
  { v with levels := Function.update v.levels level files }

def encodeFile (fm : FileMetaData) : Bytes :=
  putFixed64 fm.number ++ putFixed64 fm.fileSize ++ putLengthPrefixedSlice fm.minKey ++
    putLengthPrefixedSlice fm.maxKey

def encodeLevel (files : List FileMetaData) : Bytes :=
  putFixed32 (UInt32.ofNat files.length) ++ files.flatMap encodeFile

/-- The checksummed part of a manifest. -/
def encodeBody (v : Version) : Bytes :=
  putFixed64 kManifestMagic ++ putFixed64 v.nextFileNumber ++
    putFixed32 (UInt32.ofNat kMaxLevels) ++
    (List.finRange kMaxLevels).flatMap fun lvl => encodeLevel (v.levels lvl)

/-- The manifest of a version. -/
def encode (v : Version) : Bytes := putFixed32 (CRC32C.value v.encodeBody) ++ v.encodeBody

/-- `manifest_path + ".tmp"`. -/
def tmpPath (manifestPath : Path) : Path := manifestPath ++ ascii ['.', 't', 'm', 'p']

/-- `Version::Save`. -/
def save (v : Version) (manifestPath : Path) : Prog World Status := do
  match ← fopenWrite (tmpPath manifestPath) with
  | .error _ => return .ioError [.bytes (tmpPath manifestPath), .lit ": ", .strerror]
  | .ok f =>
    let (written, f) ← fwrite f v.encode
    if !written then
      remove (tmpPath manifestPath)
      return .ioError [.bytes manifestPath, .lit ": failed writing manifest"]
    else
      let (flushed, _) ← fflush f
      if !flushed then
        remove (tmpPath manifestPath)
        return .ioError [.bytes manifestPath, .lit ": failed writing manifest"]
      else
        match ← rename (tmpPath manifestPath) manifestPath with
        | .error _ => return .ioError [.bytes manifestPath, .lit ": rename failed: ", .strerror]
        | .ok () => return .OK

/-- The inner loop of `Load`: `count` files from the front of some bytes. -/
def loadFiles (manifestPath : Path) :
    Nat → Bytes → List FileMetaData → Status × Bytes × List FileMetaData
  | 0, p, files => (.OK, p, files)
  | count + 1, p, files =>
      if p.length < 16 then
        (.corruption [.bytes manifestPath, .lit ": truncated file entry"], p, files)
      else
        let number := decodeFixed64 p
        let fileSize := decodeFixed64 (p.drop 8)
        match getLengthPrefixedSlice (p.drop 16) with
        | none => (.corruption [.bytes manifestPath, .lit ": malformed file entry"], p, files)
        | some (minKey, input) =>
            match getLengthPrefixedSlice input with
            | none => (.corruption [.bytes manifestPath, .lit ": malformed file entry"], p, files)
            | some (maxKey, input) =>
                loadFiles manifestPath count input (files ++ [⟨number, minKey, maxKey, fileSize⟩])

/-- The outer loop of `Load`. -/
def loadLevels (manifestPath : Path) :
    List (Fin kMaxLevels) → Bytes → Version → Status × Version
  | [], _, v => (.OK, v)
  | lvl :: lvls, p, v =>
      if p.length < 4 then (.corruption [.bytes manifestPath, .lit ": truncated"], v)
      else
        let r := loadFiles manifestPath (decodeFixed32 p).toNat (p.drop 4) (v.levels lvl)
        let v := v.setLevel lvl r.2.2
        if r.1.ok then loadLevels manifestPath lvls r.2.1 v else (r.1, v)

/-- `Load` once the bytes of the file are in memory. -/
def decode (v : Version) (manifestPath : Path) (buf : Bytes) : Status × Version :=
  let body := buf.drop 4
  if CRC32C.value body ≠ decodeFixed32 buf then
    (.corruption [.bytes manifestPath, .lit ": checksum mismatch"], v)
  else if body.length < 8 ∨ decodeFixed64 body ≠ kManifestMagic then
    (.corruption [.bytes manifestPath, .lit ": bad magic"], v)
  else
    let p := body.drop 8
    if p.length < 8 then (.corruption [.bytes manifestPath, .lit ": truncated"], v)
    else
      let v := { v with nextFileNumber := decodeFixed64 p }
      let p := p.drop 8
      if p.length < 4 then (.corruption [.bytes manifestPath, .lit ": truncated"], v)
      else if decodeFixed32 p ≠ UInt32.ofNat kMaxLevels then
        (.corruption [.bytes manifestPath, .lit ": level count mismatch"], v)
      else
        loadLevels manifestPath (List.finRange kMaxLevels) (p.drop 4) { v with levels := fun _ => [] }

/-- `Version::Load`. -/
def load (v : Version) (manifestPath : Path) : Prog World (Status × Version) := do
  match ← fopenRead manifestPath with
  | .error errno =>
    if errno = noEntry then return (.notFound [.bytes manifestPath], v)
    else return (.ioError [.bytes manifestPath, .lit ": ", .strerror], v)
  | .ok content =>
    let atEnd ← fseek 0
    let sz := if atEnd then content.length else 0
    let rewound ← fseek 0
    let buf ← fread content (if rewound then 0 else sz) sz
    if buf.length ≠ sz ∨ sz < 4 then
      return (.corruption [.bytes manifestPath, .lit ": truncated manifest"], v)
    else
      return v.decode manifestPath buf

/-- Sizes that fit the fields of a manifest. -/
def Sized (v : Version) : Prop :=
  ∀ lvl, (v.levels lvl).length < 2 ^ 32 ∧
    ∀ fm ∈ v.levels lvl, fm.minKey.length < 2 ^ 32 ∧ fm.maxKey.length < 2 ^ 32

theorem loadFiles_encode (manifestPath : Path) (fms : List FileMetaData)
    (h : ∀ fm ∈ fms, fm.minKey.length < 2 ^ 32 ∧ fm.maxKey.length < 2 ^ 32) (rest : Bytes)
    (files : List FileMetaData) :
    loadFiles manifestPath fms.length (fms.flatMap encodeFile ++ rest) files =
      (.OK, rest, files ++ fms) := by
  induction fms generalizing files with
  | nil => simp [loadFiles]
  | cons fm fms ih =>
      obtain ⟨hmin, hmax⟩ := h fm List.mem_cons_self
      have hdrop : ∀ (a b : UInt64) (s : Bytes),
          (putFixed64 a ++ (putFixed64 b ++ s)).drop 16 = s := fun a b s => by
        rw [show 16 = 8 + 8 from rfl, ← List.drop_drop, List.drop_left' (putFixed64_length a),
          List.drop_left' (putFixed64_length b)]
      have hdrop8 : ∀ (a : UInt64) (s : Bytes), (putFixed64 a ++ s).drop 8 = s := fun a s =>
        List.drop_left' (putFixed64_length a)
      rw [List.length_cons, List.flatMap_cons, loadFiles, encodeFile]
      simp only [List.append_assoc, hdrop, hdrop8, decodeFixed64_putFixed64,
        getLengthPrefixedSlice_put hmin, getLengthPrefixedSlice_put hmax]
      rw [if_neg (by simp only [List.length_append, putFixed64_length]; omega),
        ih fun fm' hfm' => h fm' (List.mem_cons_of_mem _ hfm')]
      simp

theorem loadLevels_encode (manifestPath : Path) {v : Version} (hv : v.Sized)
    (lvls : List (Fin kMaxLevels)) (hnodup : lvls.Nodup) (v' : Version)
    (hempty : ∀ lvl ∈ lvls, v'.levels lvl = []) :
    loadLevels manifestPath lvls (lvls.flatMap fun lvl => encodeLevel (v.levels lvl)) v' =
      (.OK, { v' with levels := fun lvl => if lvl ∈ lvls then v.levels lvl else v'.levels lvl })
    := by
  induction lvls generalizing v' with
  | nil => simp [loadLevels]
  | cons lvl lvls ih =>
      obtain ⟨hnot, hnodup⟩ := List.nodup_cons.mp hnodup
      obtain ⟨hlen, hkeys⟩ := hv lvl
      have hnat : (UInt32.ofNat (v.levels lvl).length).toNat = (v.levels lvl).length := by
        rw [UInt32.toNat_ofNat', Nat.mod_eq_of_lt hlen]
      rw [List.flatMap_cons, loadLevels, encodeLevel]
      simp only [List.append_assoc, decodeFixed32_putFixed32, hnat,
        List.drop_left' (putFixed32_length _), hempty lvl List.mem_cons_self,
        loadFiles_encode manifestPath _ hkeys, List.nil_append, Status.ok_OK, if_true]
      rw [if_neg (by simp), ih hnodup]
      · congr 2
        funext lvl'
        by_cases hl : lvl' = lvl
        · subst hl
          simp [hnot, setLevel]
        · simp [hl, setLevel]
      · intro lvl' hl'
        have hne : lvl' ≠ lvl := fun heq => hnot (heq ▸ hl')
        simp only [setLevel, Function.update_of_ne hne]
        exact hempty lvl' (List.mem_cons_of_mem _ hl')

/-- Loading a saved manifest gives the version back, on any receiver. -/
theorem decode_encode {v : Version} (hv : v.Sized) (v' : Version) (manifestPath : Path) :
    v'.decode manifestPath v.encode = (.OK, v) := by
  have hdrop8 : ∀ (a : UInt64) (s : Bytes), (putFixed64 a ++ s).drop 8 = s := fun a s =>
    List.drop_left' (putFixed64_length a)
  have hdrop4 : ∀ (a : UInt32) (s : Bytes), (putFixed32 a ++ s).drop 4 = s := fun a s =>
    List.drop_left' (putFixed32_length a)
  simp only [decode, encode, hdrop4, decodeFixed32_putFixed32]
  rw [if_neg (by simp)]
  simp only [encodeBody, List.append_assoc, hdrop8, hdrop4, decodeFixed64_putFixed64,
    decodeFixed32_putFixed32]
  rw [if_neg (by simp), if_neg (by simp), if_neg (by simp), if_neg (by simp),
    loadLevels_encode manifestPath hv _ (List.nodup_finRange _) _ fun _ _ => rfl]
  simp

section Calls

variable {E : Env} {C : World → Nat → Prop} {w : World} {b : Nat} {manifestPath : Path}

theorem encode_length_ge (v : Version) : 4 ≤ v.encode.length := by
  simp [encode]

theorem encodeFile_length_le (fm : FileMetaData) :
    (encodeFile fm).length ≤ 26 + (fm.minKey.length + fm.maxKey.length) := by
  have hmin := putVarint32_length_le (UInt32.ofNat fm.minKey.length)
  have hmax := putVarint32_length_le (UInt32.ofNat fm.maxKey.length)
  simp only [encodeFile, putLengthPrefixedSlice, List.length_append, putFixed64_length]
  omega

/-- The size of a manifest, from the number of its files and the size of their keys. -/
theorem encode_length_le {v : Version} {n : Nat}
    (h : ∀ l, ∀ fm ∈ v.levels l, fm.minKey.length + fm.maxKey.length ≤ n) : v.encode.length ≤
      48 + ((List.finRange kMaxLevels).map fun l => (v.levels l).length).sum * (26 + n) := by
  have hlevel : ∀ files : List FileMetaData,
      (∀ fm ∈ files, fm.minKey.length + fm.maxKey.length ≤ n) →
        (encodeLevel files).length ≤ 4 + files.length * (26 + n) := by
    intro files
    rw [encodeLevel, List.length_append, putFixed32_length]
    induction files with
    | nil => simp
    | cons fm files ih =>
        intro hfiles
        obtain ⟨hfm, hfiles⟩ := List.forall_mem_cons.mp hfiles
        have hhead := encodeFile_length_le fm
        have htail := ih hfiles
        rw [List.flatMap_cons, List.length_append, List.length_cons, Nat.succ_mul]
        omega
  have hlevels : ∀ lvls : List (Fin kMaxLevels),
      (lvls.flatMap fun l => encodeLevel (v.levels l)).length ≤
        lvls.length * 4 + (lvls.map fun l => (v.levels l).length).sum * (26 + n) := by
    intro lvls
    induction lvls with
    | nil => simp
    | cons l lvls ih =>
        have hhead := hlevel (v.levels l) (h l)
        rw [List.flatMap_cons, List.length_append, List.map_cons, List.sum_cons, Nat.add_mul,
          List.length_cons]
        omega
  have hall := hlevels (List.finRange kMaxLevels)
  rw [List.length_finRange, show kMaxLevels * 4 = 24 from rfl] at hall
  simp only [encode, encodeBody, List.length_append, putFixed32_length, putFixed64_length]
  omega

/-- A load whose reads succeed decodes the bytes that are there. -/
theorem observes_load_bytes {data : Bytes} (hlen : 4 ≤ data.length)
    (hw : w.bytes manifestPath = some data) (v' : Version) :
    Observes E (v'.load manifestPath) (fun r => r = v'.decode manifestPath data ∨
      E.fails ∧ r.1.ok = false ∧ r.1.isNotFound = false ∧ r.2 = v') w := by
  rw [load]
  refine Observes.bind (observes_fopenRead hw) fun r hr => ?_
  rcases hr with rfl | ⟨hf, n, hn, rfl⟩
  swap
  · simp only [if_neg hn]
    exact Observes.ret (Or.inr ⟨hf, rfl, rfl, rfl⟩)
  refine Observes.bind (observes_fseek (Int.le_refl 0)) fun atEnd hs => ?_
  rcases hs with rfl | ⟨hf, rfl⟩
  swap
  · refine Observes.bind (observes_fseek (Int.le_refl 0)) fun rewound _ => ?_
    refine Observes.bind (observes_fread_take _ _ _) fun buf _ => ?_
    simp only [Bool.false_eq_true, if_false]
    rw [if_pos (by omega)]
    exact Observes.ret (Or.inr ⟨hf, rfl, rfl, rfl⟩)
  refine Observes.bind (observes_fseek (Int.le_refl 0)) fun rewound hs => ?_
  rcases hs with rfl | ⟨hf, rfl⟩
  · simp only [if_true]
    refine Observes.bind (observes_fread_take _ _ _) fun buf hb => ?_
    rw [List.drop_zero, List.take_length] at hb
    rcases hb with rfl | ⟨hf, hlt⟩
    · rw [if_neg (by omega)]
      exact Observes.ret (Or.inl rfl)
    · rw [if_pos (by omega)]
      exact Observes.ret (Or.inr ⟨hf, rfl, rfl, rfl⟩)
  · simp only [if_true, Bool.false_eq_true, if_false]
    refine Observes.bind (observes_fread_take _ _ _) fun buf hb => ?_
    rw [List.drop_length, List.take_nil] at hb
    have hnil : buf.length ≠ data.length := by
      rcases hb with rfl | ⟨-, hlt⟩
      · rw [List.length_nil]; omega
      · omega
    rw [if_pos (Or.inl hnil)]
    exact Observes.ret (Or.inr ⟨hf, rfl, rfl, rfl⟩)

theorem observes_load {v : Version} (hv : v.Sized) (hw : w.bytes manifestPath = some v.encode)
    (v' : Version) :
    Observes E (v'.load manifestPath) (fun r => r = (.OK, v) ∨
      E.fails ∧ r.1.ok = false ∧ r.1.isNotFound = false ∧ r.2 = v') w := by
  refine Observes.mono (observes_load_bytes v.encode_length_ge hw v') fun r hr => ?_
  rwa [decode_encode hv] at hr

theorem observes_load_missing (hw : w.bytes manifestPath = none) (v' : Version) :
    Observes E (v'.load manifestPath) (fun r => r.2 = v' ∧ r.1.ok = false ∧
      (r.1.isNotFound = true ∨ E.fails)) w := by
  rw [load]
  refine Observes.bind (observes_fopenRead_missing hw) fun r hr => ?_
  rcases hr with rfl | ⟨hf, n, hn, rfl⟩
  · simp only [if_pos]
    exact Observes.ret ⟨rfl, rfl, Or.inl rfl⟩
  · simp only [if_neg hn]
    exact Observes.ret ⟨rfl, rfl, Or.inr hf⟩

/-- The manifest holds the version, and besides it only the temporary file has
changed. -/
structure Saved (v : Version) (manifestPath : Path) (w w' : World) : Prop where
  directory : w'.directory = w.directory
  manifest : w'.bytes manifestPath = some v.encode
  file : ∀ q, canonical q ≠ canonical manifestPath →
    canonical q ≠ canonical (tmpPath manifestPath) → w'.file q = w.file q

/-- A save replaces the manifest as a whole, or leaves it alone. -/
theorem wp_save {Q : Status → World → Nat → Prop} {v : Version}
    (hfit : E.excludes ∨ v.encode.length ≤ maxFileBytes)
    (hok : ∀ w', Saved v manifestPath w w' → Q .OK w' b)
    (hfail : E.fails → ∀ s w', s.ok = false → OnlyAt (tmpPath manifestPath) w w' → Q s w' b)
    (hC : E.crashes → ∀ w', OnlyAt (tmpPath manifestPath) w w' ∨ Saved v manifestPath w w' → C w' b) :
    wp E (v.save manifestPath) Q C w b := by
  rw [save]
  generalize hout : v.encode = out at hfit ⊢
  have hnew := put_onlyAt w (tmpPath manifestPath) .empty
  have happ : ∀ x, OnlyAt (tmpPath manifestPath) w
      ((w.put (tmpPath manifestPath) .empty).append (tmpPath manifestPath) x) := fun x =>
    hnew.trans (append_onlyAt _ _ x)
  -- after a failed write the temporary file is removed, or that fails as well
  have hremove : ∀ w' (s : Status), E.fails → s.ok = false →
      OnlyAt (tmpPath manifestPath) w w' →
      wp E (remove (tmpPath manifestPath) >>= fun _ => pure s) Q C w' b := by
    intro w' s hf hs hw'
    have hdel := hw'.trans (delete_onlyAt w' (tmpPath manifestPath))
    exact wp_bind (wp_remove (wp_pure (hfail hf s _ hs hdel))
      (fun _ => wp_pure (hfail hf s _ hs hw')) fun hc => ⟨hC hc _ (Or.inl hw'), hC hc _ (Or.inl hdel)⟩)
  refine wp_bind (wp_fopenWrite ?_
    (fun hf n _ => wp_pure (hfail hf _ _ rfl (OnlyAt.refl _ w)))
    fun hc => ⟨hC hc _ (Or.inl (OnlyAt.refl _ w)), hC hc _ (Or.inl hnew)⟩)
  refine wp_bind (wp_fwrite (List.nil_append out) (by simpa using hfit) (fun _ => ?_)
    (fun hf n => hremove _ _ hf rfl (happ _)) fun hc n => hC hc _ (Or.inl (happ _)))
  refine wp_bind (wp_fflush ?_
    (fun hf n => hremove _ _ hf rfl (happ _)) fun hc n => hC hc _ (Or.inl (happ _)))
  have hbytes : ((w.put (tmpPath manifestPath) .empty).append (tmpPath manifestPath) out).bytes
      (tmpPath manifestPath) = some out := by
    rw [bytes_append_same, bytes_put_same, Option.map_some, File.empty_data, List.nil_append]
  have hsaved : Saved v manifestPath w (((w.put (tmpPath manifestPath) .empty).append
      (tmpPath manifestPath) out).move (tmpPath manifestPath) manifestPath) := by
    refine ⟨(move_directory _ _ _).trans (happ out).directory, ?_, fun q hq hq' => ?_⟩
    · rw [bytes_move hbytes, hout]
    · rw [file_move_of_ne hq' hq, (happ out).file q hq']
  refine wp_bind (wp_rename hbytes (wp_pure (hok _ hsaved))
    (fun hf n => wp_pure (hfail hf _ _ rfl (happ out)))
    fun hc => ⟨hC hc _ (Or.inl (happ out)), hC hc _ (Or.inr hsaved)⟩)

end Calls

section Atomicity

variable {w w' : World} {v : Version}

/-- A load on any receiver, with no failing call, gives back the version. -/
def LoadsFrom (v : Version) (manifestPath : Path) (w : World) : Prop :=
  ∀ receiver : Version, Observes Env.sure (receiver.load manifestPath) (fun r => r = (.OK, v)) w

theorem Saved.loadsFrom (h : Saved v manifestPath w w') (hv : v.Sized) :
    v.LoadsFrom manifestPath w' := fun receiver =>
  (observes_load (E := Env.sure) hv h.manifest receiver).mono fun _ hr =>
    hr.resolve_right fun hf => hf.1

theorem tmpPath_ne (manifestPath : Path) :
    canonical manifestPath ≠ canonical (tmpPath manifestPath) := by
  intro h
  rw [tmpPath, canonical_append_plain _ (by decide)] at h
  have := congrArg List.length h
  simp [ascii] at this

/-- Whatever fails and wherever the process dies, a save leaves the manifest as
it was, or leaves one that loads the version; its status tells which. -/
theorem save_atomic (hv : v.Sized) (manifestPath : Path) (w : World) (b : Nat) :
    wp Env.hostile (v.save manifestPath)
      (fun s w' _ => s.ok = true ∧ v.LoadsFrom manifestPath w' ∨
        s.ok = false ∧ w'.bytes manifestPath = w.bytes manifestPath)
      (fun w' _ => w'.bytes manifestPath = w.bytes manifestPath ∨ v.LoadsFrom manifestPath w')
      w b := by
  refine wp_save (Or.inl trivial) (fun w' hw' => Or.inl ⟨rfl, hw'.loadsFrom hv⟩)
    (fun _ s w' hs hw' => Or.inr ⟨hs, hw'.bytes (tmpPath_ne manifestPath)⟩) fun _ w' hw' => ?_
  rcases hw' with hw' | hw'
  · exact Or.inl (hw'.bytes (tmpPath_ne manifestPath))
  · exact Or.inr (hw'.loadsFrom hv)

/-- A version of one table with empty keys. -/
theorem save_atomic_single :
    wp Env.hostile (save ⟨fun _ => [⟨1, [], [], 0⟩], 2⟩ [])
      (fun s w' _ => s.ok = true ∧ LoadsFrom ⟨fun _ => [⟨1, [], [], 0⟩], 2⟩ [] w' ∨
        s.ok = false ∧ w'.bytes [] = World.bytes ⟨true, ∅⟩ [])
      (fun w' _ => w'.bytes [] = World.bytes ⟨true, ∅⟩ [] ∨
        LoadsFrom ⟨fun _ => [⟨1, [], [], 0⟩], 2⟩ [] w')
      ⟨true, ∅⟩ 0 :=
  save_atomic (fun _ => ⟨by simp, by simp⟩) [] ⟨true, ∅⟩ 0

end Atomicity

end Version

end ClomDB
