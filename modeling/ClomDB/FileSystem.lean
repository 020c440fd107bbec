import ClomDB.Status
import ClomDB.Library.FaultProgram
import Mathlib.Data.List.AList

/-!
# Paths, files and the calls the engine makes

The directory of one database, its files, and the calls of `<cstdio>`,
`<filesystem>` and `<unistd.h>` that the engine uses. A stream keeps the
bytes that have not reached its file yet. A call that fails, or in which the
process dies, may have written any prefix of them.

## Implementation notes

Two path strings that differ only in repeated separators denote one file, so
files are kept under a canonical path. A file remembers how many of its bytes
an `fsync` has made durable. No regular file reaches `2 ^ 63` bytes and no
process holds `2 ^ 31` descriptors: a call that would need that may fail, and
does not succeed.
-/

namespace ClomDB.FileSystem

open FaultProgram

abbrev Path := Bytes

def separator : UInt8 := 0x2f

/-- Repeated separators are merged. -/
def canonical : Path → Path
  | [] => []
  | [a] => [a]
  | a :: b :: rest =>
      if a = separator ∧ b = separator then canonical (b :: rest)
      else a :: canonical (b :: rest)

theorem canonical_cons_cons (a b : UInt8) (rest : Path) : canonical (a :: b :: rest) =
    if a = separator ∧ b = separator then canonical (b :: rest)
    else a :: canonical (b :: rest) := rfl

theorem canonical_append_name (p : Path) {name : Bytes} (hname : separator ∉ name) :
    canonical (p ++ separator :: name) = canonical (p ++ [separator]) ++ name := by
  have hplain : ∀ n : Bytes, separator ∉ n → ∀ a : UInt8, canonical (a :: n) = a :: n := by
    intro n
    induction n with
    | nil => intro _ a; rfl
    | cons b rest ih =>
        intro hn a
        have hb : b ≠ separator := fun h => hn (by simp [h])
        rw [canonical, if_neg (fun h => hb h.2), ih (fun h => hn (List.mem_cons_of_mem _ h))]
  induction p with
  | nil => simp [hplain name hname, canonical]
  | cons a rest ih =>
      cases rest with
      | nil =>
          by_cases ha : a = separator
          · simp [canonical, ha, hplain name hname]
          · simp [canonical, ha, hplain name hname]
      | cons b rest =>
          simp only [List.cons_append] at ih ⊢
          by_cases hab : a = separator ∧ b = separator
          · rw [canonical, if_pos hab, canonical, if_pos hab, ih]
          · rw [canonical, if_neg hab, canonical, if_neg hab, ih, List.cons_append]

/-- Characters other than separators stay behind a path. -/
theorem canonical_append_plain (p : Path) {tail : Bytes} (htail : separator ∉ tail) :
    canonical (p ++ tail) = canonical p ++ tail := by
  induction p with
  | nil =>
      induction tail with
      | nil => rfl
      | cons a tail ih =>
          have ha : a ≠ separator := fun h => htail (by simp [h])
          have hrest : separator ∉ tail := fun h => htail (List.mem_cons_of_mem _ h)
          cases tail with
          | nil => rfl
          | cons b rest =>
              have htl := ih hrest
              rw [List.nil_append] at htl ⊢
              rw [canonical_cons_cons, if_neg fun h => ha h.1, htl]
              rfl
  | cons a rest ih =>
      cases rest with
      | nil =>
          cases tail with
          | nil => rfl
          | cons b tail =>
              have hb : b ≠ separator := fun h => htail (by simp [h])
              rw [List.nil_append] at ih
              rw [List.singleton_append, canonical_cons_cons, if_neg fun h => hb h.2, ih]
              rfl
      | cons b rest =>
          simp only [List.cons_append] at ih ⊢
          by_cases hab : a = separator ∧ b = separator
          · rw [canonical_cons_cons, if_pos hab, canonical_cons_cons, if_pos hab, ih]
          · rw [canonical_cons_cons, if_neg hab, canonical_cons_cons, if_neg hab, ih,
              List.cons_append]

/-- The path string the engine builds for a file of the database. -/
def dbFile (dbPath : Path) (name : Bytes) : Path := dbPath ++ separator :: name

/-- `std::filesystem::path::operator/`. -/
def appendPath (dir : Path) (name : Bytes) : Path :=
  if dir.getLast? = some separator then dir ++ name else dir ++ separator :: name

/-- `std::filesystem::path::extension` of a path whose last component is `name`. -/
def extension (name : Bytes) : Bytes :=
  let dot : UInt8 := 0x2e
  if name = [dot] ∨ name = [dot, dot] then []
  else
    let stem := (name.reverse.dropWhile (· ≠ dot)).reverse
    if stem.length ≤ 1 then [] else dot :: name.drop stem.length

/-- Names without a separator name different files of one directory. -/
theorem canonical_dbFile_inj {d : Path} {a b : Bytes} (ha : separator ∉ a)
    (hb : separator ∉ b) : canonical (dbFile d a) = canonical (dbFile d b) ↔ a = b := by
  rw [dbFile, dbFile, canonical_append_name d ha, canonical_append_name d hb]
  exact List.append_right_inj _

theorem canonical_appendPath (d : Path) {name : Bytes} (h : separator ∉ name) :
    canonical (appendPath d name) = canonical (dbFile d name) := by
  rw [appendPath]
  split
  next hlast =>
    obtain ⟨init, rfl⟩ : ∃ init, d = init ++ [separator] :=
      ⟨d.dropLast, (List.dropLast_append_getLast? separator hlast).symm⟩
    have hdouble : ∀ p : Path,
        canonical (p ++ [separator] ++ [separator]) = canonical (p ++ [separator]) := by
      intro p
      induction p with
      | nil => simp [canonical]
      | cons a rest ih =>
          cases rest with
          | nil =>
              by_cases ha : a = separator <;> simp [canonical, ha]
          | cons b rest =>
              simp only [List.cons_append] at ih ⊢
              by_cases hab : a = separator ∧ b = separator
              · rw [canonical, if_pos hab, canonical, if_pos hab, ih]
              · rw [canonical, if_neg hab, canonical, if_neg hab, ih]
    rw [dbFile, canonical_append_name _ h, hdouble]
    simpa using canonical_append_name init h
  next => rfl

/-- A regular file: its bytes and the length of the durable prefix. -/
structure File where
  data : Bytes
  synced : Nat
  synced_le : synced ≤ data.length
  deriving DecidableEq

namespace File

def empty : File := ⟨[], 0, Nat.le_refl 0⟩

def append (f : File) (x : Bytes) : File :=
  ⟨f.data ++ x, f.synced, Nat.le_trans f.synced_le (by simp)⟩

def sync (f : File) : File := ⟨f.data, f.data.length, Nat.le_refl _⟩

@[simp] theorem empty_data : empty.data = [] := rfl

@[simp] theorem append_data (f : File) (x : Bytes) : (f.append x).data = f.data ++ x := rfl

@[simp] theorem append_synced (f : File) (x : Bytes) : (f.append x).synced = f.synced := rfl

@[simp] theorem sync_data (f : File) : f.sync.data = f.data := rfl

@[simp] theorem sync_synced (f : File) : f.sync.synced = f.data.length := rfl

end File

/-- The database directory as the process sees it. -/
structure World where
  directory : Bool
  files : AList (fun _ : Path => File)
  deriving DecidableEq

namespace World

def file (w : World) (p : Path) : Option File := w.files.lookup (canonical p)

def put (w : World) (p : Path) (f : File) : World :=
  { w with files := w.files.insert (canonical p) f }

def delete (w : World) (p : Path) : World :=
  { w with files := w.files.erase (canonical p) }

/-- The bytes at a path. -/
def bytes (w : World) (p : Path) : Option Bytes := (w.file p).map File.data

/-- More bytes at the end of a file. -/
def append (w : World) (p : Path) (data : Bytes) : World :=
  match w.file p with
  | none => w
  | some f => w.put p (f.append data)

/-- The file moves to another path and replaces what is there. -/
def move (w : World) (p q : Path) : World :=
  match w.file p with
  | none => w
  | some f => (w.delete p).put q f

/-- All bytes of a file become durable. -/
def sync (w : World) (p : Path) : World :=
  match w.file p with
  | none => w
  | some f => w.put p f.sync

/-- The file names below a directory, in the order of the directory. -/
def entries (w : World) (dir : Path) : List Bytes :=
  w.files.keys.filterMap fun k =>
    let stem := canonical (dir ++ [separator])
    let name := k.drop stem.length
    if stem <+: k ∧ name ≠ [] ∧ separator ∉ name then some name else none

theorem file_put (w : World) (p q : Path) (f : File) :
    (w.put p f).file q = if canonical q = canonical p then some f else w.file q := by
  by_cases h : canonical q = canonical p
  · rw [if_pos h, file, put, h]
    exact AList.lookup_insert _
  · rw [if_neg h, file, put]
    exact AList.lookup_insert_ne h

theorem file_delete (w : World) (p q : Path) :
    (w.delete p).file q = if canonical q = canonical p then none else w.file q := by
  by_cases h : canonical q = canonical p
  · rw [if_pos h, file, delete, h]
    exact AList.lookup_erase _ _
  · rw [if_neg h, file, delete]
    exact AList.lookup_erase_ne h

@[simp] theorem file_put_same (w : World) (p : Path) (f : File) :
    (w.put p f).file p = some f := by
  rw [file_put, if_pos rfl]

theorem file_put_of_ne {w : World} {p q : Path} {f : File}
    (h : canonical q ≠ canonical p) : (w.put p f).file q = w.file q := by
  rw [file_put, if_neg h]

@[simp] theorem file_delete_same (w : World) (p : Path) : (w.delete p).file p = none := by
  rw [file_delete, if_pos rfl]

theorem file_delete_of_ne {w : World} {p q : Path} (h : canonical q ≠ canonical p) :
    (w.delete p).file q = w.file q := by
  rw [file_delete, if_neg h]

/-- The entries of a directory are the names of the files in it. -/
theorem mem_entries_iff {w : World} {dir : Path} {name : Bytes} : name ∈ w.entries dir ↔
    name ≠ [] ∧ separator ∉ name ∧ w.file (dbFile dir name) ≠ none := by
  have hkey : ∀ {n : Bytes}, separator ∉ n →
      canonical (dbFile dir n) = canonical (dir ++ [separator]) ++ n := fun hn =>
    canonical_append_name dir hn
  have hfile : ∀ p, w.file p ≠ none ↔ canonical p ∈ w.files.keys := fun p => by
    rw [file, ne_eq, AList.lookup_eq_none, not_not, AList.mem_keys]
  rw [entries, List.mem_filterMap, hfile]
  constructor
  · rintro ⟨k, hk, hname⟩
    simp only [Option.ite_none_right_eq_some, Option.some.injEq] at hname
    obtain ⟨⟨⟨n, rfl⟩, hne, hsep⟩, rfl⟩ := hname
    rw [List.drop_left] at hne hsep ⊢
    exact ⟨hne, hsep, by rwa [hkey hsep]⟩
  · rintro ⟨hne, hsep, hk⟩
    rw [hkey hsep] at hk
    refine ⟨_, hk, ?_⟩
    simp only [List.drop_left, List.prefix_append, true_and, if_pos (And.intro hne hsep)]

@[simp] theorem put_directory (w : World) (p : Path) (f : File) :
    (w.put p f).directory = w.directory := rfl

@[simp] theorem delete_directory (w : World) (p : Path) :
    (w.delete p).directory = w.directory := rfl

/-- Nothing changes but the file at one path. -/
structure OnlyAt (p : Path) (w w' : World) : Prop where
  directory : w'.directory = w.directory
  file : ∀ q, canonical q ≠ canonical p → w'.file q = w.file q

namespace OnlyAt

variable {p : Path} {w w' w'' : World}

theorem refl (p : Path) (w : World) : OnlyAt p w w := ⟨rfl, fun _ _ => rfl⟩

theorem trans (h : OnlyAt p w w') (h' : OnlyAt p w' w'') : OnlyAt p w w'' :=
  ⟨h'.directory.trans h.directory, fun q hq => (h'.file q hq).trans (h.file q hq)⟩

theorem bytes (h : OnlyAt p w w') {q : Path} (hq : canonical q ≠ canonical p) :
    w'.bytes q = w.bytes q := by
  rw [World.bytes, World.bytes, h.file q hq]

end OnlyAt

theorem put_onlyAt (w : World) (p : Path) (f : File) : OnlyAt p w (w.put p f) :=
  ⟨rfl, fun _ hq => file_put_of_ne hq⟩

theorem delete_onlyAt (w : World) (p : Path) : OnlyAt p w (w.delete p) :=
  ⟨rfl, fun _ hq => file_delete_of_ne hq⟩

theorem append_onlyAt (w : World) (p : Path) (data : Bytes) :
    OnlyAt p w (w.append p data) := by
  rw [append]
  cases w.file p with
  | none => exact OnlyAt.refl p w
  | some f => exact put_onlyAt w p _

theorem sync_onlyAt (w : World) (p : Path) : OnlyAt p w (w.sync p) := by
  rw [sync]
  cases w.file p with
  | none => exact OnlyAt.refl p w
  | some f => exact put_onlyAt w p _

@[simp] theorem bytes_put_same (w : World) (p : Path) (f : File) :
    (w.put p f).bytes p = some f.data := by
  simp [bytes]

@[simp] theorem bytes_delete_same (w : World) (p : Path) : (w.delete p).bytes p = none := by
  simp [bytes]

theorem bytes_append_same (w : World) (p : Path) (data : Bytes) :
    (w.append p data).bytes p = (w.bytes p).map (· ++ data) := by
  rw [append]
  cases h : w.file p with
  | none => simp [bytes, h]
  | some f => simp [bytes, h]

@[simp] theorem bytes_sync (w : World) (p q : Path) : (w.sync p).bytes q = w.bytes q := by
  rw [sync]
  cases h : w.file p with
  | none => rfl
  | some f =>
      simp only [bytes, file_put]
      split
      next hq => rw [file, hq, ← file, h]; rfl
      next => rfl

theorem bytes_move {w : World} {p q : Path} {data : Bytes} (h : w.bytes p = some data) :
    (w.move p q).bytes q = some data := by
  obtain ⟨f, hf, rfl⟩ := Option.map_eq_some_iff.mp h
  simp [move, hf, bytes]

theorem file_move_of_ne {w : World} {p q r : Path} (hp : canonical r ≠ canonical p)
    (hq : canonical r ≠ canonical q) : (w.move p q).file r = w.file r := by
  rw [move]
  cases w.file p with
  | none => rfl
  | some f => simp only [file_put_of_ne hq, file_delete_of_ne hp]

/-- The file at one path gains bytes at its end and loses no durable byte. -/
structure Grew (p : Path) (x : Bytes) (w w' : World) : Prop where
  only : OnlyAt p w w'
  some : ∀ f, w.file p = some f →
    ∃ f', w'.file p = some f' ∧ f'.data = f.data ++ x ∧ f.synced ≤ f'.synced
  none : w.file p = none → w'.file p = none

namespace Grew

variable {p : Path} {x y : Bytes} {w w' w'' : World}

theorem refl (p : Path) (w : World) : Grew p [] w w :=
  ⟨OnlyAt.refl p w, fun f hf => ⟨f, hf, by simp, Nat.le_refl _⟩, id⟩

theorem trans (h : Grew p x w w') (h' : Grew p y w' w'') : Grew p (x ++ y) w w'' := by
  refine ⟨h.only.trans h'.only, fun f hf => ?_, fun hn => h'.none (h.none hn)⟩
  obtain ⟨f', hf', hd, hs⟩ := h.some f hf
  obtain ⟨f'', hf'', hd', hs'⟩ := h'.some f' hf'
  exact ⟨f'', hf'', by rw [hd', hd, List.append_assoc], Nat.le_trans hs hs'⟩

theorem bytes (h : Grew p x w w') : w'.bytes p = (w.bytes p).map (· ++ x) := by
  cases hf : w.file p with
  | none => simp [World.bytes, hf, h.none hf]
  | some f =>
      obtain ⟨f', hf', hd, -⟩ := h.some f hf
      simp [World.bytes, hf, hf', hd]

end Grew

theorem append_grew (w : World) (p : Path) (x : Bytes) : Grew p x w (w.append p x) := by
  refine ⟨append_onlyAt w p x, fun f hf => ⟨f.append x, ?_, rfl, Nat.le_refl _⟩, fun hn => ?_⟩
  · simp [append, hf]
  · simp [append, hn]

/-- All bytes of the file are durable. -/
def Durable (w : World) (p : Path) : Prop :=
  ∀ f, w.file p = some f → f.synced = f.data.length

theorem durable_sync (w : World) (p : Path) : (w.sync p).Durable p := by
  intro f hf
  rw [sync] at hf
  cases h : w.file p with
  | none => rw [h] at hf; simp [h] at hf
  | some g =>
      rw [h] at hf
      simp only [file_put_same, Option.some.injEq] at hf
      rw [← hf]
      rfl

theorem sync_grew (w : World) (p : Path) : Grew p [] w (w.sync p) := by
  refine ⟨sync_onlyAt w p, fun f hf => ⟨f.sync, ?_, by simp, f.synced_le⟩, fun hn => ?_⟩
  · simp [sync, hf]
  · simp [sync, hn]

@[simp] theorem move_directory (w : World) (p q : Path) :
    (w.move p q).directory = w.directory := by
  rw [move]
  cases w.file p <;> rfl

end World

/-- Largest number of descriptors of a process and largest size of a file. -/
def maxOpenFiles : Nat := 2 ^ 31 - 1
def maxFileBytes : Nat := 2 ^ 63 - 1

/-- `ENOENT`. -/
def noEntry : Nat := 2

/-- The error number of a failing call on a path that exists: any but `ENOENT`. -/
def otherErrno (n : Nat) : Nat := if n = noEntry then noEntry + 1 else n

theorem otherErrno_ne (n : Nat) : otherErrno n ≠ noEntry := by
  rw [otherErrno]
  split <;> omega

/-- A stream open for writing at the end of its file, and what it buffers. -/
structure Stream where
  path : Path
  pending : Bytes
  deriving DecidableEq

/-- `fopen(path, "rb")`: the bytes to read, or the error number. -/
def fopenRead (path : Path) : Prog World (Except Nat Bytes) :=
  Prog.probe
    (fun w => match w.bytes path with | some data => .ok data | none => .error noEntry)
    (fun errno => .error (otherErrno errno))

/-- `fopen(path, "wb")`. -/
def fopenWrite (path : Path) : Prog World (Except Nat Stream) :=
  Prog.call (fun w => (.ok ⟨path, []⟩, w.put path .empty))
    (fun errno w => (.error (otherErrno errno), w))
    (fun n w => if n = 0 then w else w.put path .empty)

/-- `fopen(path, "ab")`. -/
def fopenAppend (path : Path) : Prog World (Except Nat Stream) :=
  let created (w : World) : World :=
    match w.file path with | some _ => w | none => w.put path .empty
  Prog.call (fun w => (.ok ⟨path, []⟩, created w))
    (fun errno w => (.error (otherErrno errno), w))
    (fun n w => if n = 0 then w else created w)

/-- `fopen(path, "rb")` of a stream that stays open, in a process that holds
`held` descriptors already. -/
def fopenHeld (held : Nat) (path : Path) : Prog World (Except Nat Bytes) :=
  Prog.probeIf (held < maxOpenFiles)
    (fun w => match w.bytes path with | some data => .ok data | none => .error noEntry)
    (fun errno => .error (otherErrno errno))

/-- `fread` of `n` bytes at a position. A failing read is a short one. -/
def fread (content : Bytes) (pos n : Nat) : Prog World Bytes :=
  Prog.probe (fun _ => (content.drop pos).take n)
    (fun m => (content.drop pos).take (min m (n - 1)))

/-- `fseek` from the start of a file. -/
def fseek (pos : Int) : Prog World Bool :=
  Prog.probe (fun _ => decide (0 ≤ pos)) (fun _ => false)

/-- `fwrite`, and whether it wrote everything. -/
def fwrite (f : Stream) (data : Bytes) : Prog World (Bool × Stream) :=
  Prog.callIf
    (fun w => ((w.bytes f.path).getD []).length + (f.pending ++ data).length ≤ maxFileBytes)
    (fun w => ((true, { f with pending := f.pending ++ data }), w))
    (fun n w => ((false, { f with pending := [] }),
      w.append f.path ((f.pending ++ data).take n)))
    (fun n w => w.append f.path ((f.pending ++ data).take n))

/-- `fflush`. -/
def fflush (f : Stream) : Prog World (Bool × Stream) :=
  Prog.call (fun w => ((true, { f with pending := [] }), w.append f.path f.pending))
    (fun n w => ((false, { f with pending := [] }), w.append f.path (f.pending.take n)))
    (fun n w => w.append f.path (f.pending.take n))

/-- `fsync` of the file below a stream. -/
def fsync (f : Stream) : Prog World Bool :=
  Prog.call (fun w => (true, w.sync f.path)) (fun _ w => (false, w))
    (fun n w => if n = 0 then w else w.sync f.path)

/-- `fclose`: the stream is gone also when it fails. -/
def fclose (f : Stream) : Prog World Bool :=
  Prog.call (fun w => (true, w.append f.path f.pending))
    (fun n w => (false, w.append f.path (f.pending.take n)))
    (fun n w => w.append f.path (f.pending.take n))

/-- `std::remove` and `std::filesystem::remove`. -/
def remove (path : Path) : Prog World Unit :=
  Prog.call (fun w => ((), w.delete path)) (fun _ w => ((), w))
    (fun n w => if n = 0 then w else w.delete path)

/-- `std::rename`, atomic and without effect when it fails. -/
def rename (old new : Path) : Prog World (Except Nat Unit) :=
  Prog.call
    (fun w => match w.file old with
      | some _ => (.ok (), w.move old new)
      | none => (.error noEntry, w))
    (fun errno w => (.error errno, w))
    (fun n w => if n = 0 then w else w.move old new)

/-- `std::filesystem::file_size`, all ones when it fails. -/
def fileSize (path : Path) : Prog World UInt64 :=
  Prog.probe (fun w => match w.bytes path with
    | some data => UInt64.ofNat data.length
    | none => UInt64.ofNat (2 ^ 64 - 1)) (fun _ => UInt64.ofNat (2 ^ 64 - 1))

/-- `std::filesystem::exists` of the database directory. -/
def directoryExists : Prog World Bool :=
  Prog.probe (fun w => w.directory) (fun _ => false)

/-- `std::filesystem::create_directories`: the error number, if any. -/
def createDirectories : Prog World (Option Nat) :=
  Prog.call (fun w => (none, { w with directory := true }))
    (fun errno w => (some errno, w))
    (fun n w => if n = 0 then w else { w with directory := true })

/-- The names a `directory_iterator` visits. -/
def directoryIterator (dir : Path) : Prog World (List Bytes) :=
  Prog.probe (fun w => w.entries dir) (fun _ => [])

section Rules

variable {E : Env} {C : World → Nat → Prop} {w : World} {b : Nat} {path : Path}

theorem observes_fopenRead {data : Bytes} (h : w.bytes path = some data) :
    Observes E (fopenRead path)
      (fun r => r = .ok data ∨ E.fails ∧ ∃ n, n ≠ noEntry ∧ r = .error n) w :=
  Observes.probe (Or.inl (by rw [h])) fun hf n => Or.inr ⟨hf, _, otherErrno_ne n, rfl⟩

theorem observes_fopenRead_missing (h : w.bytes path = none) :
    Observes E (fopenRead path)
      (fun r => r = .error noEntry ∨ E.fails ∧ ∃ n, n ≠ noEntry ∧ r = .error n) w :=
  Observes.probe (Or.inl (by rw [h])) fun hf n => Or.inr ⟨hf, _, otherErrno_ne n, rfl⟩

theorem observes_fopenHeld {held : Nat} {data : Bytes} (h : w.bytes path = some data)
    (hheld : E.excludes ∨ held < maxOpenFiles) :
    Observes E (fopenHeld held path) (fun r => held < maxOpenFiles ∧ r = .ok data ∨
      E.fails ∧ ∃ n, n ≠ noEntry ∧ r = .error n) w :=
  Observes.probeIf hheld (fun hp => Or.inl ⟨hp, by rw [h]⟩)
    fun hf n => Or.inr ⟨hf, _, otherErrno_ne n, rfl⟩

theorem observes_fread_take (content : Bytes) (pos n : Nat) :
    Observes E (fread content pos n)
      (fun got => got = (content.drop pos).take n ∨ E.fails ∧ got.length < n) w := by
  refine Observes.probe (Or.inl rfl) fun hf m => ?_
  rcases Nat.eq_zero_or_pos n with rfl | hpos
  · exact Or.inl (by simp)
  · refine Or.inr ⟨hf, ?_⟩
    rw [List.length_take]
    omega

/-- A read of bytes that are there gets them, or fails and is short. -/
theorem reads_fread_take (content : Bytes) {pos n : Nat} (hpos : 0 < n) :
    Reads (fread content pos n) (· = (content.drop pos).take n) (fun got => got.length < n) w :=
  Reads.probe rfl fun m => by
    rw [List.length_take]
    omega

theorem reads_fread {content x rest : Bytes} {pos n : Nat}
    (h : content.drop pos = x ++ rest) (hn : x.length = n) (hpos : 0 < n) :
    Reads (fread content pos n) (· = x) (fun got => got.length < n) w := by
  have hx : (content.drop pos).take n = x := by rw [h, ← hn, List.take_left]
  rw [← hx]
  exact reads_fread_take content hpos

theorem reads_fseek {pos : Int} (h : 0 ≤ pos) :
    Reads (fseek pos) (· = true) (· = false) w :=
  Reads.probe (by simp [h]) fun _ => rfl

/-- A read of bytes that are there gets them, or is short. -/
theorem observes_fread {content x rest : Bytes} {pos n : Nat}
    (h : content.drop pos = x ++ rest) (hn : x.length = n) :
    Observes E (fread content pos n) (fun got => got = x ∨ E.fails ∧ got.length < n) w := by
  have hx : (content.drop pos).take n = x := by rw [h, ← hn, List.take_left]
  rw [← hx]
  exact observes_fread_take content pos n

theorem observes_fseek {pos : Int} (h : 0 ≤ pos) :
    Observes E (fseek pos) (fun r => r = true ∨ E.fails ∧ r = false) w :=
  (reads_fseek h).observes

theorem wp_fopenWrite {Q : Except Nat Stream → World → Nat → Prop}
    (hok : Q (.ok ⟨path, []⟩) (w.put path .empty) b)
    (hfail : E.fails → ∀ n, n ≠ noEntry → Q (.error n) w b)
    (hcrash : E.crashes → C w b ∧ C (w.put path .empty) b) : wp E (fopenWrite path) Q C w b := by
  refine wp_call hok (fun hf n => hfail hf _ (otherErrno_ne n)) fun hc n => ?_
  by_cases hn : n = 0
  · rw [if_pos hn]; exact (hcrash hc).1
  · rw [if_neg hn]; exact (hcrash hc).2

theorem wp_fopenAppend {Q : Except Nat Stream → World → Nat → Prop} {data : Bytes}
    (h : w.bytes path = some data) (hok : Q (.ok ⟨path, []⟩) w b)
    (hfail : E.fails → ∀ n, n ≠ noEntry → Q (.error n) w b) (hcrash : E.crashes → C w b) :
    wp E (fopenAppend path) Q C w b := by
  obtain ⟨f, hf, -⟩ := Option.map_eq_some_iff.mp h
  refine wp_call ?_ (fun hf n => hfail hf _ (otherErrno_ne n)) fun hc n => ?_
  · simpa only [hf] using hok
  · simpa only [hf, ite_self] using hcrash hc

theorem wp_fopenAppend_missing {Q : Except Nat Stream → World → Nat → Prop}
    (h : w.bytes path = none) (hok : Q (.ok ⟨path, []⟩) (w.put path .empty) b)
    (hfail : E.fails → ∀ n, n ≠ noEntry → Q (.error n) w b)
    (hcrash : E.crashes → C w b ∧ C (w.put path .empty) b) : wp E (fopenAppend path) Q C w b := by
  have hf : w.file path = none := by simpa [World.bytes] using h
  refine wp_call ?_ (fun hf n => hfail hf _ (otherErrno_ne n)) fun hc n => ?_
  · simpa only [hf] using hok
  · simp only [hf]
    by_cases hn : n = 0
    · rw [if_pos hn]; exact (hcrash hc).1
    · rw [if_neg hn]; exact (hcrash hc).2

/-- A write or a flush that does not succeed leaves a prefix of the bytes that
were on their way. -/
theorem wp_fwrite {Q : Bool × Stream → World → Nat → Prop} {pending data x : Bytes}
    (hx : pending ++ data = x)
    (hfit : E.excludes ∨ ((w.bytes path).getD []).length + x.length ≤ maxFileBytes)
    (hok : ((w.bytes path).getD []).length + x.length ≤ maxFileBytes →
      Q (true, ⟨path, x⟩) w b)
    (hfail : E.fails → ∀ n, Q (false, ⟨path, []⟩) (w.append path (x.take n)) b)
    (hcrash : E.crashes → ∀ n, C (w.append path (x.take n)) b) :
    wp E (fwrite ⟨path, pending⟩ data) Q C w b := by
  subst hx
  exact wp_callIf hfit hok hfail hcrash

theorem wp_fflush {Q : Bool × Stream → World → Nat → Prop} {pending : Bytes}
    (hok : Q (true, ⟨path, []⟩) (w.append path pending) b)
    (hfail : E.fails → ∀ n, Q (false, ⟨path, []⟩) (w.append path (pending.take n)) b)
    (hcrash : E.crashes → ∀ n, C (w.append path (pending.take n)) b) :
    wp E (fflush ⟨path, pending⟩) Q C w b :=
  wp_call hok hfail hcrash

theorem wp_fclose {Q : Bool → World → Nat → Prop} {pending : Bytes}
    (hok : Q true (w.append path pending) b)
    (hfail : E.fails → ∀ n, Q false (w.append path (pending.take n)) b)
    (hcrash : E.crashes → ∀ n, C (w.append path (pending.take n)) b) :
    wp E (fclose ⟨path, pending⟩) Q C w b :=
  wp_call hok hfail hcrash

theorem wp_fsync {Q : Bool → World → Nat → Prop} {pending : Bytes}
    (hok : Q true (w.sync path) b) (hfail : E.fails → Q false w b)
    (hcrash : E.crashes → C w b ∧ C (w.sync path) b) : wp E (fsync ⟨path, pending⟩) Q C w b := by
  refine wp_call hok (fun hf _ => hfail hf) fun hc n => ?_
  by_cases hn : n = 0
  · rw [if_pos hn]; exact (hcrash hc).1
  · rw [if_neg hn]; exact (hcrash hc).2

theorem wp_remove {Q : Unit → World → Nat → Prop} (hok : Q () (w.delete path) b)
    (hfail : E.fails → Q () w b) (hcrash : E.crashes → C w b ∧ C (w.delete path) b) :
    wp E (remove path) Q C w b := by
  refine wp_call hok (fun hf _ => hfail hf) fun hc n => ?_
  by_cases hn : n = 0
  · rw [if_pos hn]; exact (hcrash hc).1
  · rw [if_neg hn]; exact (hcrash hc).2

theorem wp_rename {Q : Except Nat Unit → World → Nat → Prop} {new : Path} {data : Bytes}
    (h : w.bytes path = some data) (hok : Q (.ok ()) (w.move path new) b)
    (hfail : E.fails → ∀ n, Q (.error n) w b) (hcrash : E.crashes → C w b ∧ C (w.move path new) b) :
    wp E (rename path new) Q C w b := by
  obtain ⟨f, hf, -⟩ := Option.map_eq_some_iff.mp h
  refine wp_call (by simpa only [hf] using hok) hfail fun hc n => ?_
  by_cases hn : n = 0
  · rw [if_pos hn]; exact (hcrash hc).1
  · rw [if_neg hn]; exact (hcrash hc).2

/-- A failing write leaves a prefix. -/
theorem fwrite_fail (data : Bytes) (n : Nat) (rest : List Fault) :
    fwrite ⟨path, []⟩ data w (.fail n :: rest) =
      .returned (false, ⟨path, []⟩) (w.append path (data.take n)) rest 0 := rfl

theorem fwrite_crash (data : Bytes) (n : Nat) (rest : List Fault) :
    fwrite ⟨path, []⟩ data w (.crash n :: rest) = .crashed (w.append path (data.take n)) 0 := rfl

theorem fwrite_ok {data : Bytes}
    (hfit : ((w.bytes path).getD []).length + data.length ≤ maxFileBytes) :
    fwrite ⟨path, []⟩ data w [] = .returned (true, ⟨path, data⟩) w [] 0 :=
  if_pos hfit

theorem fflush_ok (pending : Bytes) : fflush ⟨path, pending⟩ w [] =
    .returned (true, ⟨path, []⟩) (w.append path pending) [] 0 := rfl

end Rules

end ClomDB.FileSystem
