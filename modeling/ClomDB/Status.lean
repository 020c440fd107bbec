import Mathlib.Algebra.Group.Int.Defs
import Mathlib.Algebra.Group.Nat.Defs
import Mathlib.Data.List.Basic
import Mathlib.Data.UInt

/-!
# Byte strings, statuses and options

The plain data of `slice.h`, `status.h` and `options.h`. A `std::string` and a
`Slice` are lists of bytes, and paths are byte strings too.

## Implementation notes

Slices compare bytewise and a proper prefix is smaller, which is the order of
`std::string` and the lexicographic order of lists. In an error text the
description of an error number is a hole, because its words are the platform's.
-/

namespace ClomDB

abbrev Bytes := List UInt8

/-- The bytes of an ASCII text given by its characters. -/
def ascii (cs : List Char) : Bytes := cs.map fun c => UInt8.ofNat c.toNat

/-- `Slice::compare`: the common prefix decides, then the length. -/
def Slice.compare (a b : Bytes) : Ordering := Ord.compare a b

/-- `operator<` on slices. -/
def Slice.less (a b : Bytes) : Bool := Slice.compare a b == .lt

/-- One piece of an error text. -/
inductive Text where
  | lit (s : String)
  | bytes (b : Bytes)
  | strerror
  deriving DecidableEq, Repr

inductive Code where
  | kOk
  | kNotFound
  | kCorruption
  | kIOError
  | kInvalidArgument
  | kNotSupported
  | kAlreadyExists
  deriving DecidableEq, Repr

/-- The table `names` of `Status::ToString`. -/
def Code.name : Code → String
  | .kOk => "OK"
  | .kNotFound => "NotFound"
  | .kCorruption => "Corruption"
  | .kIOError => "IOError"
  | .kInvalidArgument => "InvalidArgument"
  | .kNotSupported => "NotSupported"
  | .kAlreadyExists => "AlreadyExists"

structure Status where
  code : Code
  msg : List Text
  deriving DecidableEq, Repr

namespace Status

def OK : Status := ⟨.kOk, []⟩
def notFound (msg : List Text) : Status := ⟨.kNotFound, msg⟩
def corruption (msg : List Text) : Status := ⟨.kCorruption, msg⟩
def ioError (msg : List Text) : Status := ⟨.kIOError, msg⟩
def invalidArgument (msg : List Text) : Status := ⟨.kInvalidArgument, msg⟩
def alreadyExists (msg : List Text) : Status := ⟨.kAlreadyExists, msg⟩

def ok (s : Status) : Bool := s.code == .kOk
def isNotFound (s : Status) : Bool := s.code == .kNotFound

def toString (s : Status) : List Text :=
  if s.ok then [.lit "OK"] else .lit s.code.name :: .lit ": " :: s.msg

/-- An error whose text begins with the path of a file. -/
def About (s : Status) (path : Bytes) : Prop := s.ok = false ∧ s.msg.head? = some (.bytes path)

@[simp] theorem ok_OK : OK.ok = true := rfl
@[simp] theorem isNotFound_OK : OK.isNotFound = false := rfl
@[simp] theorem ok_notFound (m : List Text) : (notFound m).ok = false := rfl
@[simp] theorem isNotFound_notFound (m : List Text) : (notFound m).isNotFound = true := rfl
@[simp] theorem ok_corruption (m : List Text) : (corruption m).ok = false := rfl
@[simp] theorem isNotFound_corruption (m : List Text) :
    (corruption m).isNotFound = false := rfl
@[simp] theorem ok_ioError (m : List Text) : (ioError m).ok = false := rfl
@[simp] theorem isNotFound_ioError (m : List Text) : (ioError m).isNotFound = false := rfl
@[simp] theorem ok_invalidArgument (m : List Text) : (invalidArgument m).ok = false := rfl
@[simp] theorem ok_alreadyExists (m : List Text) : (alreadyExists m).ok = false := rfl

end Status

/-- `Options`: the members and their defaults. A `size_t` is 64 bits wide and an
`int` is read as its value. -/
structure Options where
  createIfMissing : Bool := true
  errorIfExists : Bool := false
  memtableFlushBytes : UInt64 := 4 * 1024 * 1024
  l0CompactionTrigger : Int := 4
  levelSizeMultiplier : Int := 10
  level1TargetBytes : UInt64 := 16 * 1024 * 1024
  bloomBitsPerKey : Int := 10
  syncWrites : Bool := false
  backgroundCompaction : Bool := true
  deriving DecidableEq, Repr

structure WriteOptions where
  sync : Bool := false
  deriving DecidableEq, Repr

end ClomDB
