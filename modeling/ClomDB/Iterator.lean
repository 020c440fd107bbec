import ClomDB.Status
import Std.Data.ExtTreeMap

/-!
# The snapshot iterator

`iterator.h`: a materialised map and a position in it.

## Implementation notes

A position is the list of the bindings from there on, so the end of the map is
the empty list and a seek drops the bindings below its target.
-/

namespace ClomDB

open Std

structure Iterator where
  snapshot : ExtTreeMap Bytes Bytes
  it : List (Bytes × Bytes)

namespace Iterator

/-- The constructor: the position is the first binding. -/
def ofSnapshot (snapshot : ExtTreeMap Bytes Bytes) : Iterator := ⟨snapshot, snapshot.toList⟩

def seekToFirst (i : Iterator) : Iterator := { i with it := i.snapshot.toList }

/-- `Seek`: `lower_bound` of the target. -/
def seek (i : Iterator) (target : Bytes) : Iterator :=
  { i with it := i.snapshot.toList.dropWhile fun p => Slice.less p.1 target }

def valid (i : Iterator) : Bool := !i.it.isEmpty

def next (i : Iterator) : Iterator := { i with it := i.it.tail }

/-- `key()` and `value()`, for a valid iterator. -/
def current (i : Iterator) : Option (Bytes × Bytes) := i.it.head?

/-- `status()`, which is the same for every iterator. -/
def status (_ : Iterator) : Status := .OK

/-- The bindings seen by calling `Next` until the iterator is not valid. -/
def drain : Nat → Iterator → List (Bytes × Bytes)
  | 0, _ => []
  | fuel + 1, i =>
      match i.current with
      | none => []
      | some p => p :: drain fuel i.next

end Iterator

end ClomDB
