import ClomDB.Coding
import ClomDB.FileSystem
import ClomDB.BloomFilter
import ClomDB.Library.KeyedRun

/-!
# SSTable files

`sstable_format.h` and `sstable.cpp`: the writer of one immutable table, and
the reader that loads its index and filter once and decodes entries on demand.

## Implementation notes

`EntryType` is an enumeration with a fixed underlying type, so a decoded entry
can carry any byte. A reader reads through its path: table files are never
renamed, and no path of an open reader is created again. Of the streams that
are closed on an error path nothing is left to flush, so those calls are left
out. A string cannot be longer than the largest signed 64-bit number; asking
for more ends the process by an exception.
-/

namespace ClomDB.SSTable

open FaultProgram FileSystem Coding

/-- `enum class EntryType : uint8_t`. -/
structure EntryType where
  byte : UInt8
  deriving DecidableEq, Repr

def EntryType.kPut : EntryType := ⟨1⟩
def EntryType.kDelete : EntryType := ⟨2⟩

structure SSTableEntry where
  key : Bytes
  type : EntryType
  value : Bytes
  deriving DecidableEq, Repr

def kSSTableMagic : UInt64 := 0x436c6f6d44420001
def kSSTableFooterSize : Nat := 5 * 8
def maxStringBytes : Nat := 2 ^ 63 - 1

def encodeEntry (e : SSTableEntry) : Bytes :=
  e.type.byte :: (putVarint32 (UInt32.ofNat e.key.length) ++ e.key ++
    if e.type = .kPut then putVarint32 (UInt32.ofNat e.value.length) ++ e.value else [])

/-- The data section and the offset of each entry, from a running offset. -/
def layout : UInt64 → List SSTableEntry → Bytes × List (Bytes × UInt64)
  | _, [] => ([], [])
  | offset, e :: es =>
      let enc := encodeEntry e
      let r := layout (offset + UInt64.ofNat enc.length) es
      (enc ++ r.1, (e.key, offset) :: r.2)

/-- One entry of the index section. -/
def encodeIndexEntry (p : Bytes × UInt64) : Bytes :=
  putVarint32 (UInt32.ofNat p.1.length) ++ p.1 ++ putFixed64 p.2

def encodeIndex (offsets : List (Bytes × UInt64)) : Bytes := offsets.flatMap encodeIndexEntry

def encodeFooter (indexOffset indexSize filterOffset filterSize : UInt64) : Bytes :=
  putFixed64 indexOffset ++ putFixed64 indexSize ++ putFixed64 filterOffset ++
    putFixed64 filterSize ++ putFixed64 kSSTableMagic

/-- `SSTableWriter::Write`. -/
def SSTableWriter.write (path : Path) (entries : List SSTableEntry) (bloomBitsPerKey : Int) :
    Prog World Status := do
  if entries = [] then
    return .invalidArgument [.lit "refusing to write an empty SSTable"]
  else
    match ← fopenWrite path with
    | .error _ => return .ioError [.bytes path, .lit ": ", .strerror]
    | .ok f =>
      let (data, offsets) := layout 0 entries
      let (ok, f) ← fwrite f data
      if !ok then
        return .ioError [.bytes path, .lit ": short write (data)"]
      else
        let index := encodeIndex offsets
        let indexOffset := UInt64.ofNat data.length
        let (ok, f) ← fwrite f index
        if !ok then
          return .ioError [.bytes path, .lit ": short write (index)"]
        else
          match BloomFilter.build (entries.map (·.key)) bloomBitsPerKey with
          | none => Prog.abort
          | some filter =>
            let filterOffset := indexOffset + UInt64.ofNat index.length
            let (ok, f) ← fwrite f filter
            if !ok then
              return .ioError [.bytes path, .lit ": short write (filter)"]
            else
              let footer := encodeFooter indexOffset (UInt64.ofNat index.length)
                filterOffset (UInt64.ofNat filter.length)
              let (ok, f) ← fwrite f footer
              if !ok then
                return .ioError [.bytes path, .lit ": short write (footer)"]
              else
                let (ok, _) ← fflush f
                if !ok then
                  return .ioError [.bytes path, .lit ": fflush failed"]
                else
                  return .OK

structure IndexEntry where
  key : Bytes
  offset : UInt64
  deriving DecidableEq, Repr

structure SSTableReader where
  path : Path
  index : List IndexEntry
  filter : Bytes
  minKey : Bytes
  maxKey : Bytes
  fileSize : Nat
  deriving DecidableEq, Repr

/-- `static_cast<long>`. -/
def toLong (v : UInt64) : Int :=
  if v.toNat < 2 ^ 63 then v.toNat else v.toNat - 2 ^ 64

/-- The index loop of `SSTableReader::Open`. Every round consumes input, so the
length of the input is fuel enough. -/
def parseIndex : Nat → Bytes → Option (List IndexEntry)
  | _, [] => some []
  | 0, _ :: _ => none
  | fuel + 1, b :: bs =>
      let input := b :: bs
      match getVarint32Ptr input with
      | none => none
      | some (klen, p) =>
          if input.length < (input.length - p.length) + klen.toNat + 8 then none
          else
            let entry := ⟨p.take klen.toNat, decodeFixed64 (p.drop klen.toNat)⟩
            (parseIndex fuel (p.drop (klen.toNat + 8))).map (entry :: ·)

/-- The index and filter reads of `SSTableReader::Open`: a string of the stated
size is filled from the stated offset. -/
def readBlock (content : Bytes) (offset size : UInt64) : Prog World (Option Bytes) := do
  if maxStringBytes < size.toNat then
    Prog.abort
  else if size = 0 then
    return some []
  else
    let sought ← fseek (toLong offset)
    if !sought then
      return none
    else
      let block ← fread content offset.toNat size.toNat
      if block.length ≠ size.toNat then return none else return some block

/-- `SSTableReader::Open`; `held` counts the descriptors the process already
holds. -/
def SSTableReader.open (held : Nat) (path : Path) :
    Prog World (Except Status SSTableReader) := do
  match ← fopenHeld held path with
  | .error _ => return .error (.ioError [.bytes path, .lit ": ", .strerror])
  | .ok content =>
    let sought ← fseek 0
    if !sought then
      return .error (.ioError [.bytes path, .lit ": fseek failed"])
    else if content.length < kSSTableFooterSize then
      return .error (.corruption
        [.bytes path, .lit ": file too small to contain a valid footer"])
    else
      let sought ← fseek (content.length - kSSTableFooterSize)
      if !sought then
        return .error (.ioError [.bytes path, .lit ": fseek failed"])
      else
        let footer ← fread content (content.length - kSSTableFooterSize) kSSTableFooterSize
        if footer.length ≠ kSSTableFooterSize then
          return .error (.corruption [.bytes path, .lit ": failed to read footer"])
        else
          let indexOffset := decodeFixed64 footer
          let indexSize := decodeFixed64 (footer.drop 8)
          let filterOffset := decodeFixed64 (footer.drop 16)
          let filterSize := decodeFixed64 (footer.drop 24)
          let magic := decodeFixed64 (footer.drop 32)
          if magic ≠ kSSTableMagic then
            return .error (.corruption
              [.bytes path, .lit ": bad magic number, not a ClomDB SSTable"])
          else
            match ← readBlock content indexOffset indexSize with
            | none =>
              return .error (.corruption [.bytes path, .lit ": failed to read index block"])
            | some indexBuf =>
              match parseIndex indexBuf.length indexBuf with
              | none =>
                return .error (.corruption [.bytes path, .lit ": malformed index entry"])
              | some index =>
                match ← readBlock content filterOffset filterSize with
                | none =>
                  return .error (.corruption
                    [.bytes path, .lit ": failed to read filter block"])
                | some filter =>
                  return .ok
                    { path := path
                      index := index
                      filter := filter
                      minKey := (index.head?.map IndexEntry.key).getD []
                      maxKey := (index.getLast?.map IndexEntry.key).getD []
                      fileSize := content.length }

/-- What the byte-by-byte varint reads of `Get` and `ReadAll` end in. -/
inductive VarintRead where
  | truncated
  | malformed
  | value (v : UInt32) (pos : Nat)
  deriving DecidableEq

/-- At most five bytes, up to the first one without a continuation bit. -/
def readVarintBytes (content : Bytes) : Nat → Nat → Bytes → Prog World (Option (Bytes × Nat))
  | 0, pos, tmp => return some (tmp, pos)
  | n + 1, pos, tmp => do
      match ← fread content pos 1 with
      | [] => return none
      | b :: _ =>
          if b &&& 0x80 = 0 then return some (tmp ++ [b], pos + 1)
          else readVarintBytes content n (pos + 1) (tmp ++ [b])

def readVarint (content : Bytes) (pos : Nat) : Prog World VarintRead := do
  match ← readVarintBytes content 5 pos [] with
  | none => return .truncated
  | some (tmp, pos) =>
      match getVarint32Ptr tmp with
      | none => return .malformed
      | some (v, _) => return .value v pos

/-- A string of known length; nothing is read for the empty one. -/
def readString (content : Bytes) (pos len : Nat) : Prog World (Option Bytes) := do
  if len = 0 then
    return some []
  else
    let got ← fread content pos len
    if got.length ≠ len then return none else return some got

/-- What a point lookup finds: the key's value, or `none` for a tombstone. -/
abbrev Found := Option Bytes

/-- `SSTableReader::Get`; `none` is the return value `false`. -/
def SSTableReader.get (r : SSTableReader) (key : Bytes) : Prog World (Option Found) := do
  if r.filter ≠ [] ∧ BloomFilter.mayContain r.filter key = false then
    return none
  else
    match r.index[KeyedRun.lowerBound (fun e => Slice.less e.key key) r.index]? with
    | none => return none
    | some it =>
      if it.key ≠ key then
        return none
      else
        let w ← Prog.state
        let content := (w.bytes r.path).getD []
        let sought ← fseek (toLong it.offset)
        if !sought then
          return none
        else
          match ← fread content it.offset.toNat 1 with
          | [] => return none
          | typeByte :: _ =>
            match ← readVarint content (it.offset.toNat + 1) with
            | .truncated => return none
            | .malformed => return none
            | .value klen pos =>
              match ← readString content pos klen.toNat with
              | none => return none
              | some _ =>
                if (⟨typeByte⟩ : EntryType) = .kDelete then
                  return some none
                else
                  match ← readVarint content (pos + klen.toNat) with
                  | .truncated => return none
                  | .malformed => return none
                  | .value vlen pos =>
                    match ← readString content pos vlen.toNat with
                    | none => return none
                    | some value => return some (some value)

/-- One round of the loop of `SSTableReader::ReadAll`. -/
def readEntry (path : Path) (content : Bytes) (pos : Nat) :
    Prog World (Except Status (SSTableEntry × Nat)) := do
  match ← fread content pos 1 with
  | [] => return .error (.corruption [.bytes path, .lit ": truncated data section"])
  | typeByte :: _ =>
    match ← readVarint content (pos + 1) with
    | .truncated => return .error (.corruption [.bytes path, .lit ": truncated key length"])
    | .malformed => return .error (.corruption [.bytes path, .lit ": bad varint (key len)"])
    | .value klen pos =>
      match ← readString content pos klen.toNat with
      | none => return .error (.corruption [.bytes path, .lit ": truncated key"])
      | some key =>
        if (⟨typeByte⟩ : EntryType) = .kPut then
          match ← readVarint content (pos + klen.toNat) with
          | .truncated =>
            return .error (.corruption [.bytes path, .lit ": truncated value length"])
          | .malformed =>
            return .error (.corruption [.bytes path, .lit ": bad varint (value len)"])
          | .value vlen pos =>
            match ← readString content pos vlen.toNat with
            | none => return .error (.corruption [.bytes path, .lit ": truncated value"])
            | some value => return .ok (⟨key, ⟨typeByte⟩, value⟩, pos + vlen.toNat)
        else
          return .ok (⟨key, ⟨typeByte⟩, []⟩, pos + klen.toNat)

def readEntries (path : Path) (content : Bytes) :
    Nat → Nat → Prog World (Except Status (List SSTableEntry))
  | 0, _ => return .ok []
  | n + 1, pos => do
      match ← readEntry path content pos with
      | .error s => return .error s
      | .ok (e, pos) =>
          match ← readEntries path content n pos with
          | .error s => return .error s
          | .ok es => return .ok (e :: es)

/-- `SSTableReader::ReadAll`. -/
def SSTableReader.readAll (r : SSTableReader) :
    Prog World (Except Status (List SSTableEntry)) := do
  let w ← Prog.state
  let content := (w.bytes r.path).getD []
  let sought ← fseek 0
  if !sought then
    return .error (.ioError [.bytes r.path, .lit ": fseek failed"])
  else
    readEntries r.path content r.index.length 0

end ClomDB.SSTable
