import ClomDB.Table

/-!
# Opening a table file of arbitrary bytes

What `SSTableReader::Open` does on any content. The footer names two regions
and their sizes; a string of the stated size is made before a byte of the region
is read, and a size that no string can have leaves `Open` by an exception.

## Implementation notes

`openWithin` is `Open` where a string holds at most `limit` bytes and making a
longer one throws. With the limit of `std::string` it is `Open` itself; with the
size of the file as the limit it tells whether a buffer larger than the file is
made.
-/

namespace ClomDB.SSTable

open FaultProgram FileSystem FileSystem.World Coding

/-- The reads of the index and the filter where strings are limited. -/
def readBlockWithin (limit : Nat) (content : Bytes) (offset size : UInt64) :
    Prog World (Option Bytes) := do
  if limit < size.toNat then
    Prog.abort
  else if size = 0 then
    return some []
  else
    let sought ← fseek (toLong offset)
    if !sought then
      return none
    else
      let block ← fread content offset.toNat size.toNat
      if block.length ≠ size.toNat then return none else return some block

/-- `SSTableReader::Open` where strings are limited. -/
def SSTableReader.openWithin (limit held : Nat) (path : Path) :
    Prog World (Except Status SSTableReader) := do
  match ← fopenHeld held path with
  | .error _ => return .error (.ioError [.bytes path, .lit ": ", .strerror])
  | .ok content =>
    let sought ← fseek 0
    if !sought then
      return .error (.ioError [.bytes path, .lit ": fseek failed"])
    else if content.length < kSSTableFooterSize then
      return .error (.corruption
        [.bytes path, .lit ": file too small to contain a valid footer"])
    else
      let sought ← fseek (content.length - kSSTableFooterSize)
      if !sought then
        return .error (.ioError [.bytes path, .lit ": fseek failed"])
      else
        let footer ← fread content (content.length - kSSTableFooterSize) kSSTableFooterSize
        if footer.length ≠ kSSTableFooterSize then
          return .error (.corruption [.bytes path, .lit ": failed to read footer"])
        else
          let indexOffset := decodeFixed64 footer
          let indexSize := decodeFixed64 (footer.drop 8)
          let filterOffset := decodeFixed64 (footer.drop 16)
          let filterSize := decodeFixed64 (footer.drop 24)
          let magic := decodeFixed64 (footer.drop 32)
          if magic ≠ kSSTableMagic then
            return .error (.corruption
              [.bytes path, .lit ": bad magic number, not a ClomDB SSTable"])
          else
            match ← readBlockWithin limit content indexOffset indexSize with
            | none =>
              return .error (.corruption [.bytes path, .lit ": failed to read index block"])
            | some indexBuf =>
              match parseIndex indexBuf.length indexBuf with
              | none =>
                return .error (.corruption [.bytes path, .lit ": malformed index entry"])
              | some index =>
                match ← readBlockWithin limit content filterOffset filterSize with
                | none =>
                  return .error (.corruption
                    [.bytes path, .lit ": failed to read filter block"])
                | some filter =>
                  return .ok
                    { path := path
                      index := index
                      filter := filter
                      minKey := (index.head?.map IndexEntry.key).getD []
                      maxKey := (index.getLast?.map IndexEntry.key).getD []
                      fileSize := content.length }

theorem open_eq_openWithin (held : Nat) (path : Path) :
    SSTableReader.open held path = SSTableReader.openWithin maxStringBytes held path := rfl

section Footer

variable (content : Bytes)

/-- The last 40 bytes of a file. -/
def footer : Bytes := content.drop (content.length - kSSTableFooterSize)

def indexOffset : UInt64 := decodeFixed64 (footer content)
def indexSize : UInt64 := decodeFixed64 ((footer content).drop 8)
def filterOffset : UInt64 := decodeFixed64 ((footer content).drop 16)
def filterSize : UInt64 := decodeFixed64 ((footer content).drop 24)
def magic : UInt64 := decodeFixed64 ((footer content).drop 32)

/-- The file has a footer with the magic number of a table. -/
def Framed : Prop := kSSTableFooterSize ≤ content.length ∧ magic content = kSSTableMagic

/-- The bytes of a region, if the file has them. -/
def region (offset size : UInt64) : Option Bytes :=
  if size = 0 then some []
  else if toLong offset < 0 then none
  else
    let block := (content.drop offset.toNat).take size.toNat
    if block.length ≠ size.toNat then none else some block

/-- The index that the footer names, if it is in the file and well formed. -/
def parsedIndex : Option (List IndexEntry) :=
  (region content (indexOffset content) (indexSize content)).bind fun buf =>
    parseIndex buf.length buf

/-- Each size that `Open` takes from a footer is within a limit: that of the
index, and that of the filter unless the index is rejected. -/
def SizesWithin (limit : Nat) : Prop :=
  Framed content → (indexSize content).toNat ≤ limit ∧
    (parsedIndex content ≠ none → (filterSize content).toNat ≤ limit)

/-- A region that is not empty lies in the file. -/
def Inside (offset size : UInt64) : Prop :=
  size ≠ 0 → offset.toNat + size.toNat ≤ content.length

end Footer

section Parser

/-- The entries of an index one after the other, each behind a length field of
one to five bytes, are exactly the bytes of the buffer. -/
def Tiles (buf : Bytes) (index : List IndexEntry) : Prop :=
  ∃ lengths : List Bytes, lengths.length = index.length ∧
    (∀ v ∈ lengths, 1 ≤ v.length ∧ v.length ≤ 5) ∧
    ((lengths.zip index).flatMap fun p => p.1 ++ p.2.key ++ putFixed64 p.2.offset) = buf

theorem Tiles.nil : Tiles [] [] := ⟨[], rfl, by simp, rfl⟩

theorem Tiles.cons {front p : Bytes} {len : Nat} {index : List IndexEntry}
    (hpos : 1 ≤ front.length) (hle : front.length ≤ 5) (hlen : len + 8 ≤ p.length)
    (h : Tiles (p.drop (len + 8)) index) :
    Tiles (front ++ p) (⟨p.take len, decodeFixed64 (p.drop len)⟩ :: index) := by
  obtain ⟨lengths, hcount, hsizes, hbuf⟩ := h
  refine ⟨front :: lengths, by rw [List.length_cons, List.length_cons, hcount], ?_, ?_⟩
  · intro v hv
    rcases List.mem_cons.mp hv with rfl | hv
    · exact ⟨hpos, hle⟩
    · exact hsizes v hv
  · have hoffset : putFixed64 (decodeFixed64 (p.drop len)) = (p.drop len).take 8 := by
      refine putFixed64_decodeFixed64 ?_
      rw [List.length_drop]
      omega
    rw [List.zip_cons_cons, List.flatMap_cons, hbuf, hoffset]
    calc front ++ p.take len ++ (p.drop len).take 8 ++ p.drop (len + 8)
        = front ++ (p.take len ++ ((p.drop len).take 8 ++ (p.drop len).drop 8)) := by
          rw [List.drop_drop, List.append_assoc, List.append_assoc]
      _ = front ++ p := by rw [List.take_append_drop, List.take_append_drop]

/-- What the parser makes of a buffer takes up the buffer and nothing else. -/
theorem parseIndex_tiles {fuel : Nat} {buf : Bytes} {index : List IndexEntry}
    (h : parseIndex fuel buf = some index) : Tiles buf index := by
  induction fuel generalizing buf index with
  | zero =>
      cases buf with
      | nil =>
          obtain rfl := Option.some.inj h
          exact Tiles.nil
      | cons b bs => cases h
  | succ fuel ih =>
      cases buf with
      | nil =>
          obtain rfl := Option.some.inj h
          exact Tiles.nil
      | cons b bs =>
          rw [parseIndex] at h
          split at h
          next => cases h
          next klen p hvarint =>
            obtain ⟨front, hfront, hpos, hle⟩ := getVarint32Ptr_split hvarint
            have hlength := congrArg List.length hfront
            rw [List.length_append] at hlength
            split at h
            next => cases h
            next hlen =>
              obtain ⟨index', hrest, rfl⟩ := Option.map_eq_some_iff.mp h
              rw [hfront]
              exact Tiles.cons hpos hle (by omega) (ih hrest)

/-- The parser ends: any number of rounds from the length of the buffer on will do. -/
theorem parseIndex_fuel {m n : Nat} {buf : Bytes} (hm : buf.length ≤ m) (hn : buf.length ≤ n) :
    parseIndex m buf = parseIndex n buf := by
  induction m generalizing n buf with
  | zero =>
      rw [List.length_eq_zero_iff.mp (Nat.le_zero.mp hm)]
      cases n <;> rfl
  | succ m ih =>
      cases buf with
      | nil => cases n <;> rfl
      | cons b bs =>
          obtain ⟨n, rfl⟩ := Nat.exists_eq_add_of_lt (Nat.lt_of_lt_of_le (Nat.succ_pos _) hn)
          rw [Nat.zero_add, parseIndex, parseIndex]
          split
          next => rfl
          next klen p hvarint =>
            obtain ⟨front, hfront, hpos, -⟩ := getVarint32Ptr_split hvarint
            have hlength := congrArg List.length hfront
            rw [List.length_append, List.length_cons] at hlength
            rw [List.length_cons] at hm hn
            have hrest : (p.drop (klen.toNat + 8)).length ≤ p.length := by
              rw [List.length_drop]
              exact Nat.sub_le _ _
            rw [ih (by omega) (show (p.drop (klen.toNat + 8)).length ≤ n by omega)]

end Parser

section Open

variable {E : Env} {C : World → Nat → Prop} {w : World} {b : Nat} {path : Path} {limit held : Nat}
  {content : Bytes}

/-- A region within the limit is read as the file has it, or a read fails. -/
theorem observes_readBlockWithin {offset size : UInt64} (h : size.toNat ≤ limit) :
    Observes E (readBlockWithin limit content offset size)
      (fun r => r = region content offset size ∨ E.fails ∧ r = none) w := by
  rw [readBlockWithin, if_neg (Nat.not_lt.mpr h), region]
  by_cases hsize : size = 0
  · rw [if_pos hsize, if_pos hsize]
    exact Observes.ret (Or.inl rfl)
  rw [if_neg hsize, if_neg hsize]
  by_cases hoffset : toLong offset < 0
  · rw [if_pos hoffset]
    have hseek : Observes E (fseek (toLong offset)) (· = false) w :=
      Observes.probe (decide_eq_false (Int.not_le.mpr hoffset)) fun _ _ => rfl
    refine Observes.bind hseek fun sought hs => ?_
    subst hs
    exact Observes.ret (Or.inl rfl)
  · rw [if_neg hoffset]
    refine Observes.bind (observes_fseek (Int.not_lt.mp hoffset)) fun sought hs => ?_
    rcases hs with rfl | ⟨hf, rfl⟩
    swap
    · exact Observes.ret (Or.inr ⟨hf, rfl⟩)
    refine Observes.bind (observes_fread_take content offset.toNat size.toNat) fun got hgot => ?_
    rcases hgot with rfl | ⟨hf, hlt⟩
    · by_cases hlen : ((content.drop offset.toNat).take size.toNat).length ≠ size.toNat
      · rw [if_pos hlen]
        exact Observes.ret (Or.inl (if_pos hlen).symm)
      · rw [if_neg hlen]
        exact Observes.ret (Or.inl (if_neg hlen).symm)
    · rw [if_pos (Nat.ne_of_lt hlt)]
      exact Observes.ret (Or.inr ⟨hf, rfl⟩)

/-- The reader of a file whose index and filter could be read. -/
def readerOf (path : Path) (content : Bytes) (index : List IndexEntry) (filter : Bytes) :
    SSTableReader where
  path := path
  index := index
  filter := filter
  minKey := (index.head?.map IndexEntry.key).getD []
  maxKey := (index.getLast?.map IndexEntry.key).getD []
  fileSize := content.length

/-- How `Open` answers when it does: with a reader of what the footer names, with
Corruption, or with an error because a call failed. -/
inductive Answer (E : Env) (limit : Nat) (path : Path) (content : Bytes) :
    Except Status SSTableReader → Prop where
  | opened {index : List IndexEntry} {filter : Bytes} (sizes : SizesWithin content limit)
      (framed : Framed content) (indexed : parsedIndex content = some index)
      (filtered : region content (filterOffset content) (filterSize content) = some filter) :
      Answer E limit path content (.ok (readerOf path content index filter))
  | corrupt {s : Status} (sizes : SizesWithin content limit) (code : s.code = .kCorruption)
      (why : ¬Framed content ∨ parsedIndex content = none ∨
        region content (filterOffset content) (filterSize content) = none) :
      Answer E limit path content (.error s)
  | failed {s : Status} (fails : E.fails) (bad : s.ok = false) :
      Answer E limit path content (.error s)

/-- `Open` answers, unless the process dies or a size is over the limit. -/
theorem wp_openWithin {Q : Except Status SSTableReader → World → Nat → Prop}
    (hw : w.bytes path = some content) (hheld : E.excludes ∨ held < maxOpenFiles)
    (hC : E.crashes ∨ ¬SizesWithin content limit → C w b)
    (hQ : ∀ r, Answer E limit path content r → Q r w b) :
    wp E (SSTableReader.openWithin limit held path) Q C w b := by
  have hcrash : E.crashes → C w b := fun hc => hC (Or.inl hc)
  have hcorrupt : ∀ msg, SizesWithin content limit → (¬Framed content ∨
      parsedIndex content = none ∨
      region content (filterOffset content) (filterSize content) = none) →
      wp E (pure (.error (.corruption msg)) : Prog World (Except Status SSTableReader)) Q C w b :=
    fun msg hsizes hwhy => wp_pure (hQ _ (.corrupt hsizes rfl hwhy))
  have hfailed : ∀ s : Status, E.fails → s.ok = false →
      wp E (pure (.error s) : Prog World (Except Status SSTableReader)) Q C w b :=
    fun s hf hs => wp_pure (hQ _ (.failed hf hs))
  rw [SSTableReader.openWithin]
  refine wp_observes (observes_fopenHeld hw hheld) hcrash fun r hr => ?_
  rcases hr with ⟨-, rfl⟩ | ⟨hf, n, -, rfl⟩
  swap
  · exact hfailed _ hf rfl
  refine wp_observes (observes_fseek (Int.le_refl 0)) hcrash fun sought hs => ?_
  rcases hs with rfl | ⟨hf, rfl⟩
  swap
  · exact hfailed _ hf rfl
  simp only [Bool.not_true, Bool.false_eq_true, if_false]
  refine wp_ite (fun hshort => ?_) fun hlong => ?_
  · have hunframed : ¬Framed content := fun h => by have := h.1; omega
    exact hcorrupt _ (fun h => absurd h hunframed) (Or.inl hunframed)
  have hlong' : kSSTableFooterSize ≤ content.length := Nat.not_lt.mp hlong
  refine wp_observes (observes_fseek (by omega)) hcrash fun sought hs => ?_
  rcases hs with rfl | ⟨hf, rfl⟩
  swap
  · exact hfailed _ hf rfl
  simp only [Bool.not_true, Bool.false_eq_true, if_false]
  have hdrop : content.drop (content.length - kSSTableFooterSize) = footer content ++ [] := by
    rw [List.append_nil]
    rfl
  have hlength : (footer content).length = kSSTableFooterSize := by
    rw [footer, List.length_drop]
    omega
  refine wp_observes (observes_fread hdrop hlength) hcrash fun got hgot => ?_
  rcases hgot with rfl | ⟨hf, hlt⟩
  swap
  · rw [if_pos (Nat.ne_of_lt hlt)]
    exact hfailed _ hf rfl
  rw [if_neg (not_not.mpr hlength)]
  refine wp_ite (fun hmagic => ?_) fun hmagic => ?_
  · have hunframed : ¬Framed content := fun h => hmagic h.2
    exact hcorrupt _ (fun h => absurd h hunframed) (Or.inl hunframed)
  have hframed : Framed content := ⟨hlong', not_not.mp hmagic⟩
  by_cases hindex : (indexSize content).toNat ≤ limit
  swap
  · -- the string for the index is too long
    have hover : limit < (indexSize content).toNat := Nat.not_le.mp hindex
    change wp E (readBlockWithin limit content (indexOffset content) (indexSize content) >>= _) Q C w b
    rw [readBlockWithin, if_pos hover]
    exact wp_bind (wp_abort (hC (Or.inr fun h => hindex (h hframed).1)))
  refine wp_observes (observes_readBlockWithin hindex) hcrash fun r hr => ?_
  rcases hr with hr | ⟨hf, rfl⟩
  swap
  · exact hfailed _ hf rfl
  have hparsed : parsedIndex content = r.bind fun buf => parseIndex buf.length buf := by
    rw [hr]
    rfl
  have hunindexed : parsedIndex content = none → SizesWithin content limit :=
    fun hnone _ => ⟨hindex, fun hsome => absurd hnone hsome⟩
  cases r with
  | none => exact hcorrupt _ (hunindexed hparsed) (Or.inr (Or.inl hparsed))
  | some indexBuf =>
      dsimp only
      rw [Option.bind_some] at hparsed
      cases hindexed : parseIndex indexBuf.length indexBuf with
      | none =>
          have hnone := hparsed.trans hindexed
          exact hcorrupt _ (hunindexed hnone) (Or.inr (Or.inl hnone))
      | some index =>
          dsimp only
          rw [hindexed] at hparsed
          by_cases hfilter : (filterSize content).toNat ≤ limit
          swap
          · -- the string for the filter is too long
            have hover : limit < (filterSize content).toNat := Nat.not_le.mp hfilter
            change wp E (readBlockWithin limit content (filterOffset content)
              (filterSize content) >>= _) Q C w b
            rw [readBlockWithin, if_pos hover]
            refine wp_bind (wp_abort (hC (Or.inr fun h => hfilter ((h hframed).2 ?_))))
            rw [hparsed]
            exact Option.some_ne_none _
          refine wp_observes (observes_readBlockWithin hfilter) hcrash fun r hr => ?_
          rcases hr with hr | ⟨hf, rfl⟩
          swap
          · exact hfailed _ hf rfl
          have hsizes : SizesWithin content limit := fun _ => ⟨hindex, fun _ => hfilter⟩
          cases r with
          | none => exact hcorrupt _ hsizes (Or.inr (Or.inr hr.symm))
          | some filter => exact wp_pure (hQ _ (.opened hsizes hframed hparsed hr.symm))

/-- The string for a size over the limit is the end of the process. -/
theorem openWithin_crashes (hw : w.bytes path = some content)
    (hsizes : ¬SizesWithin content limit) :
    ∃ t, SSTableReader.openWithin limit 0 path w [] = .crashed w t := by
  obtain ⟨_, t, hrun, rfl⟩ := wp.dies (c := SSTableReader.openWithin limit 0 path) (R := (w = ·)) fun b =>
    wp_openWithin (b := b) hw (Or.inr (by decide)) (fun _ => rfl) fun _ h => by
      cases h with
      | opened sizes => exact hsizes sizes
      | corrupt sizes => exact hsizes sizes
      | failed fails => exact fails
  exact ⟨t, hrun⟩

end Open

section Safety

variable {E : Env} {path : Path} {content : Bytes} {limit : Nat}

/-- Bytes that were read are in the file. -/
theorem inside_of_region {offset size : UInt64} {block : Bytes}
    (h : region content offset size = some block) : Inside content offset size := by
  intro hsize
  have hpos : size.toNat ≠ 0 := fun h0 => hsize (UInt64.toNat_inj.mp h0)
  rw [region, if_neg hsize] at h
  split at h
  next => cases h
  next =>
    by_cases hlen : ((content.drop offset.toNat).take size.toNat).length = size.toNat
    · rw [List.length_take, List.length_drop] at hlen
      omega
    · exact nomatch (if_pos hlen).symm.trans h

/-- A safe answer of `Open`. An error is told by the status, and a reader is one of
regions that are in the file, with an index that takes up its region. A size larger than
the file is Corruption. -/
structure Sound (E : Env) (content : Bytes) (r : Except Status SSTableReader) : Prop where
  judged : ∀ s, r = .error s → s.ok = false
  inside : ∀ reader, r = .ok reader → Inside content (indexOffset content) (indexSize content) ∧
    Inside content (filterOffset content) (filterSize content)
  indexed : ∀ reader, r = .ok reader → ∃ buf,
    region content (indexOffset content) (indexSize content) = some buf ∧ Tiles buf reader.index
  rejected : ¬E.fails → Framed content →
    content.length < (indexSize content).toNat ∨ content.length < (filterSize content).toNat →
    ∃ s, r = .error s ∧ s.code = .kCorruption

theorem Answer.sound {r : Except Status SSTableReader} (h : Answer E limit path content r) :
    Sound E content r := by
  cases h with
  | @opened index filter sizes framed indexed filtered =>
      obtain ⟨buf, hbuf, hindex⟩ := Option.bind_eq_some_iff.mp indexed
      have hinside : ∀ reader : SSTableReader, Except.ok (ε := Status)
          (readerOf path content index filter) = .ok reader →
          Inside content (indexOffset content) (indexSize content) ∧
            Inside content (filterOffset content) (filterSize content) :=
        fun _ _ => ⟨inside_of_region hbuf, inside_of_region filtered⟩
      constructor
      · exact fun s h => nomatch h
      · exact hinside
      · rintro reader h
        obtain rfl := Except.ok.inj h
        exact ⟨buf, hbuf, parseIndex_tiles hindex⟩
      · rintro - - hsize
        have hle : ∀ {offset size : UInt64}, Inside content offset size →
            ¬content.length < size.toNat := by
          intro offset size h hlt
          have hpos : size ≠ 0 := by
            rintro rfl
            exact Nat.not_lt_zero _ hlt
          have := h hpos
          omega
        obtain ⟨hi, hf⟩ := hinside _ rfl
        exact (hsize.elim (hle hi) (hle hf)).elim
  | @corrupt s sizes code why =>
      have hbad : s.ok = false := by
        rw [Status.ok, code]
        rfl
      constructor
      · rintro s' h
        obtain rfl := Except.error.inj h
        exact hbad
      · exact fun reader h => nomatch h
      · exact fun reader h => nomatch h
      · exact fun _ _ _ => ⟨s, rfl, code⟩
  | @failed s fails bad =>
      constructor
      · rintro s' h
        obtain rfl := Except.error.inj h
        exact bad
      · exact fun reader h => nomatch h
      · exact fun reader h => nomatch h
      · exact fun hf _ _ => absurd fails hf

/-- `Open` returns with a safe answer whatever reads fail, where strings are limited. -/
def SafeWithin (limit : Nat) (content : Bytes) : Prop :=
  ∀ (E : Env) (held : Nat) (path : Path) (w : World) (b : Nat), ¬E.crashes →
    E.excludes ∨ held < maxOpenFiles → w.bytes path = some content →
    wp E (SSTableReader.openWithin limit held path) (fun r _ _ => Sound E content r)
      (fun _ _ => False) w b

theorem safeWithin_iff : SafeWithin limit content ↔ SizesWithin content limit := by
  constructor
  · intro hsafe
    by_contra hsizes
    let w : World := World.put ⟨false, ∅⟩ [] ⟨content, 0, Nat.zero_le _⟩
    have hw : w.bytes [] = some content := bytes_put_same _ _ _
    obtain ⟨t, hrun⟩ := openWithin_crashes hw hsizes
    have h := hsafe Env.sure 0 [] w t id (Or.inr (by decide)) hw [] (Env.admits_nil _)
    rw [hrun] at h
    exact h (Nat.le_refl t)
  · intro hsizes E held path w b hcrash hheld hw
    refine wp_openWithin hw hheld (fun h => ?_) fun r hr => hr.sound
    rcases h with hc | hs
    · exact hcrash hc
    · exact hs hsizes

/-- `Open` is safe on a content: it returns, also where a string longer than the file
would be the end of the process, and the parser of the index needs no more rounds than
its buffer has bytes. -/
structure OpensSafely (content : Bytes) : Prop where
  returns : ∀ (E : Env) (held : Nat) (path : Path) (w : World) (b : Nat), ¬E.crashes →
    E.excludes ∨ held < maxOpenFiles → w.bytes path = some content →
    wp E (SSTableReader.open held path) (fun r _ _ => Sound E content r) (fun _ _ => False) w b
  bounded : SafeWithin content.length content
  parses : ∀ (buf : Bytes) (n : Nat), buf.length ≤ n →
    parseIndex n buf = parseIndex buf.length buf

/-- The sizes in the footer are at most that of the file, and sizes that strings have. -/
def SizesFit (content : Bytes) : Prop :=
  SizesWithin content maxStringBytes ∧ SizesWithin content content.length

theorem opensSafely_iff (content : Bytes) : OpensSafely content ↔ SizesFit content := by
  constructor
  · intro h
    exact ⟨safeWithin_iff.mp h.returns, safeWithin_iff.mp h.bounded⟩
  · rintro ⟨hstring, hfile⟩
    exact ⟨safeWithin_iff.mpr hstring, safeWithin_iff.mpr hfile,
      fun buf n hn => parseIndex_fuel hn (Nat.le_refl _)⟩

/-- A footer and nothing else. The index has the largest size the footer can state. -/
def hugeIndex : Bytes :=
  putFixed64 0 ++ putFixed64 (2 ^ 64 - 1) ++ putFixed64 0 ++ putFixed64 0 ++
    putFixed64 kSSTableMagic

/-- `Open` leaves by an exception. -/
theorem hugeIndex_throws : ¬OpensSafely hugeIndex := by
  intro h
  have hframed : Framed hugeIndex := ⟨by decide, by decide⟩
  have hsize := (safeWithin_iff.mp h.returns hframed).1
  exact absurd hsize (by decide +kernel)

end Safety

end ClomDB.SSTable
