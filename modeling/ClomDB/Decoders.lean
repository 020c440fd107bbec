import ClomDB.Lookup
import ClomDB.TableSafety
import Mathlib.Data.List.Forall2

/-!
# The two decoders of a table file

`Get` goes to the place that the index names and takes every record that is not
a tombstone for one with a value. `ReadAll` walks from the first byte and takes
every record that is not a put for one without. On a file of any bytes the two
agree exactly when the places and the types leave them no choice.

## Implementation notes

The decoders of this file make no calls: they say what is at a place of the
content. The programs with calls are shown to end in them when no call fails,
and a failing call is never an answer.
-/

namespace ClomDB.SSTable

open FaultProgram FileSystem FileSystem.World Coding

section Records

variable (content : Bytes)

def varintBytesAt : Nat → Nat → Bytes → Option (Bytes × Nat)
  | 0, pos, tmp => some (tmp, pos)
  | n + 1, pos, tmp =>
      match content.drop pos with
      | [] => none
      | b :: _ =>
          if b &&& 0x80 = 0 then some (tmp ++ [b], pos + 1)
          else varintBytesAt n (pos + 1) (tmp ++ [b])

def varintAt (pos : Nat) : VarintRead :=
  match varintBytesAt content 5 pos [] with
  | none => .truncated
  | some (tmp, pos) =>
      match getVarint32Ptr tmp with
      | none => .malformed
      | some (v, _) => .value v pos

def stringAt (pos len : Nat) : Option Bytes :=
  if len = 0 then some []
  else if ((content.drop pos).take len).length ≠ len then none
  else some ((content.drop pos).take len)

/-- A string behind its length, and the place after it. -/
def fieldAt (pos : Nat) : Option (Bytes × Nat) :=
  match varintAt content pos with
  | .truncated => none
  | .malformed => none
  | .value len pos => (stringAt content pos len.toNat).map fun data => (data, pos + len.toNat)

/-- What every record begins with, and the place after it. -/
structure Head where
  type : EntryType
  key : Bytes
  rest : Nat
  deriving DecidableEq

def headAt (pos : Nat) : Option Head :=
  match content.drop pos with
  | [] => none
  | typeByte :: _ => (fieldAt content (pos + 1)).map fun p => ⟨⟨typeByte⟩, p.1, p.2⟩

/-- A record in the eyes of `ReadAll`. -/
def entryAt (pos : Nat) : Option (SSTableEntry × Nat) :=
  (headAt content pos).bind fun h =>
    if h.type = .kPut then (fieldAt content h.rest).map fun p => (⟨h.key, h.type, p.1⟩, p.2)
    else some (⟨h.key, h.type, []⟩, h.rest)

/-- A record in the eyes of `Get`. -/
def foundAt (pos : Nat) : Option Found :=
  (headAt content pos).bind fun h =>
    if h.type = .kDelete then some none
    else (fieldAt content h.rest).map fun p => some p.1

/-- The record at the place an index entry names. -/
def foundFrom (offset : UInt64) : Option Found :=
  if toLong offset < 0 then none else foundAt content offset.toNat

/-- The places of `n` records that follow one another. -/
def walk : Nat → Nat → Option (List Nat)
  | 0, _ => some []
  | n + 1, pos => (entryAt content pos).bind fun p => (walk n p.2).map (pos :: ·)

/-- The index entry that the binary search of `Get` ends at, if it has the key. -/
def hit (index : List IndexEntry) (key : Bytes) : Option IndexEntry :=
  index[KeyedRun.lowerBound (fun e => Slice.less e.key key) index]?.filter
    fun it => decide (it.key = key)

/-- The filter does not rule the key out. -/
def Passes (filter key : Bytes) : Prop :=
  ¬(filter ≠ [] ∧ BloomFilter.mayContain filter key = false)

instance (filter key : Bytes) : Decidable (Passes filter key) :=
  inferInstanceAs (Decidable (¬_))

end Records

section Runs

variable {content : Bytes} {pos : Nat} {w : World} {path : Path}

theorem readVarintBytes_nil (n pos : Nat) (tmp : Bytes) :
    readVarintBytes content n pos tmp w [] =
      .returned (varintBytesAt content n pos tmp) w [] 0 := by
  induction n generalizing pos tmp with
  | zero => rfl
  | succ n ih =>
      have hread : fread content pos 1 w [] = .returned ((content.drop pos).take 1) w [] 0 := rfl
      rw [readVarintBytes, varintBytesAt, Prog.bind_of_returned hread]
      cases content.drop pos with
      | nil => rfl
      | cons b rest =>
          simp only [List.take_succ_cons]
          split
          · rfl
          · exact ih _ _

theorem readVarint_nil : readVarint content pos w [] = .returned (varintAt content pos) w [] 0 := by
  rw [readVarint, varintAt, Prog.bind_of_returned (readVarintBytes_nil 5 pos [])]
  cases varintBytesAt content 5 pos [] with
  | none => rfl
  | some p =>
      dsimp only
      cases getVarint32Ptr p.1 <;> rfl

theorem readString_nil (len : Nat) :
    readString content pos len w [] = .returned (stringAt content pos len) w [] 0 := by
  rw [readString, stringAt]
  by_cases hlen : len = 0
  · rw [if_pos hlen, if_pos hlen]
    rfl
  · have hread : fread content pos len w [] =
        .returned ((content.drop pos).take len) w [] 0 := rfl
    rw [if_neg hlen, if_neg hlen, Prog.bind_of_returned hread]
    by_cases hshort : ((content.drop pos).take len).length ≠ len
    · rw [if_pos hshort, if_pos hshort]
      rfl
    · rw [if_neg hshort, if_neg hshort]
      rfl

/-- A length and its string, without a call that fails. -/
theorem field_cases (content : Bytes) (w : World) (pos : Nat) :
    (readVarint content pos w [] = .returned .truncated w [] 0 ∧ fieldAt content pos = none) ∨
    (readVarint content pos w [] = .returned .malformed w [] 0 ∧ fieldAt content pos = none) ∨
    ∃ len next, readVarint content pos w [] = .returned (.value len next) w [] 0 ∧
      (readString content next len.toNat w [] = .returned none w [] 0 ∧
          fieldAt content pos = none ∨
        ∃ data, readString content next len.toNat w [] = .returned (some data) w [] 0 ∧
          fieldAt content pos = some (data, next + len.toNat)) := by
  rw [fieldAt, readVarint_nil]
  cases varintAt content pos with
  | truncated => exact Or.inl ⟨rfl, rfl⟩
  | malformed => exact Or.inr (Or.inl ⟨rfl, rfl⟩)
  | value len next =>
      refine Or.inr (Or.inr ⟨len, next, rfl, ?_⟩)
      dsimp only
      rw [readString_nil]
      cases stringAt content next len.toNat with
      | none => exact Or.inl ⟨rfl, rfl⟩
      | some data => exact Or.inr ⟨data, rfl, rfl⟩

/-- One round of `ReadAll` ends in the record at its place, if there is one. -/
theorem readEntry_nil (content : Bytes) (w : World) (path : Path) (pos : Nat) :
    ∃ x, readEntry path content pos w [] = .returned x w [] 0 ∧
      x.toOption = entryAt content pos := by
  have hread : fread content pos 1 w [] = .returned ((content.drop pos).take 1) w [] 0 := rfl
  rw [readEntry, Prog.bind_of_returned hread, entryAt, headAt]
  cases content.drop pos with
  | nil => exact ⟨_, rfl, rfl⟩
  | cons typeByte rest =>
      simp only [List.take_succ_cons]
      rcases field_cases content w (pos + 1) with
        ⟨hrun, hfield⟩ | ⟨hrun, hfield⟩ | ⟨klen, next, hrun, hkey⟩
      · rw [Prog.bind_of_returned hrun, hfield]
        exact ⟨_, rfl, rfl⟩
      · rw [Prog.bind_of_returned hrun, hfield]
        exact ⟨_, rfl, rfl⟩
      rw [Prog.bind_of_returned hrun]
      dsimp only
      rcases hkey with ⟨hrun, hfield⟩ | ⟨key, hrun, hfield⟩
      · rw [Prog.bind_of_returned hrun, hfield]
        exact ⟨_, rfl, rfl⟩
      rw [Prog.bind_of_returned hrun, hfield]
      dsimp only [Option.map_some, Option.bind_some]
      by_cases hput : (⟨typeByte⟩ : EntryType) = .kPut
      swap
      · rw [if_neg hput, if_neg hput]
        exact ⟨_, rfl, rfl⟩
      rw [if_pos hput, if_pos hput]
      rcases field_cases content w (next + klen.toNat) with
        ⟨hrun, hfield⟩ | ⟨hrun, hfield⟩ | ⟨vlen, next', hrun, hvalue⟩
      · rw [Prog.bind_of_returned hrun, hfield]
        exact ⟨_, rfl, rfl⟩
      · rw [Prog.bind_of_returned hrun, hfield]
        exact ⟨_, rfl, rfl⟩
      rw [Prog.bind_of_returned hrun]
      dsimp only
      rcases hvalue with ⟨hrun, hfield⟩ | ⟨value, hrun, hfield⟩
      · rw [Prog.bind_of_returned hrun, hfield]
        exact ⟨_, rfl, rfl⟩
      · rw [Prog.bind_of_returned hrun, hfield]
        exact ⟨_, rfl, rfl⟩

/-- The record of a place. -/
def Recorded (content : Bytes) (p : Nat) (e : SSTableEntry) : Prop :=
  ∃ next, entryAt content p = some (e, next)

/-- The loop of `ReadAll` ends in the records of a walk, or in an error if there is none. -/
theorem readEntries_nil (path : Path) (n pos : Nat) :
    ∃ x, readEntries path content n pos w [] = .returned x w [] 0 ∧
      ((∃ s, x = .error s) ∧ walk content n pos = none ∨ ∃ es places, x = .ok es ∧
        walk content n pos = some places ∧ List.Forall₂ (Recorded content) places es) := by
  induction n generalizing pos with
  | zero => exact ⟨_, rfl, Or.inr ⟨[], [], rfl, rfl, .nil⟩⟩
  | succ n ih =>
      obtain ⟨x, hrun, hx⟩ := readEntry_nil content w path pos
      rw [readEntries, Prog.bind_of_returned hrun, walk, ← hx]
      cases x with
      | error s => exact ⟨_, rfl, Or.inl ⟨⟨s, rfl⟩, rfl⟩⟩
      | ok p =>
          obtain ⟨e, next⟩ := p
          obtain ⟨y, hrest, hy⟩ := ih next
          dsimp only [Except.toOption, Option.bind_some]
          rw [Prog.bind_of_returned hrest]
          rcases hy with ⟨⟨s, rfl⟩, hwalk⟩ | ⟨es, places, rfl, hwalk, hes⟩
          · rw [hwalk]
            exact ⟨_, rfl, Or.inl ⟨⟨s, rfl⟩, rfl⟩⟩
          · rw [hwalk]
            exact ⟨_, rfl, Or.inr ⟨e :: es, pos :: places, rfl, rfl, .cons ⟨next, hx.symm⟩ hes⟩⟩

/-- `Get` ends in the record at the place of the index entry it ends at. -/
theorem get_nil (r : SSTableReader) (key : Bytes) (hw : w.bytes r.path = some content) :
    r.get key w [] = .returned (if Passes r.filter key then
      (hit r.index key).bind fun it => foundFrom content it.offset else none) w [] 0 := by
  rw [SSTableReader.get, hit]
  by_cases hfilter : r.filter ≠ [] ∧ BloomFilter.mayContain r.filter key = false
  · have hruled : ¬Passes r.filter key := not_not.mpr hfilter
    rw [if_pos hfilter, if_neg hruled]
    rfl
  have hpasses : Passes r.filter key := hfilter
  rw [if_neg hfilter, if_pos hpasses]
  cases r.index[KeyedRun.lowerBound (fun e => Slice.less e.key key) r.index]? with
  | none => rfl
  | some it =>
      dsimp only
      by_cases hkey : it.key = key
      swap
      · rw [if_pos hkey, Option.filter_some, if_neg (by simpa using hkey)]
        rfl
      rw [if_neg (not_not.mpr hkey), Option.filter_some, if_pos (by simpa using hkey),
        Option.bind_some]
      have hcontent : (w.bytes r.path).getD [] = content := by rw [hw]; rfl
      have hstate : (Prog.state : Prog World World) w [] = .returned w w [] 0 := rfl
      have hseek : fseek (toLong it.offset) w [] =
          .returned (decide (0 ≤ toLong it.offset)) w [] 0 := rfl
      rw [Prog.bind_of_returned hstate, hcontent, Prog.bind_of_returned hseek, foundFrom]
      by_cases hneg : toLong it.offset < 0
      · rw [if_pos hneg, decide_eq_false (Int.not_le.mpr hneg)]
        rfl
      rw [if_neg hneg, decide_eq_true (Int.not_lt.mp hneg)]
      have hread : fread content it.offset.toNat 1 w [] =
          .returned ((content.drop it.offset.toNat).take 1) w [] 0 := rfl
      simp only [Bool.not_true, Bool.false_eq_true, if_false]
      rw [Prog.bind_of_returned hread, foundAt, headAt]
      cases content.drop it.offset.toNat with
      | nil => rfl
      | cons typeByte rest =>
          simp only [List.take_succ_cons]
          rcases field_cases content w (it.offset.toNat + 1) with
            ⟨hrun, hfield⟩ | ⟨hrun, hfield⟩ | ⟨klen, next, hrun, hkey⟩
          · rw [Prog.bind_of_returned hrun, hfield]
            rfl
          · rw [Prog.bind_of_returned hrun, hfield]
            rfl
          rw [Prog.bind_of_returned hrun]
          dsimp only
          rcases hkey with ⟨hrun, hfield⟩ | ⟨k, hrun, hfield⟩
          · rw [Prog.bind_of_returned hrun, hfield]
            rfl
          rw [Prog.bind_of_returned hrun, hfield]
          dsimp only [Option.map_some, Option.bind_some]
          by_cases hdelete : (⟨typeByte⟩ : EntryType) = .kDelete
          · rw [if_pos hdelete, if_pos hdelete]
            rfl
          rw [if_neg hdelete, if_neg hdelete]
          rcases field_cases content w (next + klen.toNat) with
            ⟨hrun, hfield⟩ | ⟨hrun, hfield⟩ | ⟨vlen, next', hrun, hvalue⟩
          · rw [Prog.bind_of_returned hrun, hfield]
            rfl
          · rw [Prog.bind_of_returned hrun, hfield]
            rfl
          rw [Prog.bind_of_returned hrun]
          dsimp only
          rcases hvalue with ⟨hrun, hfield⟩ | ⟨value, hrun, hfield⟩
          · rw [Prog.bind_of_returned hrun, hfield]
            rfl
          · rw [Prog.bind_of_returned hrun, hfield]
            rfl

theorem readAll_nil {w : World} (r : SSTableReader) (hw : w.bytes r.path = some content) :
    ∃ x, r.readAll w [] = .returned x w [] 0 ∧
      ((∃ s, x = .error s) ∧ walk content r.index.length 0 = none ∨ ∃ es places, x = .ok es ∧
        walk content r.index.length 0 = some places ∧
        List.Forall₂ (Recorded content) places es) := by
  have hstate : (Prog.state : Prog World World) w [] = .returned w w [] 0 := rfl
  have hseek : fseek 0 w [] = .returned true w [] 0 := rfl
  have hcontent : (w.bytes r.path).getD [] = content := by rw [hw]; rfl
  rw [SSTableReader.readAll, Prog.bind_of_returned hstate, Prog.bind_of_returned hseek, hcontent]
  exact readEntries_nil r.path r.index.length 0

/-- The list of a `ReadAll` that succeeds, also where calls may fail. -/
theorem records_of_readAll {r : SSTableReader} {fs : List Fault} {es : List SSTableEntry}
    (hw : w.bytes r.path = some content) (h : (r.readAll w fs).value = some (.ok es)) :
    ∃ places, walk content r.index.length 0 = some places ∧
      List.Forall₂ (Recorded content) places es := by
  obtain ⟨x, hrun, hx⟩ := readAll_nil r hw
  obtain ⟨s, rest, t, hr⟩ := Outcome.value_eq_some h
  obtain ⟨-, -, ⟨-, hgood⟩ | ⟨-, hbad⟩⟩ := ((failsafe_readAll r).reads hrun).of_returned hr
  · rcases hx with ⟨⟨s, rfl⟩, -⟩ | ⟨es', places, rfl, hwalk, hes⟩
    · exact nomatch hgood
    · obtain rfl := Except.ok.inj hgood
      exact ⟨places, hwalk, hes⟩
  · obtain ⟨s, hs, -⟩ := hbad
    exact nomatch hs

/-- The record that a `Get` found, also where calls may fail. -/
theorem found_of_get {r : SSTableReader} {fs : List Fault} {key : Bytes} {found : Found}
    (hw : w.bytes r.path = some content) (h : (r.get key w fs).value = some (some found)) :
    Passes r.filter key ∧
      ∃ it, hit r.index key = some it ∧ foundFrom content it.offset = some found := by
  obtain ⟨s, rest, t, hr⟩ := Outcome.value_eq_some h
  obtain ⟨-, -, ⟨-, hgood⟩ | ⟨-, hbad⟩⟩ :=
    ((failsafe_get r key).reads (get_nil r key hw)).of_returned hr
  · by_cases hpasses : Passes r.filter key
    · rw [if_pos hpasses] at hgood
      obtain ⟨it, hhit, hfound⟩ := Option.bind_eq_some_iff.mp hgood.symm
      exact ⟨hpasses, it, hhit, hfound⟩
    · rw [if_neg hpasses] at hgood
      exact nomatch hgood
  · exact nomatch hbad

/-- `Open` accepts a content, and what it reads of it. -/
structure Accepted (content : Bytes) (index : List IndexEntry) (filter : Bytes) : Prop where
  sizes : SizesWithin content maxStringBytes
  framed : Framed content
  indexed : parsedIndex content = some index
  filtered : region content (filterOffset content) (filterSize content) = some filter

theorem accepted_of_open {held : Nat} {fs : List Fault} {r : SSTableReader}
    (hw : w.bytes path = some content)
    (h : (SSTableReader.open held path w fs).value = some (.ok r)) :
    ∃ index filter, Accepted content index filter ∧ r = readerOf path content index filter := by
  obtain ⟨s, rest, t, hr⟩ := Outcome.value_eq_some h
  have hanswer : wp Env.hostile (SSTableReader.open held path)
      (fun r _ _ => Answer Env.hostile maxStringBytes path content r) (fun _ _ => True) w t :=
    wp_openWithin hw (Or.inl trivial) (fun _ => trivial) fun _ hr => hr
  have hend := hanswer fs (Env.hostile_admits fs)
  rw [hr] at hend
  cases (hend (Nat.le_refl t)).2 with
  | opened sizes framed indexed filtered =>
      exact ⟨_, _, ⟨sizes, framed, indexed, filtered⟩, rfl⟩

theorem open_of_accepted {index : List IndexEntry} {filter : Bytes}
    (hw : w.bytes path = some content) (h : Accepted content index filter) :
    (SSTableReader.open 0 path w []).value = some (.ok (readerOf path content index filter)) := by
  obtain ⟨x, w', rest, t, hrun, rfl⟩ := wp.returns (c := SSTableReader.open 0 path)
    (R := fun r _ => r = .ok (readerOf path content index filter)) fun b =>
      wp_openWithin (b := b) hw (Or.inr (by decide))
        (fun hc => hc.elim id fun hs => hs h.sizes) fun r hr => by
      cases hr with
      | opened sizes framed indexed filtered =>
          obtain rfl := Option.some.inj (indexed.symm.trans h.indexed)
          obtain rfl := Option.some.inj (filtered.symm.trans h.filtered)
          rfl
      | corrupt sizes code why =>
          rcases why with hframed | hindexed | hfiltered
          · exact absurd h.framed hframed
          · exact nomatch hindexed.symm.trans h.indexed
          · exact nomatch hfiltered.symm.trans h.filtered
      | failed fails => exact fails.elim
  rw [hrun]
  rfl

end Runs

section Agreement

variable {content : Bytes} {index : List IndexEntry} {filter : Bytes} {p : Nat} {e : SSTableEntry}
  {ie : IndexEntry}

/-- Whatever calls fail, what `ReadAll` lists of a content that `Open` accepts are the
keys of the index with puts and tombstones, and no `Get` that finds a key of the index
contradicts an entry of the key in that list. -/
def DecodersAgree (content : Bytes) : Prop :=
  ∀ (held : Nat) (path : Path) (w : World) (fs fs' : List Fault) (r : SSTableReader)
    (es : List SSTableEntry), w.bytes path = some content →
    (SSTableReader.open held path w fs).value = some (.ok r) →
    (r.readAll w fs').value = some (.ok es) →
    es.map SSTableEntry.key = r.index.map IndexEntry.key ∧
      (∀ e ∈ es, e.type = .kPut ∨ e.type = .kDelete) ∧
      ∀ key ∈ r.index.map IndexEntry.key, Passes r.filter key →
        ∀ (fs'' : List Fault) (found : Found), (r.get key w fs'').value = some (some found) →
          ∀ e ∈ es, e.key = key → found = e.said

/-- A place of the walk and the index entry with the same number. The record there is a put
or a tombstone of the key. Where a search for the key ends, the index names a place without
a whole record, or one of a record like this one. -/
structure Faithful (content : Bytes) (index : List IndexEntry) (filter : Bytes) (p : Nat)
    (ie : IndexEntry) : Prop where
  typed : ∃ h, headAt content p = some h ∧ h.key = ie.key ∧
    (h.type = .kPut ∨ h.type = .kDelete)
  placed : Passes filter ie.key → ∀ it, hit index ie.key = some it →
    foundFrom content it.offset = none ∨ foundFrom content it.offset = foundAt content p

/-- If `Open` accepts the content and a walk can be made through it, then every place on
the way is that of its index entry. -/
def Consistent (content : Bytes) : Prop :=
  ∀ index filter places, Accepted content index filter →
    walk content index.length 0 = some places →
    List.Forall₂ (Faithful content index filter) places index

theorem Recorded.head (h : Recorded content p e) :
    ∃ q, headAt content p = some ⟨e.type, e.key, q⟩ := by
  obtain ⟨next, hentry⟩ := h
  obtain ⟨head, hhead, hrest⟩ := Option.bind_eq_some_iff.mp hentry
  split at hrest
  next =>
    obtain ⟨field, -, hfield⟩ := Option.map_eq_some_iff.mp hrest
    cases hfield
    exact ⟨_, hhead⟩
  next =>
    cases hrest
    exact ⟨_, hhead⟩

/-- `Get` and `ReadAll` see the same in a put, and in a tombstone. -/
theorem Recorded.foundAt (h : Recorded content p e) (ht : e.type = .kPut ∨ e.type = .kDelete) :
    foundAt content p = some e.said := by
  obtain ⟨next, hentry⟩ := h
  obtain ⟨head, hhead, hrest⟩ := Option.bind_eq_some_iff.mp hentry
  rw [SSTable.foundAt, hhead, Option.bind_some, SSTableEntry.said]
  split at hrest
  next hput =>
    obtain ⟨field, hfield, hentry⟩ := Option.map_eq_some_iff.mp hrest
    cases hentry
    have hlive : head.type ≠ .kDelete := by
      rw [hput]
      decide
    rw [if_neg hlive, if_neg hlive, hfield]
    rfl
  next hput =>
    cases hrest
    have hdelete : head.type = .kDelete := ht.resolve_left hput
    rw [if_pos hdelete, if_pos hdelete]

/-- Two lists that both go in step with a third one go in step with each other. -/
theorem forall₂_comp {α β γ : Type} {R : α → β → Prop} {S : β → γ → Prop} {as : List α}
    {bs : List β} {cs : List γ} (h : List.Forall₂ R as bs) (h' : List.Forall₂ S bs cs) :
    List.Forall₂ (fun a c => ∃ b ∈ bs, R a b ∧ S b c) as cs := by
  induction h generalizing cs with
  | nil =>
      cases h'
      exact .nil
  | cons hab _ ih =>
      cases h' with
      | cons hbc hrest =>
          refine .cons ⟨_, List.mem_cons_self, hab, hbc⟩ ((ih hrest).imp ?_)
          rintro a c ⟨b, hb, hpair⟩
          exact ⟨b, List.mem_cons_of_mem _ hb, hpair⟩

/-- Lists of the same keys go in step. -/
theorem keys_eq_iff {es : List SSTableEntry} : es.map SSTableEntry.key = index.map IndexEntry.key ↔
    List.Forall₂ (fun e ie => e.key = ie.key) es index := by
  rw [← List.forall₂_eq_eq_eq, List.forall₂_map_left_iff, List.forall₂_map_right_iff]

theorem agree_of_consistent (h : Consistent content) : DecodersAgree content := by
  intro held path w fs fs' r es hw hopen hall
  obtain ⟨index, filter, haccepted, rfl⟩ := accepted_of_open hw hopen
  obtain ⟨places, hwalk, hes⟩ := records_of_readAll hw hall
  have hpairs := forall₂_comp hes.flip (h index filter places haccepted hwalk)
  have hkeys : List.Forall₂ (fun e ie => e.key = ie.key ∧ (e.type = .kPut ∨ e.type = .kDelete) ∧
      ∃ p, Recorded content p e ∧ Faithful content index filter p ie) es index := by
    refine hpairs.imp ?_
    rintro e ie ⟨p, -, hrecord, hfaithful⟩
    obtain ⟨q, hhead⟩ := Recorded.head hrecord
    obtain ⟨head, hhead', hkey, htype⟩ := hfaithful.typed
    obtain rfl := Option.some.inj (hhead.symm.trans hhead')
    exact ⟨hkey, htype, p, hrecord, hfaithful⟩
  have heach : ∀ e ∈ es, ∃ ie ∈ index, e.key = ie.key ∧
      (e.type = .kPut ∨ e.type = .kDelete) ∧
      ∃ p, Recorded content p e ∧ Faithful content index filter p ie := by
    intro e he
    obtain ⟨i, hi, rfl⟩ := List.mem_iff_getElem.mp he
    have hi' : i < index.length := by rw [← hkeys.length_eq]; exact hi
    exact ⟨index[i], List.getElem_mem hi', hkeys.get hi hi'⟩
  refine ⟨keys_eq_iff.mpr (hkeys.imp fun _ _ h => h.1), ?_, ?_⟩
  · intro e he
    obtain ⟨_, -, -, htype, -⟩ := heach e he
    exact htype
  · rintro key - - fs'' found hget e he hkey
    obtain ⟨ie, -, hie, htype, p, hrecord, hfaithful⟩ := heach e he
    obtain ⟨hpasses, it, hhit, hfound⟩ := found_of_get hw hget
    subst hkey
    rw [hie] at hpasses hhit
    rcases hfaithful.placed hpasses it hhit with hnone | hsame
    · exact nomatch hnone.symm.trans hfound
    · exact Option.some.inj (hfound.symm.trans (hsame.trans (hrecord.foundAt htype)))

theorem consistent_of_agree (h : DecodersAgree content) : Consistent content := by
  intro index filter places haccepted hwalk
  let w : World := World.put ⟨false, ∅⟩ [] ⟨content, 0, Nat.zero_le _⟩
  have hw : w.bytes [] = some content := bytes_put_same _ _ _
  let r := readerOf [] content index filter
  obtain ⟨x, hrun, hx⟩ := readAll_nil r hw
  rcases hx with ⟨-, hnone⟩ | ⟨es, places', rfl, hwalk', hes⟩
  · exact nomatch hnone.symm.trans hwalk
  obtain rfl := Option.some.inj (hwalk'.symm.trans hwalk)
  have hall : (r.readAll w []).value = some (.ok es) := by rw [hrun]; rfl
  obtain ⟨hkeys, htypes, hgets⟩ := h 0 [] w [] [] r es hw (open_of_accepted hw haccepted) hall
  refine (forall₂_comp hes (keys_eq_iff.mp hkeys)).imp ?_
  rintro p ie ⟨e, he, hrecord, hkey⟩
  constructor
  · obtain ⟨q, hhead⟩ := hrecord.head
    exact ⟨_, hhead, hkey, htypes e he⟩
  · intro hpasses it hhit
    cases hfound : foundFrom content it.offset with
    | none => exact Or.inl rfl
    | some found =>
        have hget : (r.get ie.key w []).value = some (some found) := by
          have hpasses' : Passes r.filter ie.key := hpasses
          have hhit' : hit r.index ie.key = some it := hhit
          rw [get_nil r ie.key hw, if_pos hpasses', hhit', Option.bind_some, hfound]
          rfl
        have hmem : ie.key ∈ r.index.map IndexEntry.key := by
          rw [← hkey, ← hkeys]
          exact List.mem_map_of_mem he
        have hsaid := hgets ie.key hmem hpasses [] found hget e he hkey
        rw [hrecord.foundAt (htypes e he), hsaid]
        exact Or.inr rfl

theorem decodersAgree_iff (content : Bytes) : DecodersAgree content ↔ Consistent content := by
  constructor
  · exact consistent_of_agree
  · exact agree_of_consistent

/-- A table file of one record with a type that is neither put nor tombstone. -/
def strangeType : Bytes :=
  [3, 1, 0x61, 1, 0x76] ++ [1, 0x61] ++ putFixed64 0 ++
    (putFixed64 5 ++ putFixed64 10 ++ putFixed64 0 ++ putFixed64 0 ++ putFixed64 kSSTableMagic)

/-- `ReadAll` lists a record of that type without the value that `Get` finds. -/
theorem strangeType_disagrees : ¬DecodersAgree strangeType := by
  intro h
  have haccepted : Accepted strangeType [⟨[0x61], 0⟩] [] := by
    constructor
    · exact fun _ => by decide +kernel
    · exact ⟨by decide, by decide +kernel⟩
    · decide +kernel
    · decide +kernel
  have hplaces := consistent_of_agree h _ _ [0] haccepted (by decide +kernel)
  cases hplaces with
  | cons hfaithful =>
      obtain ⟨head, hhead, -, htype⟩ := hfaithful.typed
      have hstrange : headAt strangeType 0 = some ⟨⟨3⟩, [0x61], 3⟩ := by decide +kernel
      obtain rfl := Option.some.inj (hhead.symm.trans hstrange)
      exact absurd htype (by decide)

end Agreement

end ClomDB.SSTable
