/-
# The buffers of index pages

`src/page/overlays/index/btree_leaf.rs` and `btree_inner.rs` byte by byte, on buffers with any
bytes.  A method that returns is `some`, and `none` where the code panics: a slice out of
range, an `expect` or an `unwrap` that fails, an `assert`.  Leaf and inner pages have entries of
16 bytes that start with the key, behind headers of different lengths (`IndexLayout`).

`entry` checks its index against the count in the header and not against the room of the page,
so on a count above the capacity a search panics as soon as it probes past the end of the buffer
(`findSlot_isSome_iff`, `findChild_isSome_iff`); `insert_entry` and `insert_separator` look at the
count first (`insert_isSome`).  Up to the capacity the methods are those of `BTreeLeafPage` and
`BTreeInnerPage` on the entries that the buffer has (`LeafBuffer.findSlot_eq`,
`InnerBuffer.findChild_eq`).
-/

import Abdb.Lib.Bytes
import Abdb.Lib.Probing
import Abdb.Page.BTreeInner
import Abdb.Page.BTreeLeaf

namespace Abdb

open Lib

/-- The bytes of a page's buffer, by offset below `PAGE_BUF_SIZE`. -/
structure PageBuffer where
  data : ℕ → UInt8

/-- The errors of `from_buffer`. -/
inductive PageTypeError
  | invalidPageType (v : ℕ)
  | typeMismatch (expected found : PageType)
deriving DecidableEq, Repr

/-- What leaf and inner pages differ in: `ENTRIES_OFFSET`, and how many entries the page has room
for. -/
structure IndexLayout where
  entriesOffset : ℕ
  capacity : ℕ
  /-- An entry lies within the page exactly if its index is below the capacity. -/
  fits : ∀ i, entriesOffset + 16 * i + 16 ≤ pageBufSize ↔ i < capacity

namespace PageBuffer

/-- The number of `n` bytes at an offset. -/
def field (b : PageBuffer) (o n : ℕ) : ℕ := ofLe (extract b.data o n)

/-- `page_type_id` of the uber header. -/
def pageTypeByte (b : PageBuffer) : ℕ := b.field 12 1

/-- `validate_type`. -/
def validateType (expected : PageType) (b : PageBuffer) : Except PageTypeError PageBuffer :=
  match PageType.tryFrom b.pageTypeByte with
  | none => .error (.invalidPageType b.pageTypeByte)
  | some found => if found = expected then .ok b else .error (.typeMismatch expected found)

/-- `num_entries` of a leaf page, `num_keys` of an inner page. -/
def count (b : PageBuffer) : ℕ := b.field uberHeaderSize 2

def setCount (b : PageBuffer) (n : ℕ) : PageBuffer := ⟨overwrite b.data uberHeaderSize (toLe 2 n)⟩

variable (L : IndexLayout) (b : PageBuffer)

/-- The bytes where the entry of an index lies. -/
def rawEntry (index : ℕ) : List UInt8 := extract b.data (L.entriesOffset + 16 * index) 16

/-- The key that an entry starts with. -/
def keyOf (e : List UInt8) : ℕ := ofLe (e.take 8)

/-- The key where the entry of an index lies. -/
def keyAt (index : ℕ) : ℕ := keyOf (b.rawEntry L index)

/-- `entry`: the index is checked against the count. -/
def entry (index : ℕ) : Option (Except OverlayError (List UInt8)) :=
  if b.count ≤ index then some (.error (.indexOutOfBounds index b.count))
  else if L.entriesOffset + 16 * index + 16 ≤ pageBufSize then some (.ok (b.rawEntry L index))
  else none

/-- `entry(index).unwrap()`. -/
def entryUnwrap (index : ℕ) : Option (List UInt8) :=
  match b.entry L index with
  | some (.ok e) => some e
  | _ => none

/-- `find_slot` and `find_separator_slot`. -/
def findSlot (key : ℕ) : Option (Bool × ℕ) :=
  if b.count = 0 then some (false, 0)
  else bsearchOn (fun mid => (b.entryUnwrap L mid).map fun e => compare (keyOf e) key) b.count 0 b.count

/-- `copy_within`, of a range to an offset. -/
def copyWithin (src n dst : ℕ) : Option PageBuffer :=
  if src + n ≤ pageBufSize ∧ dst + n ≤ pageBufSize then
    some ⟨overwrite b.data dst (extract b.data src n)⟩
  else none

/-- `set_entry`, with its assertion on the capacity. -/
def setEntry (index : ℕ) (e : List UInt8) : Option PageBuffer :=
  if L.capacity ≤ index then none
  else if L.entriesOffset + 16 * index + 16 ≤ pageBufSize then
    some ⟨overwrite b.data (L.entriesOffset + 16 * index) e⟩
  else none

/-- `insert_entry` and `insert_separator`, of the bytes of an entry with the key. -/
def insert (key : ℕ) (e : List UInt8) : Option (PageBuffer × Except OverlayError Unit) :=
  if L.capacity ≤ b.count then some (b, .error (.pageFull L.capacity (b.count + 1)))
  else
    match b.findSlot L key with
    | none => none
    | some (true, _) => some (b, .error (.duplicateKey key))
    | some (false, pos) =>
      let shifted :=
        if pos < b.count then
          b.copyWithin (L.entriesOffset + 16 * pos) (16 * (b.count - pos)) (L.entriesOffset + 16 * (pos + 1))
        else some b
      match shifted with
      | none => none
      | some b' =>
        match b'.setEntry L pos e with
        | none => none
        | some b' => some (b'.setCount (b.count + 1), .ok ())

/-- An index that a search looks at on its way to the right lies within the page, and its key has
the property. -/
def Turns (P : ℕ → Prop) : Prop :=
  ∃ j : ℕ, b.count - (b.count + 1) / 2 ^ (j + 1) < L.capacity ∧
    P (b.keyAt L (b.count - (b.count + 1) / 2 ^ (j + 1)))

/-! ### When the methods return -/

variable {L b} {key index pos : ℕ} {e : List UInt8}

theorem entryUnwrap_of_lt (hcap : index < L.capacity) (hcount : index < b.count) :
    b.entryUnwrap L index = some (b.rawEntry L index) := by
  rw [entryUnwrap, entry, if_neg (not_le.2 hcount), if_pos ((L.fits index).2 hcap)]

theorem entryUnwrap_of_le (hcap : L.capacity ≤ index) : b.entryUnwrap L index = none := by
  rw [entryUnwrap, entry]
  by_cases hcount : b.count ≤ index
  · rw [if_pos hcount]
  · rw [if_neg hcount, if_neg (mt (L.fits index).1 (not_lt.2 hcap))]

theorem entryUnwrap_eq_some (h : b.entryUnwrap L index = some e) : index < b.count ∧ e = b.rawEntry L index := by
  rcases lt_or_ge index L.capacity with hcap | hcap
  · by_cases hcount : index < b.count
    · rw [entryUnwrap_of_lt hcap hcount] at h
      exact ⟨hcount, (Option.some.inj h).symm⟩
    · rw [entryUnwrap, entry, if_pos (not_lt.1 hcount)] at h
      cases h
  · rw [entryUnwrap_of_le hcap] at h
    cases h

/-- The entries below the capacity can be read. -/
theorem readableBelow (f : ℕ → Ordering) : ReadableBelow
    (fun mid => (b.entryUnwrap L mid).map fun e => f (keyOf e)) (fun mid => f (b.keyAt L mid))
    L.capacity b.count where
  below i hcap hcount := by
    rw [entryUnwrap_of_lt hcap hcount]
    rfl
  above i hcap := by
    rw [entryUnwrap_of_le hcap]
    rfl

/-- A search over the entries succeeds unless it leaves the page. -/
theorem search_isSome_iff (f : ℕ → Ordering) : (bsearchOn
    (fun mid => (b.entryUnwrap L mid).map fun e => f (keyOf e)) b.count 0 b.count).isSome = true ↔
      b.count ≤ L.capacity ∨ b.Turns L fun k => f k ≠ .lt := by
  by_cases h0 : b.count = 0
  · rw [h0]
    exact iff_of_true rfl (Or.inl (Nat.zero_le _))
  · have hturns : TurnsLeft (fun mid => f (b.keyAt L mid)) L.capacity 0 b.count ↔
        b.Turns L fun k => f k ≠ .lt := by
      rw [TurnsLeft, Nat.sub_zero, Turns]
    rw [← hturns]
    exact bsearchOn_isSome_iff (readableBelow f) le_rfl (Nat.le_of_eq (Nat.sub_zero _))
      (Or.inl (Nat.pos_of_ne_zero h0))

/-- **When `find_slot` returns.** -/
theorem findSlot_isSome_iff : (b.findSlot L key).isSome = true ↔
    b.count ≤ L.capacity ∨ b.Turns L (key ≤ ·) := by
  have hne : ∀ k : ℕ, compare k key ≠ .lt ↔ key ≤ k := fun k => by
    rw [ne_eq, compare_lt_iff_lt, not_lt]
  rw [findSlot]
  split_ifs with h0
  · exact iff_of_true rfl (Or.inl (h0 ▸ Nat.zero_le _))
  · rw [search_isSome_iff fun k => compare k key]
    simp only [Turns, hne]

/-- The search over a count within the capacity. -/
theorem findSlot_eq (hcap : b.count ≤ L.capacity) : b.findSlot L key =
    some (bsearch (fun mid => compare (b.keyAt L mid) key) b.count 0 b.count) := by
  rw [findSlot]
  split_ifs with h0
  · rw [h0]
    rfl
  · exact bsearchOn_eq fun i hi => (readableBelow fun k => compare k key).below i (by omega) hi

/-- An entry that is found has been read. -/
theorem entryUnwrap_of_found (h : b.findSlot L key = some (true, pos)) :
    ∃ e, b.entryUnwrap L pos = some e := by
  rw [findSlot] at h
  split_ifs at h
  · cases h
  · obtain ⟨e, he, -⟩ := Option.map_eq_some_iff.1 (bsearchOn_found h)
    exact ⟨e, he⟩

theorem insert_of_hit (hcap : b.count < L.capacity) (hfind : b.findSlot L key = some (true, pos)) :
    b.insert L key e = some (b, .error (.duplicateKey key)) := by
  rw [insert, if_neg (not_le.2 hcap), hfind]

/-- **An insertion between entries**: the entries from there on move up, and nothing else of the
page changes but the count. -/
theorem insert_of_miss (hcap : b.count < L.capacity) (hfind : b.findSlot L key = some (false, pos))
    (he : e.length = 16) (hoff : uberHeaderSize + 2 ≤ L.entriesOffset) :
    ∃ b' : PageBuffer, b.insert L key e = some (b', .ok ()) ∧ b'.count = b.count + 1 ∧ pos ≤ b.count ∧
      (∀ i ≤ b.count, b'.rawEntry L i =
        if i < pos then b.rawEntry L i else if i = pos then e else b.rawEntry L (i - 1)) ∧
      ∀ o n, o + n ≤ L.entriesOffset → Apart o n uberHeaderSize 2 → b'.field o n = b.field o n := by
  have hroom := (L.fits b.count).2 hcap
  have hpos : pos ≤ b.count := by
    rw [findSlot_eq hcap.le, Option.some.injEq] at hfind
    have hle : (bsearch (fun mid => compare (b.keyAt L mid) key) b.count 0 b.count).2 ≤ b.count :=
      bsearch_snd_le (Nat.zero_le _)
    rwa [hfind] at hle
  -- the shift
  obtain ⟨b₁, hb₁, hmoved, hkept⟩ : ∃ b₁ : PageBuffer, (if pos < b.count then
      b.copyWithin (L.entriesOffset + 16 * pos) (16 * (b.count - pos)) (L.entriesOffset + 16 * (pos + 1))
      else some b) = some b₁ ∧
      (∀ i, pos ≤ i → i < b.count → extract b₁.data (L.entriesOffset + 16 * (i + 1)) 16 = b.rawEntry L i) ∧
      ∀ o n, Apart o n (L.entriesOffset + 16 * (pos + 1)) (16 * (b.count - pos)) →
        extract b₁.data o n = extract b.data o n := by
    by_cases hlt : pos < b.count
    · rw [if_pos hlt, copyWithin, if_pos ⟨by omega, by omega⟩]
      refine ⟨_, rfl, fun i hle hi => ?_, fun o n hon => extract_overwrite_of_apart (by
        rwa [length_extract])⟩
      have hfrom : L.entriesOffset + 16 * (i + 1) =
          L.entriesOffset + 16 * (pos + 1) + 16 * (i - pos) := by omega
      have hto : L.entriesOffset + 16 * i = L.entriesOffset + 16 * pos + 16 * (i - pos) := by omega
      rw [rawEntry, hfrom, hto]
      exact extract_overwrite_extract (by omega)
    · rw [if_neg hlt]
      exact ⟨b, rfl, fun i hle hi => absurd (hle.trans_lt hi) hlt, fun _ _ _ => rfl⟩
  -- the entry and the count
  obtain ⟨b₂, hb₂⟩ : ∃ b₂ : PageBuffer, b₂ = ⟨overwrite b₁.data (L.entriesOffset + 16 * pos) e⟩ := ⟨_, rfl⟩
  have hset : b₁.setEntry L pos e = some b₂ := by
    rw [setEntry, if_neg (by omega), if_pos (by omega), hb₂]
  have hentry : extract b₂.data (L.entriesOffset + 16 * pos) 16 = e := by
    rw [hb₂]
    exact extract_overwrite he.symm
  have hrest : ∀ o n, Apart o n (L.entriesOffset + 16 * pos) 16 →
      extract b₂.data o n = extract b₁.data o n := fun o n hon => by
    rw [hb₂]
    exact extract_overwrite_of_apart (by rwa [he])
  have hcount : ∀ o n, Apart o n uberHeaderSize 2 →
      extract (b₂.setCount (b.count + 1)).data o n = extract b₂.data o n := fun o n hon =>
    extract_overwrite_of_apart (by rwa [length_toLe])
  simp only [uberHeaderSize] at hoff hcount ⊢
  refine ⟨b₂.setCount (b.count + 1), ?_, ?_, hpos, fun i hi => ?_, fun o n hle hon => ?_⟩
  · rw [insert, if_neg (not_le.2 hcap), hfind]
    dsimp only
    rw [hb₁]
    dsimp only
    rw [hset]
  · have hget : extract (b₂.setCount (b.count + 1)).data uberHeaderSize 2 = toLe 2 (b.count + 1) :=
      extract_overwrite (length_toLe ..).symm
    rw [count, field, hget, ofLe_toLe (by simp only [pageBufSize] at hroom; omega)]
  · rw [rawEntry, hcount _ _ (by omega)]
    split_ifs with hlt heq
    · rw [hrest _ _ (by omega), hkept _ _ (by omega), rawEntry]
    · rw [heq, hentry]
    · have hmove := hmoved (i - 1) (by omega) (by omega)
      rw [show i - 1 + 1 = i by omega] at hmove
      rw [hrest _ _ (by omega), hmove]
  · rw [field, hcount _ _ hon, hrest _ _ (by omega), hkept _ _ (by omega), field]

/-- The entries after an insertion, as what their bytes are read as. -/
theorem map_rawEntry_insert {α : Type*} {b' : PageBuffer} (f : List UInt8 → α) (hpos : pos ≤ b.count)
    (h : ∀ i ≤ b.count, b'.rawEntry L i =
      if i < pos then b.rawEntry L i else if i = pos then e else b.rawEntry L (i - 1)) :
    (List.range (b.count + 1)).map (fun i => f (b'.rawEntry L i)) =
      ((List.range b.count).map fun i => f (b.rawEntry L i)).insertIdx pos (f e) := by
  refine List.ext_getElem? fun i => ?_
  have hget : ∀ j, ((List.range b.count).map fun i => f (b.rawEntry L i))[j]? =
      if j < b.count then some (f (b.rawEntry L j)) else none := by
    intro j
    split_ifs with hj <;> simp [hj]
  rw [List.getElem?_insertIdx, hget, hget, List.length_map, List.length_range]
  by_cases hi : i ≤ b.count
  · rw [List.getElem?_map, List.getElem?_range (Nat.lt_succ_of_le hi), Option.map_some, h i hi]
    split_ifs with h₁ h₂ <;> first | rfl | omega
  · rw [List.getElem?_eq_none (by simp; omega), if_neg (by omega), if_neg (by omega), if_neg (by omega)]

/-- **`insert_entry` and `insert_separator` return on every buffer.** -/
theorem insert_isSome (he : e.length = 16) (hoff : uberHeaderSize + 2 ≤ L.entriesOffset) :
    (b.insert L key e).isSome = true := by
  by_cases hcap : L.capacity ≤ b.count
  · rw [insert, if_pos hcap]
    rfl
  · have hfind : b.findSlot L key = _ := findSlot_eq (not_le.1 hcap).le
    rcases hsearch : bsearch (fun mid => compare (b.keyAt L mid) key) b.count 0 b.count with ⟨_ | _, pos⟩
    · rw [hsearch] at hfind
      obtain ⟨b', hinsert, -⟩ := insert_of_miss (not_le.1 hcap) hfind he hoff
      rw [hinsert]
      rfl
    · rw [hsearch] at hfind
      rw [insert_of_hit (not_le.1 hcap) hfind]
      rfl

end PageBuffer

/-! ### Leaf pages -/

namespace LeafBuffer

open PageBuffer

def layout : IndexLayout where
  entriesOffset := BTreeLeafPage.entriesOffset
  capacity := BTreeLeafPage.maxEntries
  fits i := by
    simp only [BTreeLeafPage.entriesOffset, BTreeLeafPage.maxEntries_eq, uberHeaderSize, pageBufSize]
    omega

/-- `from_buffer`. -/
def fromBuffer (b : PageBuffer) : Except PageTypeError PageBuffer := b.validateType .btreeLeaf

/-- `record_id` of an entry. -/
def recordIdOf (e : List UInt8) : RecordId := ⟨ofLe ((e.drop 8).take 4), ofLe ((e.drop 12).take 2)⟩

def findSlot (b : PageBuffer) (targetKey : ℕ) : Option (Bool × ℕ) := b.findSlot layout targetKey

def lookup (b : PageBuffer) (key : ℕ) : Option (Option RecordId) :=
  match findSlot b key with
  | none => none
  | some (true, pos) => (b.entryUnwrap layout pos).map fun e => some (recordIdOf e)
  | some (false, _) => some none

def insertEntry (b : PageBuffer) (key : ℕ) (recordPage : LPageId) (recordSlot : SlotId) :
    Option (PageBuffer × Except OverlayError Unit) :=
  b.insert layout key (toLe 8 key ++ toLe 4 recordPage ++ toLe 2 recordSlot ++ toLe 2 0)

variable {b : PageBuffer} {key : ℕ} {recordPage : LPageId} {recordSlot : SlotId}

/-- **`find_slot` returns** unless it probes past the end of the buffer. -/
theorem findSlot_isSome_iff : (findSlot b key).isSome = true ↔
    b.count ≤ BTreeLeafPage.maxEntries ∨ b.Turns layout (key ≤ ·) := PageBuffer.findSlot_isSome_iff

/-- **`lookup` returns if `find_slot` does.** -/
theorem lookup_isSome_iff : (lookup b key).isSome = true ↔
    b.count ≤ BTreeLeafPage.maxEntries ∨ b.Turns layout (key ≤ ·) := by
  rw [← findSlot_isSome_iff, lookup]
  rcases hfind : findSlot b key with _ | ⟨_ | _, pos⟩
  · rfl
  · rfl
  · obtain ⟨e, he⟩ := entryUnwrap_of_found hfind
    dsimp only
    rw [he]
    rfl

theorem length_newEntry : (toLe 8 key ++ toLe 4 recordPage ++ toLe 2 recordSlot ++ toLe 2 0).length = 16 := by
  simp

/-- **`insert_entry` returns.** -/
theorem insertEntry_isSome : (insertEntry b key recordPage recordSlot).isSome = true :=
  insert_isSome length_newEntry (by decide)

/-- An entry, from its bytes. -/
def entryOf (e : List UInt8) : BTreeLeafEntry := ⟨keyOf e, (recordIdOf e).pageId, (recordIdOf e).slotId⟩

/-- The page that a buffer holds. -/
def page (b : PageBuffer) : BTreeLeafPage where
  pageId := b.field 8 4
  nextPage := b.field (uberHeaderSize + 4) 4
  prevPage := b.field (uberHeaderSize + 8) 4
  entries := (List.range b.count).map fun i => entryOf (b.rawEntry layout i)

@[simp] theorem length_entries : (page b).entries.length = b.count := by simp [page]

theorem getElem?_entries {i : ℕ} (hi : i < b.count) :
    (page b).entries[i]? = some (entryOf (b.rawEntry layout i)) := by
  simp [page, hi]

/-- **`find_slot` is the search of the page.** -/
theorem findSlot_eq (hcap : b.count ≤ BTreeLeafPage.maxEntries) :
    findSlot b key = some ((page b).findSlot key) := by
  rw [findSlot, PageBuffer.findSlot_eq hcap, BTreeLeafPage.findSlot, Lib.findSlot, length_entries]
  congr 1
  refine bsearch_congr fun i hi => ?_
  rw [cmpAt, getElem?_entries hi]
  rfl

/-- **`lookup` is that of the page.** -/
theorem lookup_eq (hcap : b.count ≤ BTreeLeafPage.maxEntries) :
    lookup b key = some ((page b).lookup key) := by
  rw [lookup, BTreeLeafPage.lookup, findSlot_eq hcap]
  rcases hfind : (page b).findSlot key with ⟨_ | _, pos⟩
  · rfl
  · have hfound : b.findSlot layout key = some (true, pos) :=
      (findSlot_eq hcap).trans (congrArg some hfind)
    obtain ⟨e, he⟩ := entryUnwrap_of_found hfound
    obtain ⟨hpos, rfl⟩ := entryUnwrap_eq_some he
    dsimp only
    rw [he, getElem?_entries hpos]
    rfl

/-- The entry that `insert_entry` writes. -/
theorem entryOf_newEntry (hkey : key < 2 ^ 64) (hpage : recordPage < 2 ^ 32) (hslot : recordSlot < 2 ^ 16) :
    entryOf (toLe 8 key ++ toLe 4 recordPage ++ toLe 2 recordSlot ++ toLe 2 0) =
      ⟨key, recordPage, recordSlot⟩ := by
  have hk : keyOf (toLe 8 key ++ toLe 4 recordPage ++ toLe 2 recordSlot ++ toLe 2 0) = key := by
    rw [keyOf, List.append_assoc, List.append_assoc, List.take_left' (length_toLe ..), ofLe_toLe hkey]
  have hr : recordIdOf (toLe 8 key ++ toLe 4 recordPage ++ toLe 2 recordSlot ++ toLe 2 0) =
      ⟨recordPage, recordSlot⟩ := by
    rw [recordIdOf, List.append_assoc, List.append_assoc, List.drop_left' (length_toLe ..),
      List.take_left' (length_toLe ..), ofLe_toLe hpage, ← List.append_assoc,
      List.drop_left' (by simp), List.take_left' (length_toLe ..), ofLe_toLe hslot]
  rw [entryOf, hk, hr]

/-- **`insert_entry` is that of the page.** -/
theorem insertEntry_eq (hkey : key < 2 ^ 64) (hpage : recordPage < 2 ^ 32) (hslot : recordSlot < 2 ^ 16) :
    match (page b).insertEntry key recordPage recordSlot with
    | .ok p => ∃ b', insertEntry b key recordPage recordSlot = some (b', .ok ()) ∧ page b' = p
    | .error err => insertEntry b key recordPage recordSlot = some (b, .error err) := by
  rw [BTreeLeafPage.insertEntry, BTreeLeafPage.numEntries, length_entries]
  by_cases hcap : BTreeLeafPage.maxEntries ≤ b.count
  · rw [if_pos hcap]
    exact if_pos hcap
  · rw [if_neg hcap]
    have hsearch : b.findSlot layout key = some ((page b).findSlot key) := findSlot_eq (not_le.1 hcap).le
    rcases hfind : (page b).findSlot key with ⟨_ | _, pos⟩
    · rw [hfind] at hsearch
      obtain ⟨b', hinsert, hcount, hpos, hentries, hfields⟩ :=
        insert_of_miss (not_le.1 hcap) hsearch length_newEntry (by decide)
      refine ⟨b', hinsert, ?_⟩
      rw [page, hfields 8 4 (by decide) (by decide), hfields _ _ (by decide) (by decide),
        hfields _ _ (by decide) (by decide), hcount]
      rw [map_rawEntry_insert entryOf hpos hentries, entryOf_newEntry hkey hpage hslot]
      rfl
    · rw [hfind] at hsearch
      exact insert_of_hit (not_le.1 hcap) hsearch

end LeafBuffer

/-! ### Inner pages -/

namespace InnerBuffer

open PageBuffer

def layout : IndexLayout where
  entriesOffset := BTreeInnerPage.entriesOffset
  capacity := BTreeInnerPage.maxKeys
  fits i := by
    simp only [BTreeInnerPage.entriesOffset, BTreeInnerPage.maxKeys_eq, uberHeaderSize, pageBufSize]
    omega

/-- `from_buffer`. -/
def fromBuffer (b : PageBuffer) : Except PageTypeError PageBuffer := b.validateType .btreeInner

def leftmostChild (b : PageBuffer) : LPageId := b.field (uberHeaderSize + 4) 4

/-- `right_child` of an entry. -/
def rightChildOf (e : List UInt8) : LPageId := ofLe ((e.drop 8).take 4)

/-- The loop of `find_child`. -/
def findChildLoop (b : PageBuffer) (searchKey : ℕ) : ℕ → ℕ → ℕ → ℕ → Option ℕ
  | 0, _, _, result => some result
  | fuel + 1, left, right, result =>
    if left < right then
      let mid := left + (right - left) / 2
      match b.entryUnwrap layout mid with
      | none => none
      | some e =>
        if keyOf e ≤ searchKey then findChildLoop b searchKey fuel (mid + 1) right mid
        else findChildLoop b searchKey fuel left mid result
    else some result

def findChild (b : PageBuffer) (searchKey : ℕ) : Option LPageId :=
  if b.count = 0 then some (leftmostChild b)
  else
    match b.entryUnwrap layout 0 with
    | none => none
    | some first =>
      if searchKey < keyOf first then some (leftmostChild b)
      else
        match findChildLoop b searchKey b.count 0 b.count 0 with
        | none => none
        | some result => (b.entryUnwrap layout result).map rightChildOf

def insertSeparator (b : PageBuffer) (separatorKey : ℕ) (rightChild : LPageId) :
    Option (PageBuffer × Except OverlayError Unit) :=
  b.insert layout separatorKey (toLe 8 separatorKey ++ toLe 4 rightChild ++ toLe 4 0)

variable {b : PageBuffer} {key left right result : ℕ} {rightChild : LPageId}

/-- What the loop of `find_child` does at a separator. -/
def turn (key k : ℕ) : Ordering := if k ≤ key then .lt else .gt

theorem turn_ne_lt {k : ℕ} : turn key k ≠ .lt ↔ key < k := by
  rw [turn]
  split_ifs with h
  · exact iff_of_false (fun hne => hne rfl) (not_lt.2 h)
  · exact iff_of_true nofun (not_le.1 h)

/-- The loop returns where the search with its comparisons does. -/
theorem findChildLoop_isSome (fuel : ℕ) : (findChildLoop b key fuel left right result).isSome =
    (bsearchOn (fun mid => (b.entryUnwrap layout mid).map fun e => turn key (keyOf e)) fuel
      left right).isSome := by
  induction fuel generalizing left right result with
  | zero => rfl
  | succ fuel ih =>
    rw [findChildLoop, bsearchOn]
    split_ifs with hlt
    · dsimp only
      cases b.entryUnwrap layout (left + (right - left) / 2) with
      | none => rfl
      | some e =>
        dsimp only [Option.map_some, turn]
        split_ifs
        · exact ih
        · exact ih
    · rfl

/-- The index that the loop returns has been read, if the one it started with had. -/
theorem entryUnwrap_of_findChildLoop {fuel : ℕ} {r : ℕ}
    (hr : findChildLoop b key fuel left right result = some r)
    (hresult : (b.entryUnwrap layout result).isSome = true) :
    (b.entryUnwrap layout r).isSome = true := by
  induction fuel generalizing left right result with
  | zero =>
    cases hr
    exact hresult
  | succ fuel ih =>
    rw [findChildLoop] at hr
    split_ifs at hr with hlt
    · dsimp only at hr
      cases he : b.entryUnwrap layout (left + (right - left) / 2) with
      | none =>
        rw [he] at hr
        cases hr
      | some e =>
        rw [he] at hr
        dsimp only at hr
        split_ifs at hr
        · exact ih hr (by rw [he]; rfl)
        · exact ih hr hresult
    · cases hr
      exact hresult

/-- **When `find_child` returns.** -/
theorem findChild_isSome_iff : (findChild b key).isSome = true ↔
    b.count ≤ BTreeInnerPage.maxKeys ∨ key < b.keyAt layout 0 ∨ b.Turns layout (key < ·) := by
  rw [findChild]
  by_cases h0 : b.count = 0
  · rw [if_pos h0, h0]
    exact iff_of_true rfl (Or.inl (Nat.zero_le _))
  rw [if_neg h0, entryUnwrap_of_lt (by decide) (Nat.pos_of_ne_zero h0)]
  dsimp only
  rw [show keyOf (b.rawEntry layout 0) = b.keyAt layout 0 from rfl]
  by_cases hfirst : key < b.keyAt layout 0
  · rw [if_pos hfirst]
    exact iff_of_true rfl (Or.inr (Or.inl hfirst))
  rw [if_neg hfirst]
  have hloop : (findChildLoop b key b.count 0 b.count 0).isSome = true ↔
      b.count ≤ BTreeInnerPage.maxKeys ∨ b.Turns layout (key < ·) := by
    rw [findChildLoop_isSome, search_isSome_iff]
    simp only [turn_ne_lt]
    rfl
  rw [or_iff_right hfirst, ← hloop]
  cases hr : findChildLoop b key b.count 0 b.count 0 with
  | none => rfl
  | some r =>
    have hread := entryUnwrap_of_findChildLoop hr (by
      rw [entryUnwrap_of_lt (by decide) (Nat.pos_of_ne_zero h0)]
      rfl)
    dsimp only
    rw [Option.isSome_map, hread]
    rfl

theorem length_newEntry : (toLe 8 key ++ toLe 4 rightChild ++ toLe 4 0).length = 16 := by
  simp

/-- **`insert_separator` returns.** -/
theorem insertSeparator_isSome : (insertSeparator b key rightChild).isSome = true :=
  insert_isSome length_newEntry (by decide)

/-- An entry, from its bytes. -/
def entryOf (e : List UInt8) : BTreeInnerEntry := ⟨keyOf e, rightChildOf e⟩

/-- The page that a buffer holds. -/
def page (b : PageBuffer) : BTreeInnerPage where
  pageId := b.field 8 4
  leftmostChild := leftmostChild b
  entries := (List.range b.count).map fun i => entryOf (b.rawEntry layout i)

@[simp] theorem length_entries : (page b).entries.length = b.count := by simp [page]

theorem getElem?_entries {i : ℕ} (hi : i < b.count) :
    (page b).entries[i]? = some (entryOf (b.rawEntry layout i)) := by
  simp [page, hi]

/-- The loop of `find_child` is that of the page. -/
theorem findChildLoop_eq (hcap : b.count ≤ BTreeInnerPage.maxKeys) (hright : right ≤ b.count) (fuel : ℕ) :
    findChildLoop b key fuel left right result =
      some (BTreeInnerPage.findChildLoop (page b).entries key fuel left right result) := by
  induction fuel generalizing left right result with
  | zero => rfl
  | succ fuel ih =>
    rw [findChildLoop, BTreeInnerPage.findChildLoop]
    split_ifs with hlt
    · have hmid : left + (right - left) / 2 < b.count := by omega
      have hread : b.entryUnwrap layout (left + (right - left) / 2) = _ :=
        entryUnwrap_of_lt (hmid.trans_le hcap) hmid
      dsimp only
      rw [hread, getElem?_entries hmid]
      dsimp only [entryOf]
      split_ifs
      · exact ih hright
      · exact ih (by omega)
    · rfl

/-- `find_child` of a page with separators. -/
theorem findChild_of_first {p : BTreeInnerPage} {first : BTreeInnerEntry}
    (hfirst : p.entries[0]? = some first) : p.findChild key =
      if key < first.separatorKey then p.leftmostChild
      else
        match p.entries[BTreeInnerPage.findChildLoop p.entries key p.numKeys 0 p.numKeys 0]? with
        | some e => e.rightChild
        | none => p.leftmostChild := by
  obtain ⟨pageId, leftmostChild, entries⟩ := p
  cases entries with
  | nil => cases hfirst
  | cons e es =>
    obtain rfl : e = first := Option.some.inj hfirst
    rfl

/-- **`find_child` is that of the page.** -/
theorem findChild_eq (hcap : b.count ≤ BTreeInnerPage.maxKeys) :
    findChild b key = some ((page b).findChild key) := by
  rw [findChild]
  by_cases h0 : b.count = 0
  · have hnil : (page b).entries = [] := List.length_eq_zero_iff.1 (length_entries.trans h0)
    rw [if_pos h0, BTreeInnerPage.findChild, hnil]
    rfl
  · have hpos : 0 < b.count := Nat.pos_of_ne_zero h0
    have hzero : b.entryUnwrap layout 0 = _ := entryUnwrap_of_lt (hpos.trans_le hcap) hpos
    rw [if_neg h0, hzero, findChild_of_first (getElem?_entries hpos)]
    by_cases hlt : key < keyOf (b.rawEntry layout 0)
    · rw [if_pos (show key < (entryOf (b.rawEntry layout 0)).separatorKey from hlt)]
      exact if_pos hlt
    · have hloop : findChildLoop b key b.count 0 b.count 0 = _ := findChildLoop_eq hcap le_rfl b.count
      have hread := entryUnwrap_of_findChildLoop hloop (by
        rw [hzero]
        rfl)
      obtain ⟨e, he⟩ := Option.isSome_iff_exists.1 hread
      obtain ⟨hr, rfl⟩ := entryUnwrap_eq_some he
      rw [if_neg (show ¬ key < (entryOf (b.rawEntry layout 0)).separatorKey from hlt),
        BTreeInnerPage.numKeys, length_entries, getElem?_entries hr]
      dsimp only
      rw [if_neg hlt, hloop]
      dsimp only
      rw [he]
      rfl

/-- The search for a separator is that of the page. -/
theorem findSeparatorSlot_eq (hcap : b.count ≤ BTreeInnerPage.maxKeys) :
    b.findSlot layout key = some ((page b).findSeparatorSlot key) := by
  rw [PageBuffer.findSlot_eq hcap, BTreeInnerPage.findSeparatorSlot, Lib.findSlot, length_entries]
  congr 1
  refine bsearch_congr fun i hi => ?_
  rw [cmpAt, getElem?_entries hi]
  rfl

/-- The entry that `insert_separator` writes. -/
theorem entryOf_newEntry (hkey : key < 2 ^ 64) (hchild : rightChild < 2 ^ 32) :
    entryOf (toLe 8 key ++ toLe 4 rightChild ++ toLe 4 0) = ⟨key, rightChild⟩ := by
  rw [entryOf, keyOf, rightChildOf, List.append_assoc, List.take_left' (length_toLe ..), ofLe_toLe hkey,
    List.drop_left' (length_toLe ..), List.take_left' (length_toLe ..), ofLe_toLe hchild]

/-- **`insert_separator` is that of the page.** -/
theorem insertSeparator_eq (hkey : key < 2 ^ 64) (hchild : rightChild < 2 ^ 32) :
    match (page b).insertSeparator key rightChild with
    | .ok p => ∃ b', insertSeparator b key rightChild = some (b', .ok ()) ∧ page b' = p
    | .error err => insertSeparator b key rightChild = some (b, .error err) := by
  rw [BTreeInnerPage.insertSeparator, BTreeInnerPage.numKeys, length_entries]
  by_cases hcap : BTreeInnerPage.maxKeys ≤ b.count
  · rw [if_pos hcap]
    exact if_pos hcap
  · rw [if_neg hcap]
    have hsearch : b.findSlot layout key = some ((page b).findSeparatorSlot key) :=
      findSeparatorSlot_eq (not_le.1 hcap).le
    rcases hfind : (page b).findSeparatorSlot key with ⟨_ | _, pos⟩
    · rw [hfind] at hsearch
      obtain ⟨b', hinsert, hcount, hpos, hentries, hfields⟩ :=
        insert_of_miss (not_le.1 hcap) hsearch length_newEntry (by decide)
      refine ⟨b', hinsert, ?_⟩
      rw [page, leftmostChild, hfields 8 4 (by decide) (by decide), hfields _ _ (by decide) (by decide),
        hcount, map_rawEntry_insert entryOf hpos hentries, entryOf_newEntry hkey hchild]
      rfl
    · rw [hfind] at hsearch
      exact insert_of_hit (not_le.1 hcap) hsearch

end InnerBuffer

end Abdb
