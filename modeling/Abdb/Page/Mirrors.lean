/-
# The pages that buffers hold

The trees work on pages with a list of entries (`BTreeLeafPage`, `BTreeInnerPage`,
`DirectoryLeafPage`), the overlays on the bytes of a buffer.  A buffer holds such a page.  As long as
it has no more entries than fit, sorted or not, the methods do to its bytes what those of the tree do
to the page (`Mirrors`).
-/

import Abdb.Page.Routing
import Abdb.Page.SortedLeaf

namespace Abdb

open Lib PageBuffer

/-- A method of a buffer does what one of the page does that the buffer holds. -/
def Mirrors {P ρ : Type} (page : PageBuffer → P) (b : PageBuffer)
    (result : Option (PageBuffer × Except OverlayError ρ)) : Except OverlayError (P × ρ) → Prop
  | .ok (p, reply) => ∃ b', result = some (b', .ok reply) ∧ page b' = p
  | .error err => result = some (b, .error err)

/-- Deletion, on pages that an edit gives new entries. -/
theorem delete_mirrors {P : Type} {page : PageBuffer → P} {put : List (List UInt8) → P} {L : IndexLayout}
    {b : PageBuffer} (hoff : uberHeaderSize + 2 ≤ L.entriesOffset) (hcap : b.count ≤ L.capacity)
    (hput : ∀ {b' es}, Edited L b b' es → page b' = put es) (index : ℕ) : Mirrors page b (b.delete L index)
      (if b.count ≤ index then .error (.indexOutOfBounds index b.count)
      else .ok (put ((b.entries L).eraseIdx index), ())) := by
  by_cases hindex : b.count ≤ index
  · rw [if_pos hindex]
    exact if_pos hindex
  · obtain ⟨b', hdelete, hedit⟩ := delete_of_lt hoff hcap (not_le.1 hindex)
    rw [if_neg hindex]
    exact ⟨b', hdelete, hput hedit⟩

/-! ### Index pages -/

namespace LeafBuffer

variable {b b' : PageBuffer} {es : List (List UInt8)} {pageId : LPageId}

theorem entries_page : (page b).entries = (b.entries layout).map entryOf := by
  rw [entries, List.map_map]
  rfl

theorem page_of_edited (h : Edited layout b b' es) : page b' = { page b with entries := es.map entryOf } := by
  have hentries : (page b').entries = es.map entryOf := by rw [entries_page, h.entries]
  rw [← hentries, page, h.kept.field (by decide) (by decide), h.kept.field (by decide) (by decide),
    h.kept.field (by decide) (by decide)]
  rfl

theorem page_init (hid : pageId < 2 ^ 32) : page (init b pageId) = BTreeLeafPage.init pageId := by
  have hcount : (init b pageId).count = 0 := field_initUber le_rfl
  rw [page, hcount, init, pageId_initUber hid, field_initUber (by decide), field_initUber (by decide)]
  rfl

theorem page_setNextPage (hid : pageId < 2 ^ 32) :
    page (setNextPage b pageId) = (page b).setNextPage pageId := by
  have hentries : (page (b.setNextPage pageId)).entries = (page b).entries := by
    rw [entries_page, entries_page, setNextPage_eq, entries_write (by decide) (by rw [length_toLe]; decide)]
  rw [setNextPage, BTreeLeafPage.setNextPage, ← hentries, setNextPage_eq, page, BTreeLeafPage.mk.injEq]
  exact ⟨field_write (Or.inl (by decide)), field_write_self hid,
    field_write (Or.inr (by rw [length_toLe]; decide)), rfl⟩

theorem page_setPrevPage (hid : pageId < 2 ^ 32) :
    page (setPrevPage b pageId) = (page b).setPrevPage pageId := by
  have hentries : (page (b.setPrevPage pageId)).entries = (page b).entries := by
    rw [entries_page, entries_page, setPrevPage_eq, entries_write (by decide) (by rw [length_toLe]; decide)]
  rw [setPrevPage, BTreeLeafPage.setPrevPage, ← hentries, setPrevPage_eq, page, BTreeLeafPage.mk.injEq]
  exact ⟨field_write (Or.inl (by decide)), field_write (Or.inl (by decide)), field_write_self hid, rfl⟩

/-- **`delete_entry`.** -/
theorem deleteEntry_mirrors (hcap : b.count ≤ BTreeLeafPage.maxEntries) (index : ℕ) :
    Mirrors page b (deleteEntry b index) (((page b).deleteEntry index).map (·, ())) := by
  rw [BTreeLeafPage.deleteEntry, BTreeLeafPage.numEntries, length_entries, entries_page, List.eraseIdx_map,
    apply_ite (Except.map (·, ()))]
  exact delete_mirrors (by decide) hcap page_of_edited index

end LeafBuffer

namespace InnerBuffer

variable {b b' : PageBuffer} {es : List (List UInt8)} {pageId : LPageId}

/-- `init` leaves the uber header as `initUber` has written it. -/
theorem page_init (hid : pageId < 2 ^ 32) (leftmostChild : UInt32) :
    page (init b pageId leftmostChild.toNat) = BTreeInnerPage.init pageId leftmostChild.toNat := by
  have hcount : (init b pageId leftmostChild.toNat).count = 0 := count_initInner
  have huber : (init b pageId leftmostChild.toNat).field 8 4 = pageId :=
    (field_write (Or.inl (by decide))).trans (pageId_initUber hid)
  rw [page, hcount, huber, init, leftmostChild_initInner]
  rfl

theorem page_of_edited (h : Edited layout b b' es) : page b' = { page b with entries := es.map entryOf } := by
  have hentries : (page b').entries = es.map entryOf := by rw [entries_page, h.entries]
  rw [← hentries, page, leftmostChild_of_kept h.kept, h.kept.field (by decide) (by decide)]
  rfl

/-- **`delete_separator`.** -/
theorem deleteSeparator_mirrors (hcap : b.count ≤ BTreeInnerPage.maxKeys) (index : ℕ) :
    Mirrors page b (deleteSeparator b index) (((page b).deleteSeparator index).map (·, ())) := by
  rw [BTreeInnerPage.deleteSeparator, BTreeInnerPage.numKeys, length_entries, entries_page,
    List.eraseIdx_map, apply_ite (Except.map (·, ()))]
  exact delete_mirrors (by decide) hcap page_of_edited index

end InnerBuffer

/-! ### Leaf pages of the directory -/

namespace DirectoryLeafBuffer

/-- The page that a buffer holds. -/
def page (b : PageBuffer) : DirectoryLeafPage where
  pageId := b.field 8 4
  nextPage := b.field (uberHeaderSize + 4) 4
  prevPage := b.field (uberHeaderSize + 8) 4
  entries := (b.entries layout).map entryOf

variable {b b' : PageBuffer} {es : List (List UInt8)} {key : ℕ} {pageId : LPageId} {ppageId : PPageId}

theorem numEntries_page : (page b).numEntries = b.count := by
  rw [DirectoryLeafPage.numEntries, page, List.length_map, PageBuffer.length_entries]

theorem page_of_edited (h : Edited layout b b' es) : page b' = { page b with entries := es.map entryOf } := by
  rw [page, h.entries, h.kept.field (by decide) (by decide), h.kept.field (by decide) (by decide),
    h.kept.field (by decide) (by decide)]
  rfl

theorem page_init (hid : pageId < 2 ^ 32) : page (init b pageId) = DirectoryLeafPage.init pageId := by
  have hcount : (init b pageId).count = 0 := field_initUber le_rfl
  rw [page, entries_eq_nil hcount, init, pageId_initUber hid, field_initUber (by decide),
    field_initUber (by decide)]
  rfl

theorem page_setNextPage (hid : pageId < 2 ^ 32) :
    page (setNextPage b pageId) = (page b).setNextPage pageId := by
  rw [setNextPage, setNextPage_eq, DirectoryLeafPage.setNextPage, page,
    entries_write (by decide) (by rw [length_toLe]; decide), DirectoryLeafPage.mk.injEq]
  exact ⟨field_write (Or.inl (by decide)), field_write_self hid,
    field_write (Or.inr (by rw [length_toLe]; decide)), rfl⟩

theorem page_setPrevPage (hid : pageId < 2 ^ 32) :
    page (setPrevPage b pageId) = (page b).setPrevPage pageId := by
  rw [setPrevPage, setPrevPage_eq, DirectoryLeafPage.setPrevPage, page,
    entries_write (by decide) (by rw [length_toLe]; decide), DirectoryLeafPage.mk.injEq]
  exact ⟨field_write (Or.inl (by decide)), field_write (Or.inl (by decide)), field_write_self hid, rfl⟩

section Capacity

variable (hcap : b.count ≤ DirectoryLeafPage.maxEntries)
include hcap

/-- **`find_slot`.** -/
theorem findSlot_page : b.findSlot layout key = some ((page b).findSlot key) := by
  have hkey : ∀ e, (entryOf e).searchKey = keyOf e := fun _ => rfl
  rw [findSlot_eq_entries hcap, DirectoryLeafPage.findSlot, page, findSlot_map hkey]

/-- The entry that a search has found. -/
theorem getElem?_of_found {pos : ℕ} (h : (page b).findSlot key = (true, pos)) :
    pos < b.count ∧ b.entryUnwrap layout pos = some (b.rawEntry layout pos) := by
  have hfound : b.findSlot layout key = some (true, pos) := (findSlot_page hcap).trans (congrArg some h)
  obtain ⟨e, he⟩ := entryUnwrap_of_found hfound
  obtain ⟨hpos, rfl⟩ := entryUnwrap_eq_some he
  exact ⟨hpos, he⟩

/-- **`lookup`.** -/
theorem lookup_page : lookup b key = some ((page b).lookup key) := by
  rw [lookup, PageBuffer.lookup, DirectoryLeafPage.lookup, findSlot_page hcap]
  rcases hfind : (page b).findSlot key with ⟨_ | _, pos⟩
  · rfl
  · obtain ⟨hpos, hread⟩ := getElem?_of_found hcap hfind
    have hget : (page b).entries[pos]? = some (entryOf (b.rawEntry layout pos)) := by
      rw [page, List.getElem?_map, getElem?_entries, if_pos hpos, Option.map_some]
    dsimp only
    rw [hread, hget]
    rfl

/-- **`delete_entry`.** -/
theorem deleteEntry_mirrors (index : ℕ) :
    Mirrors page b (deleteEntry b index) (((page b).deleteEntry index).map (·, ())) := by
  have hentries : (page b).entries = (b.entries layout).map entryOf := rfl
  rw [DirectoryLeafPage.deleteEntry, numEntries_page, hentries, List.eraseIdx_map,
    apply_ite (Except.map (·, ()))]
  exact delete_mirrors (by decide) hcap page_of_edited index

/-- **`delete_by_key`.** -/
theorem deleteByKey_mirrors (key : ℕ) : Mirrors page b (deleteByKey b key) ((page b).deleteByKey key) := by
  rw [deleteByKey, PageBuffer.deleteByKey, DirectoryLeafPage.deleteByKey, findSlot_page hcap]
  rcases hfind : (page b).findSlot key with ⟨_ | _, pos⟩
  · exact ⟨b, rfl, rfl⟩
  · obtain ⟨hpos, -⟩ := getElem?_of_found hcap hfind
    obtain ⟨b', hdelete, hedit⟩ := delete_of_lt (L := layout) (by decide) hcap hpos
    dsimp only
    rw [hdelete, DirectoryLeafPage.deleteEntry, numEntries_page, if_neg (not_le.2 hpos), page,
      List.eraseIdx_map]
    exact ⟨b', rfl, page_of_edited hedit⟩

variable (hid : pageId < 2 ^ 32) (hfile : ppageId.file < 2 ^ 32)
include hid hfile

omit hcap in
theorem entryOf_newEntry : entryOf (DirectoryLeafEntry.fromPPageId pageId ppageId).bytes =
    DirectoryLeafEntry.fromPPageId pageId ppageId :=
  entryOf_bytes (hid.trans (by decide)) hfile

/-- **`insert_entry`.** -/
theorem insertEntry_mirrors : Mirrors page b (insertEntry b pageId ppageId)
    (((page b).insertEntry pageId ppageId).map (·, ())) := by
  rw [DirectoryLeafPage.insertEntry, numEntries_page]
  by_cases hfull : DirectoryLeafPage.maxEntries ≤ b.count
  · rw [if_pos hfull]
    exact if_pos hfull
  · rw [if_neg hfull]
    have hsearch : b.findSlot layout pageId = some ((page b).findSlot pageId) := findSlot_page hcap
    rcases hfind : (page b).findSlot pageId with ⟨_ | _, pos⟩
    · rw [hfind] at hsearch
      obtain ⟨b', hinsert, hedit⟩ := insert_of_absent (by decide) (not_le.1 hfull) hsearch
        (length_bytes (DirectoryLeafEntry.fromPPageId pageId ppageId))
      refine ⟨b', hinsert, ?_⟩
      rw [page_of_edited hedit, List.map_insertIdx, entryOf_newEntry hid hfile]
      rfl
    · rw [hfind] at hsearch
      exact insert_of_hit (not_le.1 hfull) hsearch

/-- **`update_entry`.** -/
theorem updateEntry_mirrors :
    Mirrors page b (updateEntry b pageId ppageId) ((page b).updateEntry pageId ppageId) := by
  rw [updateEntry, PageBuffer.update, DirectoryLeafPage.updateEntry, findSlot_page hcap]
  rcases hfind : (page b).findSlot pageId with ⟨_ | _, pos⟩
  · exact ⟨b, rfl, rfl⟩
  · obtain ⟨hpos, -⟩ := getElem?_of_found hcap hfind
    obtain ⟨b', hset, hedit⟩ := setEntry_of_lt (L := layout) (by decide) hcap hpos
      (length_bytes (DirectoryLeafEntry.fromPPageId pageId ppageId))
    dsimp only
    rw [hset]
    refine ⟨b', rfl, ?_⟩
    rw [page_of_edited hedit, List.map_set, entryOf_newEntry hid hfile]
    rfl

end Capacity

end DirectoryLeafBuffer
end Abdb
