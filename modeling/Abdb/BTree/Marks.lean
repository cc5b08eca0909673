/-
# Which writes of an insert are marked

`PageWriteGuard::mark_dirty` is a call of its own, and `insert` does not make it for every
page it writes to.  `Insert.unmarked` reads off the state before a step which pages the
step may change without it: the leaf that takes an entry in place, the page that keeps
the lower half of a split, the ancestor that takes a separator.  All other pages are
marked in the step that writes them (`Insert.resume_unmarked`, `Insert.resume_newPage`),
except the frame of a new root, which is filled and marked one await later
(`Insert.resume_newRoot`).
-/

import Abdb.BTree.Operations

namespace Abdb
namespace BTree

/-- The insert has returned an error. -/
def InsertPc.Failed (pc : InsertPc) : Prop := ∃ e, pc = .done (.error e)

namespace Insert

open BTreeInnerPage (maxKeys)

/-- The innermost latched ancestor, if it has room for a separator. -/
def roomyParent (view : View) : List LPageId → List LPageId
  | [] => []
  | parent :: _ =>
    match view.page parent with
    | some (.inner p) => if p.numKeys < maxKeys then [parent] else []
    | _ => []

/-- The pages the next step may change without a call of `mark_dirty`. -/
def unmarked (view : View) (key : ℕ) : InsertPc → List LPageId
  | .findLeafForWrite current _ =>
    match view.page current with
    | some (.leaf p) => if p.needsSplit ∨ (p.findSlot key).1 then [] else [current]
    | _ => []
  | .splitLeafAlloc leaf locked _ _ oldNext =>
    leaf :: if oldNext = 0 then roomyParent view locked else []
  | .splitLeafSibling _ locked _ _ _ => roomyParent view locked
  | .splitInnerAlloc parent locked .. => parent :: roomyParent view locked
  | _ => []

variable {view : View} {locked : List LPageId} {key m : ℕ} {rid : RecordId} {n newId p : LPageId}
  {ws : List Write} {w : Write} {pc : InsertPc}

/-- Writes make no other ancestor roomy. -/
theorem roomyParent_writePages
    (h : p ∈ roomyParent { view with page := writePages view.page ws } locked) :
    p ∈ roomyParent view locked ∨ ∃ w ∈ ws, w.id = p := by
  cases locked with
  | nil => cases h
  | cons parent rest =>
    by_cases hw : ∃ w ∈ ws, w.id = parent
    · have hp : p = parent := by
        unfold roomyParent at h
        dsimp only at h
        split at h
        · split_ifs at h
          · exact List.mem_singleton.1 h
          · cases h
        · cases h
      exact Or.inr (hp ▸ hw)
    · push Not at hw
      unfold roomyParent at h ⊢
      dsimp only at h
      rw [writePages_of_not_mem hw] at h
      exact Or.inl h

/-! ### Function by function -/

theorem mem_roomyParent {parent : LPageId} {rest : List LPageId} {i : BTreeInnerPage}
    (hp : view.page parent = some (.inner i)) (hroom : i.numKeys < maxKeys) :
    parent ∈ roomyParent view (parent :: rest) := by
  have heq : roomyParent view (parent :: rest) = [parent] := by
    unfold roomyParent
    simp only [hp]
    exact if_pos hroom
  rw [heq]
  exact List.mem_singleton.2 rfl

/-- `insert_into_ancestors_with_locks` writes to a roomy ancestor or not at all. -/
theorem mem_intoAncestors (h : w ∈ (insertIntoAncestorsWithLocks view locked m n).writes) :
    w.id ∈ roomyParent view locked := by
  unfold insertIntoAncestorsWithLocks splitInner at h
  split at h
  · cases h
  · rename_i parent rest
    rcases hp : view.page parent with _ | (_ | i | _) <;> rw [hp] at h <;> simp only [asInner] at h
    · cases h
    · cases h
    · split_ifs at h with hroom
      · split at h
        · obtain rfl : w = _ := List.mem_singleton.1 h
          exact mem_roomyParent hp hroom
        · cases h
      · split at h <;> cases h
    · cases h

theorem intoAncestors_ne {s c : ℕ} :
    (insertIntoAncestorsWithLocks view locked m n).pc ≠ .newRootHeader p s c := by
  unfold insertIntoAncestorsWithLocks splitInner
  split
  · exact nofun
  · split
    · exact nofun
    · split_ifs
      · split <;> exact nofun
      · split <;> exact nofun

/-- `split_leaf` marks the new leaf, and not the old one. -/
theorem splitLeafFinish_cases (leaf : LPageId) (entries : List BTreeLeafEntry)
    (oldPrev oldNext : LPageId) :
    ((splitLeafFinish view newId leaf locked entries oldPrev oldNext).pc.Failed ∧
      ∀ w ∈ (splitLeafFinish view newId leaf locked entries oldPrev oldNext).writes,
        w.id = newId ∨ w.id = leaf) ∨
    ∃ pn po sep,
      (oldNext = 0 ∧ splitLeafFinish view newId leaf locked entries oldPrev oldNext =
        (insertIntoAncestorsWithLocks { view with
          page := writePages view.page [⟨newId, pn, true⟩, ⟨leaf, po, false⟩] } locked sep
          newId).after [⟨newId, pn, true⟩, ⟨leaf, po, false⟩]) ∨
      splitLeafFinish view newId leaf locked entries oldPrev oldNext =
        ⟨[⟨newId, pn, true⟩, ⟨leaf, po, false⟩], none,
          .splitLeafSibling leaf locked newId sep oldNext⟩ := by
  unfold splitLeafFinish
  dsimp only
  split
  · exact Or.inl ⟨⟨_, rfl⟩, nofun⟩
  · split
    · exact Or.inl ⟨⟨_, rfl⟩, by simp⟩
    · split
      · exact Or.inl ⟨⟨_, rfl⟩, by simp⟩
      · split_ifs with h0
        · exact Or.inr ⟨_, _, _, Or.inl ⟨h0, rfl⟩⟩
        · exact Or.inr ⟨_, _, _, Or.inr rfl⟩

/-- `split_inner` marks the new page, and not the old one. -/
theorem splitInnerFinish_cases (parent : LPageId) (entries : List BTreeInnerEntry)
    (oldLeftmost : LPageId) :
    ((splitInnerFinish view newId parent locked entries oldLeftmost).pc.Failed ∧
      ∀ w ∈ (splitInnerFinish view newId parent locked entries oldLeftmost).writes,
        w.id = newId ∨ w.id = parent) ∨
    ∃ pn po sep, splitInnerFinish view newId parent locked entries oldLeftmost =
      (insertIntoAncestorsWithLocks { view with
        page := writePages view.page [⟨newId, pn, true⟩, ⟨parent, po, false⟩] } locked sep
        newId).after [⟨newId, pn, true⟩, ⟨parent, po, false⟩] := by
  unfold splitInnerFinish
  dsimp only
  split
  · exact Or.inl ⟨⟨_, rfl⟩, nofun⟩
  · split
    · exact Or.inl ⟨⟨_, rfl⟩, by simp⟩
    · split
      · exact Or.inl ⟨⟨_, rfl⟩, by simp⟩
      · exact Or.inr ⟨_, _, _, rfl⟩

/-- After the two halves of a split are written, what is not marked is the lower half or a
roomy ancestor. -/
theorem mem_after_split {old : LPageId} {pn po : Page} {sep : ℕ}
    (hw : w ∈ ((insertIntoAncestorsWithLocks { view with
      page := writePages view.page [⟨newId, pn, true⟩, ⟨old, po, false⟩] } locked sep
      newId).after [⟨newId, pn, true⟩, ⟨old, po, false⟩]).writes) (hne : w.id ≠ newId) :
    w.id = old ∨ w.id ∈ roomyParent view locked := by
  rcases List.mem_append.1 hw with hw | hw
  · have hcases : w = ⟨newId, pn, true⟩ ∨ w = ⟨old, po, false⟩ := by simpa using hw
    rcases hcases with rfl | rfl
    · exact absurd rfl hne
    · exact Or.inl rfl
  · rcases roomyParent_writePages (mem_intoAncestors hw) with h | ⟨x, hx, hid⟩
    · exact Or.inr h
    · have hcases : x = ⟨newId, pn, true⟩ ∨ x = ⟨old, po, false⟩ := by simpa using hx
      rcases hcases with rfl | rfl
      · exact absurd hid.symm hne
      · exact Or.inl hid.symm

/-! ### Step by step -/

/-- **A page that a step changes and never marks** is one `unmarked` names, but for the new
page when the insert fails. -/
theorem resume_unmarked (hw : w ∈ (resume key rid view newId pc).writes)
    (hmarks : ∀ x ∈ (resume key rid view newId pc).writes, x.id = w.id → x.marked = false) :
    w.id ∈ unmarked view key pc ∨ (resume key rid view newId pc).pc.Failed ∧
      (await pc = .newPage ∧ w.id = newId ∨ ∃ s c, pc = .newRootHeader w.id s c) := by
  cases pc with
  | start => cases hw
  | allocFirst =>
    rw [resume, firstLeaf] at hw hmarks
    split at hw
    · obtain rfl : w = _ := List.mem_singleton.1 hw
      rename_i heq
      rw [heq] at hmarks
      exact absurd (hmarks _ (List.mem_singleton.2 rfl) rfl) (by simp)
    · cases hw
  | setRoot newPage => cases hw
  | findLeafForWrite current locked =>
    left
    rw [resume, findLeafForWrite] at hw
    rw [unmarked]
    rcases hp : view.page current with _ | (l | i | o) <;> rw [hp] at hw <;>
      simp only [dispatch] at hw
    · cases hw
    · rw [intoLeaf] at hw
      dsimp only
      by_cases hs : l.needsSplit = true
      · rw [if_pos hs] at hw
        split at hw <;> cases hw
      · rw [if_neg hs] at hw
        split at hw
        · rename_i page' hins
          obtain rfl : w = _ := List.mem_singleton.1 hw
          rw [if_neg]
          · exact List.mem_singleton.2 rfl
          · rintro (h | h)
            · exact hs h
            · unfold BTreeLeafPage.insertEntry at hins
              rcases hslot : l.findSlot key with ⟨_ | _, pos⟩ <;> rw [hslot] at h hins
              · cases h
              · split_ifs at hins
        · cases hw
    · cases hw
    · rcases ht : PageType.tryFrom o.pageTypeId with _ | t <;> rw [ht] at hw <;> cases hw
  | splitLeafAlloc leaf locked entries oldPrev oldNext =>
    rw [resume] at hw hmarks ⊢
    rw [unmarked]
    rcases splitLeafFinish_cases leaf entries oldPrev oldNext with
      ⟨hfail, hids⟩ | ⟨pn, po, sep, ⟨h0, heq⟩ | heq⟩
    · rcases hids w hw with hid | hid
      · exact Or.inr ⟨hfail, Or.inl ⟨rfl, hid⟩⟩
      · exact Or.inl (hid ▸ List.mem_cons_self ..)
    · rw [heq] at hw hmarks
      rw [if_pos h0]
      by_cases hne : w.id = newId
      · exact absurd (hmarks ⟨newId, pn, true⟩ (List.mem_cons_self ..) hne.symm) (by simp)
      · exact Or.inl (List.mem_cons.2 (mem_after_split hw hne))
    · rw [heq] at hw hmarks
      have hcases : w = ⟨newId, pn, true⟩ ∨ w = ⟨leaf, po, false⟩ := by simpa using hw
      rcases hcases with rfl | rfl
      · exact absurd (hmarks _ (List.mem_cons_self ..) rfl) (by simp)
      · exact Or.inl (List.mem_cons_self ..)
  | splitLeafSibling leaf locked newLeaf sep oldNext =>
    left
    rw [resume, splitLeafSibling] at hw hmarks
    rw [unmarked]
    split at hw
    · cases hw
    · rename_i sib hsib
      rw [hsib] at hmarks
      rcases List.mem_append.1 hw with hw' | hw'
      · obtain rfl : w = _ := List.mem_singleton.1 hw'
        exact absurd (hmarks _ hw rfl) (by simp)
      · rcases roomyParent_writePages (mem_intoAncestors hw') with h | ⟨x, hx, hid⟩
        · exact h
        · obtain rfl : x = _ := List.mem_singleton.1 hx
          exact absurd (hmarks _ (List.mem_append_left _ hx) hid) (by simp)
  | splitInnerAlloc parent locked sep child entries oldLeftmost =>
    rw [resume] at hw hmarks ⊢
    rw [unmarked]
    rcases splitInnerFinish_cases parent entries oldLeftmost with
      ⟨hfail, hids⟩ | ⟨pn, po, sep, heq⟩
    · rcases hids w hw with hid | hid
      · exact Or.inr ⟨hfail, Or.inl ⟨rfl, hid⟩⟩
      · exact Or.inl (hid ▸ List.mem_cons_self ..)
    · rw [heq] at hw hmarks
      by_cases hne : w.id = newId
      · exact absurd (hmarks ⟨newId, pn, true⟩ (List.mem_cons_self ..) hne.symm) (by simp)
      · exact Or.inl (List.mem_cons.2 (mem_after_split hw hne))
  | newRootAlloc sep child => cases hw
  | newRootHeader newRoot sep child =>
    right
    rw [resume, newRootFinish] at hw hmarks ⊢
    split at hw
    · rename_i page' hins
      rw [hins] at hmarks
      obtain rfl : w = _ := List.mem_singleton.1 hw
      exact absurd (hmarks _ (List.mem_singleton.2 rfl) rfl) (by simp)
    · rename_i e hins
      obtain rfl : w = _ := List.mem_singleton.1 hw
      exact ⟨⟨_, rfl⟩, Or.inr ⟨_, _, rfl⟩⟩
  | done result => cases hw

/-- **A fresh page is marked** in the step that gets it, unless it is to be the root. -/
theorem resume_newPage (h : await pc = .newPage) :
    (∃ w ∈ (resume key rid view newId pc).writes, w.id = newId ∧ w.marked = true) ∨
      (∃ s c, (resume key rid view newId pc).pc = .newRootHeader newId s c) ∨
      (resume key rid view newId pc).pc.Failed := by
  cases pc with
  | allocFirst =>
    rw [resume, firstLeaf]
    split
    · exact Or.inl ⟨_, List.mem_singleton.2 rfl, rfl, rfl⟩
    · exact Or.inr (Or.inr ⟨_, rfl⟩)
  | splitLeafAlloc leaf locked entries oldPrev oldNext =>
    rw [resume]
    rcases splitLeafFinish_cases leaf entries oldPrev oldNext with
      ⟨hfail, -⟩ | ⟨pn, po, sep, ⟨-, heq⟩ | heq⟩
    · exact Or.inr (Or.inr hfail)
    · exact Or.inl ⟨⟨newId, pn, true⟩, heq ▸ List.mem_cons_self .., rfl, rfl⟩
    · exact Or.inl ⟨⟨newId, pn, true⟩, heq ▸ List.mem_cons_self .., rfl, rfl⟩
  | splitInnerAlloc parent locked sep child entries oldLeftmost =>
    rw [resume]
    rcases splitInnerFinish_cases parent entries oldLeftmost with
      ⟨hfail, -⟩ | ⟨pn, po, sep, heq⟩
    · exact Or.inr (Or.inr hfail)
    · exact Or.inl ⟨⟨newId, pn, true⟩, heq ▸ List.mem_cons_self .., rfl, rfl⟩
  | newRootAlloc sep child => exact Or.inr (Or.inl ⟨sep, child, rfl⟩)
  | _ => cases h

/-- **The new root is marked** once the header is latched. -/
theorem resume_newRoot (key : ℕ) (rid : RecordId) {s c : ℕ} :
    (∃ w ∈ (resume key rid view newId (.newRootHeader p s c)).writes, w.id = p ∧ w.marked = true) ∨
      (resume key rid view newId (.newRootHeader p s c)).pc.Failed := by
  rw [resume, newRootFinish]
  split
  · exact Or.inl ⟨_, List.mem_singleton.2 rfl, rfl, rfl⟩
  · exact Or.inr ⟨_, rfl⟩

/-- The root that waits for the header is the page just allocated. -/
theorem eq_newId_of_newRootHeader {s c : ℕ}
    (h : (resume key rid view newId pc).pc = .newRootHeader p s c) :
    await pc = .newPage ∧ p = newId := by
  cases pc with
  | newRootAlloc sep child =>
    simp only [resume, Out.goto, InsertPc.newRootHeader.injEq] at h
    exact ⟨rfl, h.1.symm⟩
  | start =>
    rw [resume, Out.goto] at h
    dsimp only at h
    split_ifs at h
  | allocFirst =>
    rw [resume, firstLeaf] at h
    split at h <;> cases h
  | findLeafForWrite current locked =>
    rw [resume, findLeafForWrite] at h
    split at h
    · cases h
    · cases h
    · rw [intoLeaf] at h
      split at h <;> split at h <;> cases h
  | splitLeafAlloc leaf locked entries oldPrev oldNext =>
    rw [resume] at h
    rcases splitLeafFinish_cases leaf entries oldPrev oldNext with
      ⟨⟨e, he⟩, -⟩ | ⟨pn, po, sep, ⟨-, heq⟩ | heq⟩
    · rw [he] at h
      cases h
    · rw [heq] at h
      exact absurd h intoAncestors_ne
    · rw [heq] at h
      cases h
  | splitLeafSibling leaf locked newLeaf sep oldNext =>
    rw [resume, splitLeafSibling] at h
    split at h
    · cases h
    · exact absurd h intoAncestors_ne
  | splitInnerAlloc parent locked sep child entries oldLeftmost =>
    rw [resume] at h
    rcases splitInnerFinish_cases parent entries oldLeftmost with
      ⟨⟨e, he⟩, -⟩ | ⟨pn, po, sep, heq⟩
    · rw [he] at h
      cases h
    · rw [heq] at h
      exact absurd h intoAncestors_ne
  | newRootHeader newRoot sep child =>
    rw [resume, newRootFinish] at h
    split at h <;> cases h
  | setRoot newPage => cases h
  | done result => cases h

end Insert

end BTree
end Abdb
