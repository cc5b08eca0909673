/-
# `get` and `delete` on a heap file

Both look for a version under a record id (`fetch_slotted`, `fetch_not_has`).  `get` returns the
data of one that is visible; `delete` sets the XMAX of a visible one that has none, and
leaves the file alone otherwise (`delete_cases`).
-/

import Abdb.Heap.File

namespace Abdb
namespace Heap

variable {c c' : Contents} {rid rid' : RecordId} {t t' u : List UInt8} {st : Store} {txn : Txn}
  {v v' : Version}

/-- The file after a tuple is written over. -/
def Rewritten (c : Contents) (rid : RecordId) (t t' : List UInt8) (c' : Contents) : Prop :=
  ∃ xs ts ys, c = xs ++ (rid.pageId, ts) :: ys ∧ ts[rid.slotId]? = some t ∧
    c' = xs ++ (rid.pageId, ts.set rid.slotId t') :: ys

namespace Rewritten

theorem ids_eq (h : Rewritten c rid t t' c') : ids c' = ids c := by
  obtain ⟨xs, ts, ys, rfl, -, rfl⟩ := h
  simp [ids]

/-- **The other tuples stay.** -/
theorem has_iff (h : Rewritten c rid t t' c') (hc : (ids c).Nodup) :
    Has c' rid' u ↔ if rid' = rid then u = t' else Has c rid' u := by
  obtain ⟨xs, ts, ys, rfl, hget, rfl⟩ := h
  rw [ids_append] at hc
  have hx : rid.pageId ∉ ids xs := fun hx => (List.nodup_append.1 hc).2.2 _ hx _ List.mem_cons_self rfl
  have hy : rid.pageId ∉ ids ys := (List.nodup_cons.1 (List.nodup_append.1 hc).2.1).1
  rw [has_iff_of_cut hx hy, has_iff_of_cut hx hy]
  by_cases hpage : rid'.pageId = rid.pageId
  · rw [if_pos hpage, if_pos hpage]
    by_cases hslot : rid'.slotId = rid.slotId
    · obtain rfl : rid' = rid := by
        cases rid
        cases rid'
        simp_all
      rw [if_pos rfl, List.getElem?_set_self (List.getElem?_eq_some_iff.1 hget).1, Option.some.injEq,
        eq_comm]
    · rw [if_neg (fun heq : rid' = rid => hslot (congrArg _ heq)),
        List.getElem?_set_ne (Ne.symm hslot)]
  · rw [if_neg hpage, if_neg hpage, if_neg (fun heq : rid' = rid => hpage (congrArg _ heq))]

end Rewritten

/-- The pages of the file have a version under the record id. -/
def HasVersion (c : Contents) (rid : RecordId) (v : Version) : Prop := Has c rid v.bytes

theorem Version.bytes_inj : v.bytes = v'.bytes ↔ v = v' := by
  constructor
  · intro h
    have h₁ := congrArg readXmin h
    have h₂ := congrArg readXmax h
    have h₃ := congrArg (List.drop tupleHeaderSize) h
    rw [readXmin_bytes, readXmin_bytes] at h₁
    rw [readXmax_bytes, readXmax_bytes] at h₂
    rw [drop_bytes, drop_bytes] at h₃
    cases v
    cases v'
    simp_all
  · rintro rfl
    rfl

theorem HasVersion.unique (hc : (ids c).Nodup) (h : HasVersion c rid v) (h' : HasVersion c rid v') :
    v = v' := Version.bytes_inj.1 (Has.unique hc h h')

/-- The version in a slot of a page is found. -/
theorem fetch_slotted {p : HeapPage} {ts : List (List UInt8)} (hp : st.page rid.pageId = some p)
    (hts : p.Slotted ts) (hget : ts[rid.slotId]? = some v.bytes) :
    fetch st rid = .ok (p, v.bytes) := by
  have hlen := v.length_bytes
  rw [fetch, hp]
  dsimp only
  rw [hts.getData_eq, hget]
  dsimp only
  rw [if_neg]
  rintro (hnil | hlt)
  · rw [hnil, List.length_nil, tupleHeaderSize] at hlen
    omega
  · omega

/-- A slot without a version has nothing to be found. -/
theorem fetch_slotted_none {p : HeapPage} {ts : List (List UInt8)} (hp : st.page rid.pageId = some p)
    (hts : p.Slotted ts) (hno : ∀ v : Version, ts[rid.slotId]? ≠ some v.bytes) :
    fetch st rid = .error .tupleNonExistent := by
  rw [fetch, hp]
  dsimp only
  rw [hts.getData_eq]
  cases hget : ts[rid.slotId]? with
  | none => rfl
  | some t =>
    dsimp only
    refine if_pos (Or.inr (lt_of_not_ge fun hle => ?_))
    obtain ⟨v, rfl⟩ := exists_bytes hle
    exact hno v hget

/-- The transaction may delete the version. -/
def Deletable (txn : Txn) (v : Version) : Prop := passes v.xmin v.xmax txn = true ∧ v.xmax = 0

instance : Decidable (Deletable txn v) := inferInstanceAs (Decidable (_ ∧ _))

/-- **What `delete` does to a version in a slot**: it sets its XMAX if it is visible and has
none, else it fails. -/
theorem delete_slotted {p : HeapPage} {ts : List (List UInt8)} (hp : st.page rid.pageId = some p)
    (hts : p.Slotted ts) (hget : ts[rid.slotId]? = some v.bytes) (txn : Txn) :
    (Deletable txn v → delete st txn rid =
      (some (rid.pageId, writeXmax p rid.slotId txn.id), .ok ())) ∧
    (¬ Deletable txn v → ∃ e, delete st txn rid = (none, .error e)) := by
  have hdelete : delete st txn rid = if passes v.xmin v.xmax txn then
      if v.xmax ≠ 0 then (none, .error (.alreadyDeleted v.xmax))
      else (some (rid.pageId, writeXmax p rid.slotId txn.id), .ok ())
    else (none, .error (.tupleNotVisible txn.id v.xmin v.xmax)) := by
    rw [delete, fetch_slotted hp hts hget]
    dsimp only
    rw [Version.isVisible_bytes, Version.readXmin_bytes, Version.readXmax_bytes]
  refine ⟨fun ⟨hvis, hzero⟩ => ?_, fun hdel => ?_⟩
  · rw [hdelete, if_pos hvis, if_neg (not_not.2 hzero)]
  · by_cases hvis : passes v.xmin v.xmax txn = true
    · rw [if_pos hvis, if_pos fun hzero => hdel ⟨hvis, hzero⟩] at hdelete
      exact ⟨_, hdelete⟩
    · rw [if_neg hvis] at hdelete
      exact ⟨_, hdelete⟩

/-- The page with the XMAX set. -/
theorem slotted_writeXmax {p : HeapPage} {ts : List (List UInt8)} {i : SlotId} (hts : p.Slotted ts)
    (hget : ts[i]? = some v.bytes) (xmax : TxnId) :
    (writeXmax p i xmax).Slotted (ts.set i { v with xmax := xmax }.bytes) ∧
      (writeXmax p i xmax).nextPage = p.nextPage := by
  have hwrite := hts.write (l := Lib.toLe 8 xmax.toNat) hget (by simp)
  rwa [Lib.length_toLe] at hwrite

/-- A stored version is found. -/
theorem HasVersion.page (h : st.Holds c) (hv : HasVersion c rid v) : ∃ ts p, (rid.pageId, ts) ∈ c ∧
    ts[rid.slotId]? = some v.bytes ∧ st.page rid.pageId = some p ∧ p.Slotted ts := by
  obtain ⟨ts, hmem, hget⟩ := hv
  obtain ⟨-, p, hp, hts⟩ := h.chain.page_of_mem hmem
  exact ⟨ts, p, hmem, hget, hp, hts⟩

/-- Under a record id on a page of the file without a version nothing is found. -/
theorem fetch_not_has (h : st.Holds c) (hid : rid.pageId ∈ ids c) (hv : ∀ v, ¬ HasVersion c rid v) :
    fetch st rid = .error .tupleNonExistent := by
  obtain ⟨ts, hmem⟩ := mem_ids.1 hid
  obtain ⟨-, p, hp, hts⟩ := h.chain.page_of_mem hmem
  exact fetch_slotted_none hp hts fun v hget => hv v ⟨ts, hmem, hget⟩

/-- **`get` returns the data of a visible version.** -/
theorem get_has (h : st.Holds c) (hv : HasVersion c rid v) : get st txn rid =
    if passes v.xmin v.xmax txn then .ok v.data
    else .error (.tupleNotVisible txn.id v.xmin v.xmax) := by
  obtain ⟨ts, p, -, hget, hp, hts⟩ := hv.page h
  rw [get, fetch_slotted hp hts hget]
  dsimp only
  rw [Version.isVisible_bytes, Version.drop_bytes, Version.readXmin_bytes, Version.readXmax_bytes]

theorem get_not_has (h : st.Holds c) (hid : rid.pageId ∈ ids c) (hv : ∀ v, ¬ HasVersion c rid v) :
    get st txn rid = .error .tupleNonExistent := by
  rw [get, fetch_not_has h hid hv]

/-- **What `delete` does**: it sets the XMAX of a visible version without one, fails with no
change where the file has no such version, and writes to another page if the record id is
not of the file. -/
theorem delete_cases (h : st.Holds c) (txn : Txn) (rid : RecordId) :
    (∃ v c', HasVersion c rid v ∧ Deletable txn v ∧ (delete st txn rid).2 = .ok () ∧
      Rewritten c rid v.bytes { v with xmax := txn.id }.bytes c' ∧
      (st.put (delete st txn rid).1).Holds c' ∧
      ∀ q, q ∉ ids c → (st.put (delete st txn rid).1).page q = st.page q) ∨
    (∃ e, delete st txn rid = (none, .error e) ∧ ∀ v, HasVersion c rid v → ¬ Deletable txn v) ∨
    (rid.pageId ∉ ids c ∧ (st.put (delete st txn rid).1).Holds c) := by
  by_cases hid : rid.pageId ∈ ids c
  · by_cases hex : ∃ v, HasVersion c rid v
    · obtain ⟨v, hv⟩ := hex
      obtain ⟨ts, p, hmem, hget, hp, hts⟩ := hv.page h
      obtain ⟨hok, hfail⟩ := delete_slotted hp hts hget txn
      by_cases hdel : Deletable txn v
      · have hdelete := hok hdel
        obtain ⟨xs, ys, rfl, hx, hy⟩ := h.cut hmem
        obtain ⟨hslotted, hnext⟩ := slotted_writeXmax hts hget txn.id
        refine Or.inl ⟨v, _, hv, hdel, by rw [hdelete], ⟨xs, ts, ys, rfl, hget, rfl⟩, ?_, ?_⟩
        · rw [hdelete]
          exact h.replace hp hslotted hnext
        · intro q hq
          rw [hdelete]
          refine Function.update_of_ne (fun heq => hq ?_) ..
          rw [heq]
          exact hid
      · refine Or.inr (Or.inl ?_)
        obtain ⟨e, hdelete⟩ := hfail hdel
        refine ⟨e, hdelete, fun v' hv' => ?_⟩
        rwa [hv'.unique h.nodup hv]
    · refine Or.inr (Or.inl ⟨.tupleNonExistent, ?_, fun v hv => absurd ⟨v, hv⟩ hex⟩)
      rw [delete, fetch_not_has h hid (not_exists.1 hex)]
  · refine Or.inr (Or.inr ⟨hid, ?_⟩)
    rw [delete]
    cases fetch st rid with
    | error e => exact h
    | ok x =>
      dsimp only
      split_ifs
      · exact h
      · exact h.put_of_not_mem hid
      · exact h

end Heap
end Abdb
