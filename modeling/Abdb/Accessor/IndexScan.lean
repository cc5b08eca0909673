/-
# `index_scan`

`index_scan` of `src/accessor/accessor_impl.rs` finds the file of an index by its oid and returns the stream
of `btree::scan` over it.  After any run of the accessor the stream yields the bindings that the index has
then, within the bounds and in key order, up to what `btree::scan` leaves out at an end key
(`index_scan_correct`): the pages of all the other files do not come into it.
-/

import Abdb.Accessor.Correct
import Abdb.BTree.ScanPrefix

namespace Abdb

open Catalog (Table Column Index)
open Lib Relation

/-- What a scan of the index with this oid returns: an error, or a stream with these items. -/
def Relations.Scans (R : Relations) (indexOid : OId) (start stop : Option (List UInt8))
    (r : Except AccessorError (Except BTree.Error (List BTree.ScanItem))) : Prop :=
  match R.indexes indexOid with
  | none => r = .error (.notFound ("index oid " ++ toString indexOid))
  | some index => ∃ rows, r = .ok (.ok (rows.map fun x => .ok (BTree.keyToBytes x.1, x.2))) ∧
    (R.bindings index.fileId).Scanned (start.map BTree.keyFromBytes) (stop.map BTree.keyFromBytes) rows

namespace AccessorImpl

/-- `index_scan`, with its stream drained. -/
def IndexScan (db : AccessorImpl) (indexOid : OId) (start stop : Option (List UInt8)) (db' : AccessorImpl)
    (r : Except AccessorError (Except BTree.Error (List BTree.ScanItem))) : Prop :=
  match db.indexFileId indexOid with
  | .error e => db' = db ∧ r = .error e
  | .ok file => ∃ result,
    Runs (BTree.Scan.machine (start.map BTree.keyFromBytes) (stop.map BTree.keyFromBytes)) db file .start
      (.done result) db' ∧
    match result with
    | .error e => r = .ok (.error e)
    | .ok s => ∃ items, r = .ok (.ok items) ∧ BTree.Drains (db'.indexStore file).view (.poll s) items

variable {db db₁ db₂ : AccessorImpl} {P : Parts} {R : Relations} {file : FileId} {indexOid : OId}
  {start stop : Option (List UInt8)} {r₁ r₂ : Except AccessorError (Except BTree.Error (List BTree.ScanItem))}

/-- An operation that leaves its index as it was leaves the pool so. -/
theorem putIndex_indexStore (db : AccessorImpl) (file : FileId) : db.putIndex file (db.indexStore file) = db := by
  have hpage : overlay (embed DbPage.index (pick DbPage.index? db.page)) db.page = db.page := by
    funext q
    rw [overlay, embed, pick]
    rcases db.page q with _ | p
    · rfl
    · cases p <;> rfl
  rw [putIndex, indexStore]
  dsimp only
  rw [hpage, Function.update_eq_self]

/-- **A scan has one outcome.** -/
theorem IndexScan.unique (h₁ : db.IndexScan indexOid start stop db₁ r₁)
    (h₂ : db.IndexScan indexOid start stop db₂ r₂) : db₁ = db₂ ∧ r₁ = r₂ := by
  unfold IndexScan at h₁ h₂
  cases hfile : db.indexFileId indexOid with
  | error e =>
    rw [hfile] at h₁ h₂
    obtain ⟨rfl, rfl⟩ := h₁
    obtain ⟨rfl, rfl⟩ := h₂
    exact ⟨rfl, rfl⟩
  | ok file =>
    rw [hfile] at h₁ h₂
    obtain ⟨result, hruns₁, hend₁⟩ := h₁
    obtain ⟨result', hruns₂, hend₂⟩ := h₂
    obtain ⟨rfl, hpc⟩ := hruns₁.unique hruns₂ rfl rfl
    cases hpc
    refine ⟨rfl, ?_⟩
    cases result with
    | error e => exact hend₁.trans hend₂.symm
    | ok s =>
      obtain ⟨items, rfl, hdrains₁⟩ := hend₁
      obtain ⟨items', rfl, hdrains₂⟩ := hend₂
      rw [hdrains₁.unique hdrains₂]

/-- **A scan of an index** of a pool that holds a database. -/
theorem Good.index_scan (h : Good db P R) (indexOid : OId) (start stop : Option (List UInt8)) :
    ∃ r, db.IndexScan indexOid start stop db r ∧ R.Scans indexOid start stop r := by
  cases hindex : R.indexes indexOid with
  | none =>
    have hfile : db.indexFileId indexOid = .error (.notFound ("index oid " ++ toString indexOid)) := by
      rw [indexFileId, CatalogCache.getIndexByOid, h.indexes, hindex]
    refine ⟨.error (.notFound ("index oid " ++ toString indexOid)), ?_, ?_⟩
    · rw [IndexScan, hfile]
      exact ⟨rfl, rfl⟩
    · rw [Relations.Scans, hindex]
  | some index =>
    have hfile : db.indexFileId indexOid = .ok index.fileId := by
      rw [indexFileId, CatalogCache.getIndexByOid, h.indexes, hindex]
    obtain ⟨rows, hscanned, s, hreturns, hdrains⟩ :=
      (h.index index.fileId).scans_over (pick DbPage.index? db.page) start stop
    have hstore := h.indexStore_eq index.fileId
    refine ⟨.ok (.ok (rows.map fun x => .ok (BTree.keyToBytes x.1, x.2))), ?_, ?_⟩
    · rw [IndexScan, hfile]
      refine ⟨.ok s, ⟨db.indexStore index.fileId, ?_, (db.putIndex_indexStore index.fileId).symm⟩, _, rfl, ?_⟩
      · rw [hstore]
        exact Database.index_run_of hreturns.2
      · rw [hstore]
        exact hdrains
    · rw [Relations.Scans, hindex]
      exact ⟨rows, rfl, hscanned⟩

/-- **`index_scan` reads the index of its oid.**  After any run of the accessor it returns a stream of the
bindings that the index has then, within the bounds and in key order, and changes nothing. -/
theorem index_scan_correct (n : LPageId) (hn : 1 ≤ n) (l : List (AccessorCall × AccessorReply)) (db : AccessorImpl)
    (htrace : Trace (.new n) l db) (hids : db.nextLpageId ≤ 2 ^ 32) (indexOid : OId)
    (start stop : Option (List UInt8)) :
    ∃ r, (∀ db' r', db.IndexScan indexOid start stop db' r' ↔ db' = db ∧ r' = r) ∧
      (Relations.new.afterAll l).Scans indexOid start stop r := by
  obtain ⟨-, P, hgood⟩ := (good_new hn).trace htrace hids
  obtain ⟨r, hscan, hans⟩ := hgood.index_scan indexOid start stop
  refine ⟨r, fun db' r' => ⟨fun hscan' => hscan'.unique hscan, ?_⟩, hans⟩
  rintro ⟨rfl, rfl⟩
  exact hscan

/-- An index registered, and a key inserted into it: a scan yields the key. -/
theorem index_scan_correct_one : ∃ l db, Trace (.new 1) l db ∧
    l.map Prod.fst = [.registerIndex ⟨9, "i", 7, 6, 1⟩, .index 9 (.insert [5] ⟨3, 0⟩)] ∧
      db.IndexScan 9 none none db (.ok (.ok [.ok ([5, 0, 0, 0, 0, 0, 0, 0], ⟨3, 0⟩)])) := by
  have hregister : (new 1).Exec (.registerIndex ⟨9, "i", 7, 6, 1⟩) _ (.registered (.ok ())) := rfl
  have hinsert : ((new 1).registerIndex ⟨9, "i", 7, 6, 1⟩).1.Exec (.index 9 (.insert [5] ⟨3, 0⟩)) _
      (.index (.ok (.unit (.ok ())))) :=
    ⟨_, rfl, _, .head rfl (.head rfl (.single rfl)), rfl⟩
  have hlegal : (new 1).Legal (.registerIndex ⟨9, "i", 7, 6, 1⟩) := trivial
  have hlegal' : ((new 1).registerIndex ⟨9, "i", 7, 6, 1⟩).1.Legal (.index 9 (.insert [5] ⟨3, 0⟩)) := trivial
  have htrace := Trace.cons hlegal hregister (.cons hlegal' hinsert (.nil _))
  obtain ⟨r, hscan, hans⟩ := index_scan_correct 1 le_rfl _ _ htrace (by decide : 2 ≤ 2 ^ 32) 9 none none
  refine ⟨_, _, htrace, rfl, (hscan _ _).2 ⟨rfl, ?_⟩⟩
  rw [Relations.Scans] at hans
  obtain ⟨rows, rfl, rest, ⟨hsorted, hmem⟩, hrest⟩ := hans
  obtain rfl : rest = [] := by
    by_contra hne
    exact (hrest hne).2.1 rfl
  rw [List.append_nil] at hsorted hmem
  have hbound : ∀ k r, ((∅ : BTree.Bindings).after (.insert [5] ⟨3, 0⟩)).lookup k = some r ↔ k = 5 ∧ r = ⟨3, 0⟩ := by
    intro k r
    have hkey : BTree.keyFromBytes [5] = 5 := rfl
    rw [BTree.Bindings.after, if_neg Finmap.notMem_empty, hkey]
    by_cases hk : k = 5
    · subst hk
      simp [eq_comm]
    · simp [hk]
  have hrows : rows = [(5, ⟨3, 0⟩)] := by
    refine hsorted.ext (List.pairwise_singleton ..) fun x => ?_
    have hnone : BTree.InBounds none none x.1 := ⟨by rintro s ⟨⟩, by rintro e ⟨⟩⟩
    refine (hmem x.1 x.2).trans ((and_iff_left hnone).trans ((hbound x.1 x.2).trans ?_))
    rw [List.mem_singleton, Prod.ext_iff]
  rw [hrows]
  rfl

end AccessorImpl
end Abdb
