/-
# Scans of one transaction

What other transactions change between two scans of a transaction at snapshot isolation.
Visibility compares ids, so what a transaction with a larger id does is never seen, and what
one with a smaller id does always is: the second scan yields the rows of the first and those
that smaller transactions have inserted meanwhile, without those that they have deleted
(`snapshot_scan`).
-/

import Abdb.Heap.Table

namespace Abdb
namespace Heap

variable {st st₁ st' : Store} {c c' : Contents} {t txn : Txn} {tuple d : List UInt8} {rid rid' : RecordId}
  {call : Call} {reply : Reply} {l : List (Call × Reply)} {x : Call × Reply} {v : Version}

/-- A row of the scan by a transaction. -/
def Store.Shows (st : Store) (t : Txn) (d : List UInt8) (rid : RecordId) : Prop :=
  ∃ items, Drains st (.loop (scan st t)) items ∧ .ok (d, rid) ∈ items

/-- The store is a heap file. -/
def Store.IsFile (st : Store) : Prop := ∃ c, st.Holds c

/-- An insert or a delete by a transaction with another id. -/
def Call.ByOther (t : Txn) : Call → Prop
  | .insert txn _ | .delete txn _ => txn.id ≠ t.id
  | _ => False

/-- A smaller transaction inserts the row. -/
def Bears (t : Txn) (x : Call × Reply) (d : List UInt8) (rid : RecordId) : Prop :=
  ∃ txn : Txn, txn.id < t.id ∧ x = (.insert txn d, .inserted (.ok rid))

/-- A smaller transaction deletes the row. -/
def Kills (t : Txn) (x : Call × Reply) (rid : RecordId) : Prop :=
  ∃ txn : Txn, txn.id ≠ 0 ∧ txn.id < t.id ∧ x = (.delete txn rid, .deleted (.ok ()))

theorem Store.Holds.shows_iff (h : st.Holds c) :
    st.Shows t d rid ↔ ∃ v, HasVersion c rid v ∧ passes v.xmin v.xmax t = true ∧ d = v.data := by
  have hrows : st.Shows t d rid ↔ (d, rid) ∈ scanRows t c := by
    constructor
    · rintro ⟨items, hdrains, hmem⟩
      obtain rfl := hdrains.unique (h.drains t)
      obtain ⟨row, hrow, heq⟩ := List.mem_map.1 hmem
      rwa [← Except.ok.inj heq]
    · exact fun hmem => ⟨_, h.drains t, List.mem_map_of_mem hmem⟩
  rw [hrows, mem_scanRows]
  constructor
  · rintro ⟨u, hu, hvis, rfl⟩
    have hlen : tupleHeaderSize ≤ u.length := by
      by_contra hlt
      rw [isVisible, if_pos (not_le.1 hlt)] at hvis
      cases hvis
    obtain ⟨v, rfl⟩ := exists_bytes hlen
    exact ⟨v, hu, Version.isVisible_bytes.symm.trans hvis, Version.drop_bytes⟩
  · rintro ⟨v, hv, hvis, rfl⟩
    exact ⟨v.bytes, hv, Version.isVisible_bytes.trans hvis, Version.drop_bytes.symm⟩

/-! ### One call -/

/-- The record id is taken: there is a tuple under it, or its page is not of the file. -/
def Used (st : Store) (c : Contents) (rid : RecordId) : Prop :=
  (∃ u, Has c rid u) ∨ st.page rid.pageId ≠ none ∧ rid.pageId ∉ ids c

/-- What a call by another transaction does to the rows that a transaction sees. -/
structure Changes (t : Txn) (x : Call × Reply) (st : Store) (c : Contents) (st' : Store)
    (c' : Contents) : Prop where
  holds : st'.Holds c'
  used : ∀ rid, Used st c rid → Used st' c' rid
  born : ∀ d rid, Bears t x d rid → ¬ Used st c rid
  dead : ∀ rid, Kills t x rid → Used st' c' rid
  shows : ∀ d rid, st'.Shows t d rid ↔ (st.Shows t d rid ∨ Bears t x d rid) ∧ ¬ Kills t x rid

/-- An insert by another transaction is seen if its id is smaller. -/
theorem changes_insert (h : st.Holds c) (ht : t.isolation = .snapshot) (hid : txn.id ≠ t.id)
    {r : Except Error RecordId} (hexec : st.Exec (.insert txn tuple) st' (.inserted r)) :
    ∃ c', Changes t (.insert txn tuple, .inserted r) st c st' c' := by
  have hkills : ∀ rid, ¬ Kills t (.insert txn tuple, .inserted r) rid := by
    rintro rid ⟨txn', -, -, heq⟩
    cases heq
  rcases Insert.returns_cases h hexec with ⟨rid, rfl, c', hst', hadd, hplace, hpages⟩ |
      ⟨e, rfl, -, hst', hpages⟩
  · rw [Version.bytes_new] at hadd
    have hnot : ¬ Used st c rid := by
      rintro (⟨u, hu⟩ | ⟨hne, hmem⟩)
      · exact hadd.not_has h.nodup hu
      · exact hplace.elim hmem hne
    refine ⟨c', hst', fun rid' hused => ?_, fun d rid' hb => ?_, fun rid' hk => absurd hk (hkills _),
      fun d rid' => ?_⟩
    · have hne : rid' ≠ rid := fun heq => hnot (heq ▸ hused)
      rcases hused with ⟨u, hu⟩ | ⟨hpage, hmem⟩
      · exact Or.inl ⟨u, (hadd.has_iff h.nodup).2 (by rwa [if_neg hne])⟩
      · refine Or.inr ⟨(hpages _).2 (Or.inl hpage), fun hmem' => ?_⟩
        rcases hadd.mem_ids.1 hmem' with hmem' | heq
        · exact hmem hmem'
        · rw [heq] at hmem hpage
          exact hplace.elim hmem hpage
    · obtain ⟨txn', -, heq⟩ := hb
      cases heq
      exact hnot
    · rw [and_iff_left (hkills _), hst'.shows_iff, h.shows_iff]
      have hiff : ∀ v, HasVersion c' rid' v ↔ if rid' = rid then v = ⟨txn.id, 0, tuple⟩
          else HasVersion c rid' v := by
        intro v
        rw [HasVersion, hadd.has_iff h.nodup, Version.bytes_inj]
        rfl
      simp only [hiff]
      by_cases hrid : rid' = rid
      · subst hrid
        simp only [if_true, exists_eq_left]
        have hold : ¬ ∃ v, HasVersion c rid' v ∧ passes v.xmin v.xmax t = true ∧ d = v.data := by
          rintro ⟨v, hv, -⟩
          exact hnot (Or.inl ⟨_, hv⟩)
        rw [or_iff_right hold, passes, ht]
        simp only [decide_true, Bool.true_or, Bool.and_true, decide_eq_true_eq]
        constructor
        · rintro ⟨hle, rfl⟩
          exact ⟨txn, UInt64.lt_of_le_of_ne hle hid, rfl⟩
        · rintro ⟨txn', hlt, heq⟩
          cases heq
          exact ⟨UInt64.le_of_lt hlt, rfl⟩
      · simp only [if_neg hrid]
        refine (or_iff_left ?_).symm
        rintro ⟨txn', -, heq⟩
        cases heq
        exact hrid rfl
  · have hbears : ∀ d rid, ¬ Bears t (.insert txn tuple, .inserted (.error e)) d rid := by
      rintro d rid ⟨txn', -, heq⟩
      cases heq
    refine ⟨c, hst', fun rid hused => hused.imp_right fun hor => ⟨hpages _ hor.1, hor.2⟩,
      fun d rid hb => absurd hb (hbears _ _), fun rid hk => absurd hk (hkills _), fun d rid => ?_⟩
    rw [and_iff_left (hkills _), or_iff_left (hbears _ _), hst'.shows_iff, h.shows_iff]

/-- A delete by another transaction is seen if its id is smaller. -/
theorem changes_delete (h : st.Holds c) (ht : t.isolation = .snapshot) (hid : txn.id ≠ t.id)
    (rid : RecordId) : ∃ c', Changes t (.delete txn rid, .deleted (delete st txn rid).2) st c
      (st.put (delete st txn rid).1) c' := by
  have hbears : ∀ d rid', ¬ Bears t (.delete txn rid, .deleted (delete st txn rid).2) d rid' := by
    rintro d rid' ⟨txn', -, heq⟩
    cases heq
  have hkills : ∀ rid', Kills t (.delete txn rid, .deleted (delete st txn rid).2) rid' ↔
      rid' = rid ∧ txn.id ≠ 0 ∧ txn.id < t.id ∧ (delete st txn rid).2 = .ok () := by
    intro rid'
    constructor
    · rintro ⟨txn', h0, hlt, heq⟩
      simp only [Prod.mk.injEq, Call.delete.injEq, Reply.deleted.injEq] at heq
      obtain ⟨⟨rfl, rfl⟩, hok⟩ := heq
      exact ⟨rfl, h0, hlt, hok⟩
    · rintro ⟨rfl, h0, hlt, hok⟩
      exact ⟨txn, h0, hlt, by rw [hok]⟩
  have hpages : ∀ q, st.page q ≠ none → (st.put (delete st txn rid).1).page q ≠ none := by
    intro q hq
    cases (delete st txn rid).1 with
    | none => exact hq
    | some w =>
      rcases eq_or_ne q w.1 with rfl | hne
      · rw [Store.page_put_self]
        exact Option.some_ne_none _
      · rwa [Store.page_put_of_ne hne]
  rcases delete_cases h txn rid with ⟨v, c', hv, ⟨hvis, hzero⟩, hok, hre, hst', -⟩ | ⟨e, heq, hnot⟩ |
      ⟨hmem, hst'⟩
  · have hiff : ∀ rid' v', HasVersion c' rid' v' ↔ if rid' = rid then v' = { v with xmax := txn.id }
        else HasVersion c rid' v' := by
      intro rid' v'
      rw [HasVersion, hre.has_iff h.nodup, Version.bytes_inj]
      rfl
    have hkeep : ∀ rid', Used st c rid' → Used (st.put (delete st txn rid).1) c' rid' := by
      rintro rid' (⟨u, hu⟩ | ⟨hne, hnm⟩)
      · by_cases hrid : rid' = rid
        · exact Or.inl ⟨_, (hre.has_iff h.nodup).2 (by rw [if_pos hrid])⟩
        · exact Or.inl ⟨u, (hre.has_iff h.nodup).2 (by rwa [if_neg hrid])⟩
      · exact Or.inr ⟨hpages _ hne, by rwa [hre.ids_eq]⟩
    refine ⟨c', hst', hkeep, fun d rid' hb => absurd hb (hbears _ _), fun rid' hk => ?_,
      fun d rid' => ?_⟩
    · obtain ⟨rfl, -⟩ := (hkills rid').1 hk
      exact hkeep rid' (Or.inl ⟨_, hv⟩)
    · rw [or_iff_left (hbears _ _), hkills, hst'.shows_iff, h.shows_iff]
      simp only [hiff]
      by_cases hrid : rid' = rid
      · subst hrid
        have hone : (∃ v', HasVersion c rid' v' ∧ passes v'.xmin v'.xmax t = true ∧ d = v'.data) ↔
            passes v.xmin v.xmax t = true ∧ d = v.data := by
          constructor
          · rintro ⟨v', hv', hrest⟩
            rwa [hv'.unique h.nodup hv] at hrest
          · exact fun hrest => ⟨v, hv, hrest⟩
        rw [hone, hok]
        simp only [if_true, exists_eq_left, passes, ht, hzero, decide_true, Bool.true_or,
          Bool.and_true, Bool.and_eq_true, Bool.or_eq_true, decide_eq_true_eq, true_and, and_true]
        have hcmp : (txn.id = 0 ∨ t.id < txn.id) ↔ ¬ (txn.id ≠ 0 ∧ txn.id < t.id) := by
          rw [not_and_or, not_not, UInt64.not_lt]
          exact or_congr_right ⟨UInt64.le_of_lt, fun hle => UInt64.lt_of_le_of_ne hle hid.symm⟩
        rw [hcmp]
        tauto
      · simp only [hrid, if_false, false_and, not_false_eq_true, and_true]
  · rw [heq]
    refine ⟨c, h, fun _ => id, fun d rid' hb => absurd hb ?_, fun rid' hk => absurd hk ?_,
      fun d rid' => ?_⟩
    · rintro ⟨txn', -, hx⟩
      cases hx
    · rintro ⟨txn', -, -, hx⟩
      cases hx
    · rw [heq] at hbears hkills
      rw [or_iff_left (hbears _ _), hkills]
      simp only [reduceCtorEq, and_false, not_false_eq_true, and_true]
      rfl
  · refine ⟨c, hst', fun rid' hused => hused.imp_right fun hor => ⟨hpages _ hor.1, hor.2⟩,
      fun d rid' hb => absurd hb (hbears _ _), fun rid' hk => ?_, fun d rid' => ?_⟩
    · obtain ⟨rfl, -, -, hok⟩ := (hkills rid').1 hk
      refine Or.inr ⟨hpages _ fun hnone => ?_, hmem⟩
      rw [delete, fetch, hnone] at hok
      cases hok
    · rw [or_iff_left (hbears _ _), hst'.shows_iff, h.shows_iff]
      refine (and_iff_left_of_imp ?_).symm
      rintro ⟨v, hv, -⟩ hk
      obtain ⟨rfl, -⟩ := (hkills rid').1 hk
      exact hmem (mem_ids.2 (hv.imp fun _ => And.left))

theorem changes (h : st.Holds c) (ht : t.isolation = .snapshot) (hother : call.ByOther t)
    (hexec : st.Exec call st' reply) : ∃ c', Changes t (call, reply) st c st' c' := by
  cases call with
  | insert txn tuple =>
    cases reply with
    | inserted r => exact changes_insert h ht hother hexec
    | _ => exact hexec.elim
  | delete txn rid =>
    cases reply with
    | deleted r =>
      obtain ⟨rfl, rfl⟩ := hexec
      exact changes_delete h ht hother rid
    | _ => exact hexec.elim
  | _ => exact hother.elim

/-! ### All calls between two scans -/

theorem shows_of_trace (h : st.Holds c) (ht : t.isolation = .snapshot)
    (htrace : Store.Trace st l st') (hl : ∀ x ∈ l, x.1.ByOther t) :
    (∀ d rid, st'.Shows t d rid ↔
      (st.Shows t d rid ∨ ∃ x ∈ l, Bears t x d rid) ∧ ¬ ∃ x ∈ l, Kills t x rid) ∧
    ∀ d rid, (∃ x ∈ l, Bears t x d rid) → ¬ Used st c rid := by
  induction htrace generalizing c with
  | nil st => exact ⟨fun d rid => by simp, fun d rid ⟨x, hx, _⟩ => nomatch hx⟩
  | @cons st st₁ st' call reply l hexec _ ih =>
    obtain ⟨c₁, hch⟩ := changes h ht (hl _ List.mem_cons_self) hexec
    obtain ⟨hshows, hborn⟩ := ih hch.holds fun x hx => hl x (List.mem_cons_of_mem _ hx)
    constructor
    · intro d rid
      have hdead : Kills t (call, reply) rid → ¬ ∃ x ∈ l, Bears t x d rid :=
        fun hk hb => hborn d rid hb (hch.dead rid hk)
      have hfirst := hch.shows d rid
      dsimp only at hfirst
      simp only [List.exists_mem_cons_iff]
      rw [hshows, hfirst]
      rw [not_or, ← and_assoc]
      refine and_congr_left fun _ => ?_
      -- a row born later is not the one that dies here
      rw [← or_assoc, or_and_right (a := _ ∨ _), and_iff_left_of_imp fun hb hk => hdead hk hb]
    · rintro d rid ⟨x, hx, hb⟩ hused
      rcases List.mem_cons.1 hx with rfl | hx
      · exact hch.born d rid hb hused
      · exact hborn d rid ⟨x, hx, hb⟩ (hch.used rid hused)

/-- **What a transaction sees of the others between two scans** at snapshot isolation: what
smaller transactions have inserted and deleted, and nothing of the larger ones. -/
theorem snapshot_scan (st st' : Store) (t : Txn) (l : List (Call × Reply)) (h : st.IsFile)
    (ht : t.isolation = .snapshot) (htrace : Store.Trace st l st') (hl : ∀ x ∈ l, x.1.ByOther t) :
    (∀ d rid, st'.Shows t d rid ↔
      (st.Shows t d rid ∨ ∃ x ∈ l, Bears t x d rid) ∧ ¬ ∃ x ∈ l, Kills t x rid) ∧
    ((∀ x ∈ l, ∀ txn : Txn, (∃ tuple, x.1 = .insert txn tuple) ∨ (∃ rid, x.1 = .delete txn rid) →
      t.id < txn.id) → ∀ d rid, st'.Shows t d rid ↔ st.Shows t d rid) := by
  obtain ⟨c, hc⟩ := h
  obtain ⟨hshows, -⟩ := shows_of_trace hc ht htrace hl
  refine ⟨hshows, fun hlarge d rid => ?_⟩
  have hb : ¬ ∃ x ∈ l, Bears t x d rid := by
    rintro ⟨x, hx, txn, hlt, rfl⟩
    exact UInt64.lt_asymm hlt (hlarge _ hx txn (Or.inl ⟨_, rfl⟩))
  have hk : ¬ ∃ x ∈ l, Kills t x rid := by
    rintro ⟨x, hx, txn, -, hlt, rfl⟩
    exact UInt64.lt_asymm hlt (hlarge _ hx txn (Or.inr ⟨_, rfl⟩))
  rw [hshows, and_iff_left hk, or_iff_left hb]

/-- A transaction with a smaller id inserts, and the row is there. -/
theorem insert_seen (txn : Txn) (tuple : List UInt8) (hlen : tuple.length ≤ maxTupleSize) (t : Txn)
    (htxn : passes txn.id 0 t = true) : ∃ st rid, Store.Trace .empty
      [(.insert txn tuple, .inserted (.ok rid))] st ∧ st.Shows t tuple rid := by
  have hlegal : (Call.insert txn tuple).Legal := hlen
  obtain ⟨st, reply, hexec⟩ := Store.Represents.empty.exists_exec hlegal ⟨1, by decide, by decide, rfl⟩
  cases reply with
  | inserted r =>
    obtain ⟨rid, c, rfl, -, hrep⟩ := Store.Represents.empty.exec_insert hlen hexec
    exact ⟨st, rid, .cons hexec (.nil st), hrep.holds.shows_iff.2
      ⟨_, hrep.hasVersion_iff.2 (Function.update_self ..), htxn, rfl⟩⟩
  | _ => exact hexec.elim

/-- Transaction 5 scans the empty table before and after transaction 9 inserts. -/
theorem snapshot_scan_larger : ∃ st l, Store.Trace .empty l st ∧ l ≠ [] ∧
    ∀ d rid, st.Shows ⟨5, .snapshot⟩ d rid ↔ Store.empty.Shows ⟨5, .snapshot⟩ d rid := by
  obtain ⟨st, rid, htrace, -⟩ := insert_seen ⟨9, .snapshot⟩ [7] (by decide)
    ⟨9, .snapshot⟩ (by decide)
  refine ⟨st, _, htrace, nofun, (snapshot_scan .empty st ⟨5, .snapshot⟩ _ ⟨[], .empty⟩ rfl htrace ?_).2 ?_⟩
  · rintro x hx
    obtain rfl := List.mem_singleton.1 hx
    exact (by decide : (9 : TxnId) ≠ 5)
  · rintro x hx txn (⟨tuple, heq⟩ | ⟨rid, heq⟩) <;> obtain rfl := List.mem_singleton.1 hx <;> cases heq
    exact (by decide : (5 : TxnId) < 9)

/-- **A scan is not repeatable**: transaction 1 inserts between two scans of transaction 5. -/
theorem snapshot_not_repeatable : ¬ ∀ (st st' : Store) (t : Txn) (l : List (Call × Reply)), st.IsFile →
    t.isolation = .snapshot → Store.Trace st l st' → (∀ x ∈ l, x.1.ByOther t) →
      ∀ d rid, st'.Shows t d rid ↔ st.Shows t d rid := by
  intro hall
  obtain ⟨st, rid, htrace, hshows⟩ := insert_seen ⟨1, .snapshot⟩ [7] (by decide)
    ⟨5, .snapshot⟩ (by decide)
  have hiff := hall .empty st ⟨5, .snapshot⟩ _ ⟨[], .empty⟩ rfl htrace (fun x hx => by
    obtain rfl := List.mem_singleton.1 hx
    exact (by decide : (1 : TxnId) ≠ 5)) [7] rid
  obtain ⟨v, ⟨ts, hmem, -⟩, -⟩ := Store.Holds.empty.shows_iff.1 (hiff.1 hshows)
  cases hmem

end Heap
end Abdb
