/-
# The LRU-K policy

`src/buffer/evictor/lruk_evictor.rs`.  A frame is a candidate if it is evictable and some
access to it was recorded since it was last removed.  The search walks the map in any order
and finds a victim exactly when there is a candidate (`LruK.findVictim_eq_none`).

Timestamps count accesses from zero.  `⊤` is the `usize::MAX` the source uses for infinity;
the clock is taken not to reach it.
-/

import Mathlib.Order.WithBot
import Abdb.Buffer.Pool

namespace Abdb
namespace Buffer

/-- What the policy keeps about a frame: the timestamps of its last `k` accesses, oldest
first, and whether it may be evicted. -/
structure FrameInfo where
  history : List ℕ
  evictable : Bool
deriving DecidableEq, Repr

/-- The clock, and the map of frames in the order it is walked in. -/
structure LruKEvictor where
  currentTimestamp : ℕ
  state : List (ℕ × FrameInfo)
deriving DecidableEq, Repr

namespace LruK

/-- `entry(frame).or_insert(new)`, then a change. -/
def upsert (frame : ℕ) (new : FrameInfo) (change : FrameInfo → FrameInfo) :
    List (ℕ × FrameInfo) → List (ℕ × FrameInfo)
  | [] => [(frame, change new)]
  | x :: xs =>
    if x.1 = frame then (frame, change x.2) :: xs else x :: upsert frame new change xs

/-- The variables of the search for a victim. -/
structure Search where
  victim : Option ℕ
  maxBackwardKDist : WithTop ℕ
  earliestAccessForInf : WithTop ℕ

/-- One turn of the search. -/
def consider (k now : ℕ) (a : Search) (x : ℕ × FrameInfo) : Search :=
  match x.2.evictable, x.2.history with
  | true, first :: rest =>
    if (first :: rest).length < k then
      -- rule 1: infinite distance; the earliest first access wins
      if (first : WithTop ℕ) < a.earliestAccessForInf then ⟨some x.1, ⊤, first⟩ else a
    else if a.maxBackwardKDist < ⊤ then
      -- rule 2: the k-th most recent access is the oldest
      if a.maxBackwardKDist < ((now - first : ℕ) : WithTop ℕ) then
        { a with victim := some x.1, maxBackwardKDist := (now - first : ℕ) }
      else a
    else a
  | _, _ => a

/-- `find_victim` -/
def findVictim (k : ℕ) (s : LruKEvictor) : Option ℕ :=
  (s.state.foldl (consider k s.currentTimestamp) ⟨none, 0, ⊤⟩).victim

/-- Add an access to a history, of which the last `k` are kept. -/
def pushAccess (k ts : ℕ) (info : FrameInfo) : FrameInfo :=
  { info with
    history :=
      if k < (info.history ++ [ts]).length then (info.history ++ [ts]).tail
      else info.history ++ [ts] }

/-- `record_access` -/
def recordAccess (k : ℕ) (s : LruKEvictor) (frame : ℕ) : LruKEvictor where
  currentTimestamp := s.currentTimestamp + 1
  state := upsert frame ⟨[], false⟩ (pushAccess k s.currentTimestamp) s.state

/-- `set_evictable` -/
def setEvictable (s : LruKEvictor) (frame : ℕ) (evictable : Bool) : LruKEvictor :=
  { s with
    state := upsert frame ⟨[], evictable⟩ (fun info => { info with evictable }) s.state }

/-- `remove_frame` -/
def removeFrame (s : LruKEvictor) (frame : ℕ) : LruKEvictor :=
  { s with state := s.state.filter (·.1 ≠ frame) }

end LruK

/-- `LruKEvictor::new(k)` as an eviction policy. -/
def lruK (k : ℕ) : EvictionPolicy where
  State := LruKEvictor
  new := ⟨0, []⟩
  findVictim := LruK.findVictim k
  recordAccess := LruK.recordAccess k
  setEvictable := LruK.setEvictable
  removeFrame := LruK.removeFrame

namespace LruK

/-- A frame the search may choose. -/
def Candidate (x : ℕ × FrameInfo) : Prop := x.2.evictable = true ∧ x.2.history ≠ []

/-- Every recorded access lies in the past. -/
def Past (s : LruKEvictor) : Prop := ∀ x ∈ s.state, ∀ t ∈ x.2.history, t < s.currentTimestamp

/-- A search that has moved has a victim. -/
def Search.Moved (a : Search) : Prop :=
  (a.maxBackwardKDist ≠ 0 ∨ a.earliestAccessForInf ≠ ⊤) → a.victim ≠ none

variable {k now : ℕ} {a : Search} {x : ℕ × FrameInfo} {s : LruKEvictor} {frame : ℕ}

/-- A turn keeps what is found, finds a candidate, and finds nothing else. -/
theorem consider_spec (hpast : ∀ t ∈ x.2.history, t < now) (ha : a.Moved) :
    (consider k now a x).Moved ∧
      ((consider k now a x).victim = none ↔ a.victim = none ∧ ¬ Candidate x) ∧
      (∀ v, (consider k now a x).victim = some v → a.victim = some v ∨ Candidate x ∧ x.1 = v) := by
  obtain ⟨f, history, evictable⟩ := x
  cases evictable with
  | false => exact ⟨ha, ⟨fun h => ⟨h, nofun⟩, fun h => h.1⟩, fun v h => Or.inl h⟩
  | true =>
    cases history with
    | nil => exact ⟨ha, ⟨fun h => ⟨h, fun hc => hc.2 rfl⟩, fun h => h.1⟩, fun v h => Or.inl h⟩
    | cons first rest =>
      have hcand : Candidate (f, ⟨first :: rest, true⟩) := ⟨rfl, nofun⟩
      -- a search that stays where it is has a victim already
      have hstay : a.victim ≠ none → a.Moved ∧
          (a.victim = none ↔ a.victim = none ∧ ¬ Candidate (f, ⟨first :: rest, true⟩)) ∧
          (∀ v, a.victim = some v → a.victim = some v ∨
            Candidate (f, ⟨first :: rest, true⟩) ∧ f = v) := fun hv =>
        ⟨ha, ⟨fun h => absurd h hv, fun h => h.1⟩, fun v h => Or.inl h⟩
      unfold consider
      dsimp only
      split
      · split
        · exact ⟨fun _ => nofun, ⟨nofun, fun h => absurd hcand h.2⟩,
            fun v h => Or.inr ⟨hcand, Option.some.inj h⟩⟩
        · next hearly =>
          refine hstay (ha (Or.inr ?_))
          rintro htop
          rw [htop] at hearly
          exact hearly (WithTop.coe_lt_top first)
      · split
        · split
          · exact ⟨fun _ => nofun, ⟨nofun, fun h => absurd hcand h.2⟩,
              fun v h => Or.inr ⟨hcand, Option.some.inj h⟩⟩
          · next hdist =>
            refine hstay (ha (Or.inl ?_))
            intro hzero
            have hfirst : first < now := hpast first (List.mem_cons_self ..)
            rw [hzero] at hdist
            exact hdist (by exact_mod_cast Nat.sub_pos_of_lt hfirst)
        · next htop =>
          refine hstay (ha (Or.inl ?_))
          intro hzero
          rw [hzero] at htop
          exact htop (WithTop.coe_lt_top 0)

theorem foldl_consider_spec {xs : List (ℕ × FrameInfo)}
    (hpast : ∀ x ∈ xs, ∀ t ∈ x.2.history, t < now) (ha : a.Moved) :
    ((xs.foldl (consider k now) a).victim = none ↔ a.victim = none ∧ ∀ x ∈ xs, ¬ Candidate x) ∧
      ∀ v, (xs.foldl (consider k now) a).victim = some v →
        a.victim = some v ∨ ∃ x ∈ xs, Candidate x ∧ x.1 = v := by
  induction xs generalizing a with
  | nil => exact ⟨by simp, fun v h => Or.inl h⟩
  | cons x xs ih =>
    obtain ⟨hmoved, hnone, hsome⟩ := consider_spec (k := k) (hpast x (List.mem_cons_self ..)) ha
    obtain ⟨hn, hs⟩ := ih (fun y hy => hpast y (List.mem_cons_of_mem _ hy)) hmoved
    constructor
    · rw [List.foldl_cons, hn, hnone, List.forall_mem_cons, and_assoc]
    · intro v hv
      rcases hs v hv with h | ⟨y, hy, hc⟩
      · rcases hsome v h with h | h
        · exact Or.inl h
        · exact Or.inr ⟨x, List.mem_cons_self .., h⟩
      · exact Or.inr ⟨y, List.mem_cons_of_mem _ hy, hc⟩

/-- **The search fails exactly when there is no candidate.** -/
theorem findVictim_eq_none (h : Past s) :
    findVictim k s = none ↔ ∀ x ∈ s.state, ¬ Candidate x := by
  have := (foldl_consider_spec (k := k) (a := ⟨none, 0, ⊤⟩) h fun h => by simp at h).1
  simpa [findVictim] using this

/-! ### The entry of one frame -/

variable {new : FrameInfo} {change : FrameInfo → FrameInfo} {xs : List (ℕ × FrameInfo)}

theorem mem_upsert (h : x ∈ upsert frame new change xs) :
    x ∈ xs ∨ x.1 = frame ∧ (x.2 = change new ∨ ∃ y ∈ xs, x.2 = change y.2) := by
  induction xs with
  | nil =>
    rcases List.mem_singleton.1 h with rfl
    exact Or.inr ⟨rfl, Or.inl rfl⟩
  | cons y ys ih =>
    unfold upsert at h
    split at h
    · rcases List.mem_cons.1 h with rfl | h
      · exact Or.inr ⟨rfl, Or.inr ⟨y, List.mem_cons_self .., rfl⟩⟩
      · exact Or.inl (List.mem_cons_of_mem _ h)
    · rcases List.mem_cons.1 h with rfl | h
      · exact Or.inl (List.mem_cons_self ..)
      · rcases ih h with h | ⟨hf, h | ⟨z, hz, h⟩⟩
        · exact Or.inl (List.mem_cons_of_mem _ h)
        · exact Or.inr ⟨hf, Or.inl h⟩
        · exact Or.inr ⟨hf, Or.inr ⟨z, List.mem_cons_of_mem _ hz, h⟩⟩

theorem keys_upsert : (upsert frame new change xs).map Prod.fst =
      if frame ∈ xs.map Prod.fst then xs.map Prod.fst else xs.map Prod.fst ++ [frame] := by
  induction xs with
  | nil => rfl
  | cons y ys ih =>
    unfold upsert
    by_cases hy : y.1 = frame
    · rw [if_pos hy, if_pos (by simp [hy]), List.map_cons, List.map_cons, hy]
    · rw [if_neg hy, List.map_cons, ih, List.map_cons]
      by_cases hmem : frame ∈ ys.map Prod.fst
      · rw [if_pos hmem, if_pos (List.mem_cons_of_mem _ hmem)]
      · rw [if_neg hmem, if_neg (by simp [hmem, Ne.symm hy]), List.cons_append]

theorem nodup_upsert (h : (xs.map Prod.fst).Nodup) :
    ((upsert frame new change xs).map Prod.fst).Nodup := by
  rw [keys_upsert]
  split
  · exact h
  · next hmem => exact List.nodup_append.2 ⟨h, by simp, by
      rintro a ha b hb rfl
      exact hmem (List.mem_singleton.1 hb ▸ ha)⟩

/-- The entries after a change to one frame: those of other frames, and the changed one. -/
theorem entry_of_mem_upsert (hnodup : (xs.map Prod.fst).Nodup) (h : x ∈ upsert frame new change xs) :
    x.1 ≠ frame ∧ x ∈ xs ∨ x.1 = frame ∧
      ((∃ info, (frame, info) ∈ xs ∧ x.2 = change info) ∨
        frame ∉ xs.map Prod.fst ∧ x.2 = change new) := by
  induction xs with
  | nil =>
    obtain rfl := List.mem_singleton.1 h
    exact Or.inr ⟨rfl, Or.inr ⟨List.not_mem_nil, rfl⟩⟩
  | cons y ys ih =>
    obtain ⟨hfresh, hrest⟩ := List.nodup_cons.1 hnodup
    rw [upsert] at h
    split_ifs at h with hy
    · rcases List.mem_cons.1 h with rfl | h
      · exact Or.inr ⟨rfl, Or.inl ⟨y.2, List.mem_cons.2 (Or.inl (Prod.ext hy.symm rfl)), rfl⟩⟩
      · refine Or.inl ⟨fun hx => hfresh ?_, List.mem_cons_of_mem _ h⟩
        exact (hx.trans hy.symm) ▸ List.mem_map_of_mem h
    · rcases List.mem_cons.1 h with rfl | h
      · exact Or.inl ⟨hy, List.mem_cons_self⟩
      · rcases ih hrest h with ⟨hne, hx⟩ | ⟨heq, ⟨info, hinfo, hx⟩ | ⟨habs, hx⟩⟩
        · exact Or.inl ⟨hne, List.mem_cons_of_mem _ hx⟩
        · exact Or.inr ⟨heq, Or.inl ⟨info, List.mem_cons_of_mem _ hinfo, hx⟩⟩
        · refine Or.inr ⟨heq, Or.inr ⟨?_, hx⟩⟩
          exact fun hmem => (List.mem_cons.1 hmem).elim (fun h => hy h.symm) habs

end LruK

end Buffer
end Abdb
