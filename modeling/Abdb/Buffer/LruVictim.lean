/-
# Which frame LRU-K evicts

`find_victim` of `src/buffer/evictor/lruk_evictor.rs` walks the map once and ranks frames by
two rules, of which the first overrides the second through `usize::MAX`.  Here the search is
written with that word, and the clock as the word it is; while the clock has not reached
`usize::MAX` they are those of `Abdb.Buffer.LruK` (`Word.findVictim_eq`, `Word.run_eq`).

The search is one running minimum of a rank (`LruK.findVictim_eq_argmin`), and what the map
holds about a frame is the last `k` accesses of the calls made (`LruK.Holds`).  Together they
say which frame is found in terms of the calls alone, in whatever order the map is walked
(`Word.findVictim_choice`).
-/

import Mathlib.Data.List.MinMax
import Mathlib.Data.Prod.Lex
import Abdb.Buffer.LruK

namespace Abdb
namespace Buffer
namespace LruK

/-! ### The calls, and what they say about a frame -/

/-- A call that changes what the policy keeps. -/
inductive Call
  | recordAccess (frame : ℕ)
  | setEvictable (frame : ℕ) (evictable : Bool)
  | removeFrame (frame : ℕ)
deriving DecidableEq, Repr

/-- The number of accesses among the calls so far, of which the latest comes first. -/
def accessCount : List Call → ℕ
  | [] => 0
  | .recordAccess _ :: earlier => accessCount earlier + 1
  | .setEvictable _ _ :: earlier | .removeFrame _ :: earlier => accessCount earlier

/-- When a frame was accessed since it was last removed, the most recent access first.  An
access happens at the number of accesses before it. -/
def accessTimes (frame : ℕ) : List Call → List ℕ
  | [] => []
  | .recordAccess f :: earlier =>
    if f = frame then accessCount earlier :: accessTimes frame earlier
    else accessTimes frame earlier
  | .setEvictable _ _ :: earlier => accessTimes frame earlier
  | .removeFrame f :: earlier => if f = frame then [] else accessTimes frame earlier

/-- Whether a frame was last set evictable, since it was last removed. -/
def lastEvictable (frame : ℕ) : List Call → Bool
  | [] => false
  | .recordAccess _ :: earlier => lastEvictable frame earlier
  | .setEvictable f evictable :: earlier =>
    if f = frame then evictable else lastEvictable frame earlier
  | .removeFrame f :: earlier => if f = frame then false else lastEvictable frame earlier

/-- A frame that is evictable and has an access since it was last removed. -/
def Eligible (calls : List Call) (frame : ℕ) : Prop :=
  lastEvictable frame calls = true ∧ accessTimes frame calls ≠ []

/-- When a frame was first accessed since it was last removed. -/
def firstAccess (calls : List Call) (frame : ℕ) : Option ℕ := (accessTimes frame calls).getLast?

/-- When the `k`-th most recent access to a frame was. -/
def kthAccess (k : ℕ) (calls : List Call) (frame : ℕ) : Option ℕ :=
  (accessTimes frame calls)[k - 1]?

/-- The one frame of a set whose time is before those of all others of the set. -/
def Oldest (S : ℕ → Prop) (time : ℕ → Option ℕ) (frame : ℕ) : Prop :=
  S frame ∧ ∃ t ∈ time frame, ∀ f, S f → f ≠ frame → ∃ u ∈ time f, t < u

/-- The policy after one call. -/
def call (k : ℕ) (s : LruKEvictor) : Call → LruKEvictor
  | .recordAccess frame => recordAccess k s frame
  | .setEvictable frame evictable => setEvictable s frame evictable
  | .removeFrame frame => removeFrame s frame

/-- The new policy after calls, of which the latest comes first. -/
def run (call : LruKEvictor → Call → LruKEvictor) : List Call → LruKEvictor
  | [] => ⟨0, []⟩
  | c :: earlier => call (run call earlier) c

/-! ### The code with its words -/

/-- `usize::MAX` -/
def usizeMax : ℕ := 2 ^ 64 - 1

namespace Word

/-- The variables of the search for a victim, of type `usize`. -/
structure Search where
  victim : Option ℕ
  maxBackwardKDist : ℕ
  earliestAccessForInf : ℕ
deriving DecidableEq, Repr

/-- One turn of the search. -/
def consider (k now : ℕ) (a : Search) (x : ℕ × FrameInfo) : Search :=
  match x.2.evictable, x.2.history with
  | true, first :: rest =>
    if (first :: rest).length < k then
      if first < a.earliestAccessForInf then ⟨some x.1, usizeMax, first⟩ else a
    else if a.maxBackwardKDist < usizeMax then
      -- `saturating_sub`
      if a.maxBackwardKDist < now - first then
        { a with victim := some x.1, maxBackwardKDist := now - first }
      else a
    else a
  | _, _ => a

/-- `find_victim` -/
def findVictim (k : ℕ) (s : LruKEvictor) : Option ℕ :=
  (s.state.foldl (consider k s.currentTimestamp) ⟨none, 0, usizeMax⟩).victim

/-- `record_access`, where `fetch_add` wraps. -/
def recordAccess (k : ℕ) (s : LruKEvictor) (frame : ℕ) : LruKEvictor where
  currentTimestamp := (s.currentTimestamp + 1) % 2 ^ 64
  state := upsert frame ⟨[], false⟩ (pushAccess k s.currentTimestamp) s.state

/-- The policy after one call. -/
def call (k : ℕ) (s : LruKEvictor) : Call → LruKEvictor
  | .recordAccess frame => recordAccess k s frame
  | .setEvictable frame evictable => setEvictable s frame evictable
  | .removeFrame frame => removeFrame s frame

end Word

/-! ### The times of the accesses -/

variable {k now : ℕ} {calls : List Call} {frame f t : ℕ}

theorem lt_of_mem_accessTimes (h : t ∈ accessTimes frame calls) : t < accessCount calls := by
  induction calls with
  | nil => exact absurd h List.not_mem_nil
  | cons c earlier ih =>
    cases c with
    | recordAccess f =>
      rw [accessTimes] at h
      split_ifs at h
      · rcases List.mem_cons.1 h with rfl | h
        · exact Nat.lt_succ_self _
        · exact Nat.lt_succ_of_lt (ih h)
      · exact Nat.lt_succ_of_lt (ih h)
    | setEvictable f evictable => exact ih h
    | removeFrame f =>
      rw [accessTimes] at h
      split_ifs at h
      · exact absurd h List.not_mem_nil
      · exact ih h

/-- **A time belongs to one frame.** -/
theorem frame_eq_of_mem_accessTimes (h : t ∈ accessTimes frame calls)
    (hf : t ∈ accessTimes f calls) : frame = f := by
  induction calls with
  | nil => exact absurd h List.not_mem_nil
  | cons c earlier ih =>
    cases c with
    | recordAccess g =>
      rw [accessTimes] at h hf
      split_ifs at h hf with hg hg'
      · exact hg.symm.trans hg'
      · -- the access just made is later than all before it
        rcases List.mem_cons.1 h with rfl | h
        · exact absurd (lt_of_mem_accessTimes hf) (Nat.lt_irrefl _)
        · exact ih h hf
      · rcases List.mem_cons.1 hf with rfl | hf
        · exact absurd (lt_of_mem_accessTimes h) (Nat.lt_irrefl _)
        · exact ih h hf
      · exact ih h hf
    | setEvictable g evictable => exact ih h hf
    | removeFrame g =>
      rw [accessTimes] at h hf
      split_ifs at h hf
      · exact absurd h List.not_mem_nil
      · exact absurd h List.not_mem_nil
      · exact absurd hf List.not_mem_nil
      · exact ih h hf

/-! ### What the map holds -/

variable {new : FrameInfo} {change : FrameInfo → FrameInfo} {l : List (ℕ × FrameInfo)}
  {x : ℕ × FrameInfo} {s : LruKEvictor}

/-- What calls make of a frame: its last `k` accesses, and whether it may be evicted. -/
def infoOf (k : ℕ) (calls : List Call) (frame : ℕ) : FrameInfo :=
  ⟨((accessTimes frame calls).take k).reverse, lastEvictable frame calls⟩

/-- The policy holds what the calls say about each frame; one it does not hold is as new. -/
structure Holds (k : ℕ) (calls : List Call) (s : LruKEvictor) : Prop where
  clock : s.currentTimestamp = accessCount calls
  nodup : (s.state.map Prod.fst).Nodup
  entries : ∀ x ∈ s.state, x.2 = infoOf k calls x.1
  absent : ∀ f ∉ s.state.map Prod.fst,
    accessTimes f calls = [] ∧ lastEvictable f calls = false

/-- **The history is the last `k` accesses**: one more is added at its end, and the oldest is
dropped when there are more than `k`. -/
theorem pushAccess_infoOf : pushAccess k (accessCount calls) (infoOf k calls frame) =
    infoOf k (.recordAccess frame :: calls) frame := by
  have htimes : accessTimes frame (.recordAccess frame :: calls) =
      accessCount calls :: accessTimes frame calls := if_pos rfl
  rw [pushAccess, infoOf, infoOf, htimes, lastEvictable]
  dsimp only
  rw [← List.reverse_cons]
  obtain ⟨ts, hts⟩ : ∃ ts, ts = accessTimes frame calls := ⟨_, rfl⟩
  rw [← hts, List.length_reverse, List.length_cons, List.length_take]
  congr 1
  split_ifs with hlong
  · -- the oldest of the last `k` goes
    cases k with
    | zero => rfl
    | succ n =>
      have hfull : min (n + 1) ts.length = n + 1 := by omega
      rw [List.tail_reverse, List.dropLast_eq_take, List.length_cons, List.length_take, hfull,
        Nat.add_sub_cancel, List.take_succ_cons, List.take_succ_cons, List.take_take,
        Nat.min_eq_left (Nat.le_succ n)]
  · rw [List.take_of_length_le (by omega : ts.length ≤ k),
      List.take_of_length_le (by rw [List.length_cons]; omega)]

/-- A frame that is not in the map is taken into it as the calls say it is. -/
theorem Holds.info_eq (h : Holds k calls s) (hchange : change new = change ⟨[], false⟩)
    (hx : (∃ info, (frame, info) ∈ s.state ∧ x.2 = change info) ∨
      frame ∉ s.state.map Prod.fst ∧ x.2 = change new) :
    x.2 = change (infoOf k calls frame) := by
  rcases hx with ⟨info, hinfo, hx⟩ | ⟨habs, hx⟩
  · have hentry : info = infoOf k calls frame := h.entries _ hinfo
    rw [hx, hentry]
  · obtain ⟨htimes, hflag⟩ := h.absent _ habs
    have hnew : infoOf k calls frame = ⟨[], false⟩ := by
      rw [infoOf, htimes, hflag, List.take_nil, List.reverse_nil]
    rw [hx, hnew, hchange]

/-- A frame that is not in the map after a change to another was not in it before. -/
theorem not_mem_of_upsert (hf : f ∉ (upsert frame new change l).map Prod.fst) :
    f ∉ l.map Prod.fst ∧ f ≠ frame := by
  rw [keys_upsert] at hf
  split_ifs at hf with hmem
  · exact ⟨hf, fun heq => hf (heq ▸ hmem)⟩
  · rw [List.mem_append, not_or, List.mem_singleton] at hf
    exact hf

theorem infoOf_recordAccess_of_ne (hne : f ≠ frame) :
    infoOf k (.recordAccess frame :: calls) f = infoOf k calls f := by
  rw [infoOf, infoOf, accessTimes, if_neg hne.symm, lastEvictable]

theorem infoOf_setEvictable_of_ne {evictable : Bool} (hne : f ≠ frame) :
    infoOf k (.setEvictable frame evictable :: calls) f = infoOf k calls f := by
  rw [infoOf, infoOf, accessTimes, lastEvictable, if_neg hne.symm]

theorem infoOf_removeFrame_of_ne (hne : f ≠ frame) :
    infoOf k (.removeFrame frame :: calls) f = infoOf k calls f := by
  rw [infoOf, infoOf, accessTimes, if_neg hne.symm, lastEvictable, if_neg hne.symm]

/-- One call keeps what the map holds in step with the calls. -/
theorem Holds.call (h : Holds k calls s) (c : Call) : Holds k (c :: calls) (call k s c) := by
  cases c with
  | recordAccess frame =>
    refine ⟨congrArg (· + 1) h.clock, nodup_upsert h.nodup, fun x hx => ?_, fun f hf => ?_⟩
    · rcases entry_of_mem_upsert h.nodup hx with ⟨hne, hx⟩ | ⟨rfl, hx⟩
      · rw [infoOf_recordAccess_of_ne hne, h.entries x hx]
      · rw [h.info_eq rfl hx, h.clock, pushAccess_infoOf]
    · obtain ⟨habs, hne⟩ := not_mem_of_upsert hf
      rw [accessTimes, if_neg hne.symm, lastEvictable]
      exact h.absent f habs
  | setEvictable frame evictable =>
    refine ⟨h.clock, nodup_upsert h.nodup, fun x hx => ?_, fun f hf => ?_⟩
    · rcases entry_of_mem_upsert h.nodup hx with ⟨hne, hx⟩ | ⟨rfl, hx⟩
      · rw [infoOf_setEvictable_of_ne hne, h.entries x hx]
      · rw [h.info_eq rfl hx, infoOf, infoOf, accessTimes, lastEvictable, if_pos rfl]
    · obtain ⟨habs, hne⟩ := not_mem_of_upsert hf
      rw [accessTimes, lastEvictable, if_neg hne.symm]
      exact h.absent f habs
  | removeFrame frame =>
    refine ⟨h.clock, h.nodup.sublist (List.filter_sublist.map _), fun x hx => ?_, fun f hf => ?_⟩
    · obtain ⟨hx, hne⟩ := List.mem_filter.1 hx
      rw [infoOf_removeFrame_of_ne (of_decide_eq_true hne), h.entries x hx]
    · rw [accessTimes, lastEvictable]
      by_cases hne : frame = f
      · rw [if_pos hne, if_pos hne]
        exact ⟨rfl, rfl⟩
      · rw [if_neg hne, if_neg hne]
        refine h.absent f fun hmem => hf ?_
        obtain ⟨x, hx, rfl⟩ := List.mem_map.1 hmem
        exact List.mem_map_of_mem (List.mem_filter.2 ⟨hx, decide_eq_true (Ne.symm hne)⟩)

/-- **The policy holds what the calls say.** -/
theorem holds_run (calls : List Call) : Holds k calls (run (call k) calls) := by
  induction calls with
  | nil => exact ⟨rfl, List.nodup_nil, fun x hx => absurd hx List.not_mem_nil, fun f _ => ⟨rfl, rfl⟩⟩
  | cons c earlier ih => exact ih.call c

/-- In whatever order the map is walked. -/
theorem Holds.perm (h : Holds k calls s) {order : List (ℕ × FrameInfo)} (horder : order.Perm s.state) :
    Holds k calls { s with state := order } where
  clock := h.clock
  nodup := (horder.map _).nodup_iff.2 h.nodup
  entries x hx := h.entries x (horder.mem_iff.1 hx)
  absent f hf := h.absent f fun hmem => hf ((horder.map _).mem_iff.2 hmem)

theorem Holds.past (h : Holds k calls s) : Past s := fun x hx t ht => by
  rw [h.entries x hx, infoOf, List.mem_reverse] at ht
  rw [h.clock]
  exact lt_of_mem_accessTimes (List.mem_of_mem_take ht)

/-! ### The search is a running minimum -/

instance : DecidablePred Candidate := fun _ => inferInstanceAs (Decidable (_ ∧ _))

/-- How the two rules rank a frame: one with fewer than `k` accesses comes first, and then the
older the access its history starts with. -/
def rank (k : ℕ) (x : ℕ × FrameInfo) : Bool ×ₗ ℕ :=
  toLex (decide (k ≤ x.2.history.length), x.2.history.headD 0)

/-- The variables of a search that has come to an entry as the best. -/
def Search.ofBest (k now : ℕ) : Option (ℕ × FrameInfo) → Search
  | none => ⟨none, 0, ⊤⟩
  | some x =>
    if x.2.history.length < k then ⟨some x.1, ⊤, x.2.history.headD 0⟩
    else ⟨some x.1, (now - x.2.history.headD 0 : ℕ), ⊤⟩

theorem rank_lt_iff {x y : ℕ × FrameInfo} : rank k x < rank k y ↔
    (x.2.history.length < k ∧ k ≤ y.2.history.length) ∨
      (k ≤ x.2.history.length ↔ k ≤ y.2.history.length) ∧
        x.2.history.headD 0 < y.2.history.headD 0 := by
  rw [rank, rank, Prod.Lex.toLex_lt_toLex, Bool.lt_iff, decide_eq_false_iff_not, not_le,
    decide_eq_true_iff, decide_eq_decide]

/-- An entry that is not considered changes nothing. -/
theorem consider_of_not_candidate {a : Search} (hx : ¬ Candidate x) : consider k now a x = a := by
  obtain ⟨f, history, evictable⟩ := x
  cases evictable with
  | false => rfl
  | true =>
    cases history with
    | nil => rfl
    | cons first rest => exact absurd ⟨rfl, nofun⟩ hx

/-- An entry that is considered, by the access its history starts with. -/
theorem consider_of_candidate {a : Search} (hx : Candidate x) : consider k now a x =
    if x.2.history.length < k then
      if (x.2.history.headD 0 : WithTop ℕ) < a.earliestAccessForInf then
        ⟨some x.1, ⊤, (x.2.history.headD 0 : ℕ)⟩
      else a
    else if a.maxBackwardKDist < ⊤ then
      if a.maxBackwardKDist < ((now - x.2.history.headD 0 : ℕ) : WithTop ℕ) then
        { a with victim := some x.1, maxBackwardKDist := (now - x.2.history.headD 0 : ℕ) }
      else a
    else a := by
  obtain ⟨f, history, evictable⟩ := x
  obtain ⟨hevict, hhist⟩ := hx
  obtain rfl : evictable = true := hevict
  cases history with
  | nil => exact absurd rfl hhist
  | cons first rest => rfl

theorem headD_lt (hx : Candidate x) (hpast : ∀ t ∈ x.2.history, t < now) :
    x.2.history.headD 0 < now := by
  obtain ⟨first, rest, hcons⟩ := List.exists_cons_of_ne_nil hx.2
  rw [hcons]
  exact hpast first (hcons ▸ List.mem_cons_self)

/-- The first candidate is taken. -/
theorem consider_ofBest_none (hx : Candidate x) (hpast : x.2.history.headD 0 < now) :
    consider k now (.ofBest k now none) x = .ofBest k now (some x) := by
  have hfirst : (x.2.history.headD 0 : WithTop ℕ) < ⊤ := WithTop.coe_lt_top _
  have htop : (0 : WithTop ℕ) < ⊤ := WithTop.coe_lt_top 0
  have hdist : (0 : WithTop ℕ) < ((now - x.2.history.headD 0 : ℕ) : WithTop ℕ) := by
    exact_mod_cast Nat.sub_pos_of_lt hpast
  rw [consider_of_candidate hx, Search.ofBest, Search.ofBest]
  dsimp only
  rw [if_pos hfirst, if_pos htop, if_pos hdist]

/-- **A turn keeps the better of two.** -/
theorem consider_ofBest_some {y : ℕ × FrameInfo} (hx : Candidate x)
    (hpast : x.2.history.headD 0 < now) (hbest : y.2.history.headD 0 < now) :
    consider k now (.ofBest k now (some y)) x =
      .ofBest k now (if rank k x < rank k y then some x else some y) := by
  have hlt := rank_lt_iff (k := k) (x := x) (y := y)
  rw [consider_of_candidate hx, Search.ofBest]
  generalize hfirst : x.2.history.headD 0 = first at *
  generalize hbesteq : y.2.history.headD 0 = best at *
  by_cases hshort : x.2.history.length < k
  · by_cases hyshort : y.2.history.length < k
    · -- both by their first access
      have hrank : rank k x < rank k y ↔ first < best := by
        rw [hlt]
        omega
      rw [if_pos hshort, if_pos hyshort]
      dsimp only
      by_cases hold : first < best
      · rw [if_pos (Nat.cast_lt.2 hold), if_pos (hrank.2 hold), Search.ofBest,
          if_pos hshort, hfirst]
      · rw [if_neg (mt Nat.cast_lt.1 hold), if_neg (mt hrank.1 hold),
          Search.ofBest, if_pos hyshort, hbesteq]
    · -- rule 1 overrides rule 2
      have hrank : rank k x < rank k y := hlt.2 (Or.inl ⟨hshort, not_lt.1 hyshort⟩)
      rw [if_pos hshort, if_neg hyshort, if_pos hrank, Search.ofBest, if_pos hshort, hfirst]
      exact if_pos (WithTop.coe_lt_top _)
  · by_cases hyshort : y.2.history.length < k
    · -- the infinite distance locks rule 2 out
      have hrank : ¬ rank k x < rank k y := by
        rw [hlt]
        omega
      rw [if_neg hshort, if_pos hyshort, if_neg hrank, Search.ofBest, if_pos hyshort, hbesteq]
      exact if_neg (lt_irrefl _)
    · -- the greater distance is the older access
      have hrank : rank k x < rank k y ↔ first < best := by
        rw [hlt]
        omega
      rw [if_neg hshort, if_neg hyshort]
      dsimp only
      have htop : ((now - best : ℕ) : WithTop ℕ) < ⊤ := WithTop.coe_lt_top _
      have hdist : now - best < now - first ↔ first < best := by omega
      rw [if_pos htop]
      by_cases hold : first < best
      · rw [if_pos (Nat.cast_lt.2 (hdist.2 hold)), if_pos (hrank.2 hold), Search.ofBest,
          if_neg hshort, hfirst]
      · rw [if_neg (mt Nat.cast_lt.1 (mt hdist.1 hold)), if_neg (mt hrank.1 hold),
          Search.ofBest, if_neg hyshort, hbesteq]

/-- The search over a list is at the candidate of least rank. -/
theorem foldl_consider {xs : List (ℕ × FrameInfo)}
    (hpast : ∀ x ∈ xs, ∀ t ∈ x.2.history, t < now) : xs.foldl (consider k now) ⟨none, 0, ⊤⟩ =
      .ofBest k now ((xs.filter (Candidate ·)).argmin (rank k)) := by
  have hhead : ∀ x ∈ xs, Candidate x → x.2.history.headD 0 < now := fun x hx hc =>
    headD_lt hc (hpast x hx)
  clear hpast
  induction xs using List.reverseRecOn with
  | nil => rfl
  | append_singleton xs x ih =>
    have hprefix := ih fun y hy => hhead y (List.mem_append_left _ hy)
    rw [List.foldl_concat, hprefix, List.filter_append]
    by_cases hx : Candidate x
    · have hxpast := hhead x List.mem_concat_self hx
      have hsingle : [x].filter (Candidate ·) = [x] :=
        List.filter_eq_self.2 fun y hy => decide_eq_true (List.mem_singleton.1 hy ▸ hx)
      rw [hsingle, List.argmin_concat]
      cases hbest : (xs.filter (Candidate ·)).argmin (rank k) with
      | none => exact consider_ofBest_none hx hxpast
      | some y =>
        obtain ⟨hy, hcand⟩ := List.mem_filter.1 (List.argmin_mem hbest)
        exact consider_ofBest_some hx hxpast
          (hhead y (List.mem_append_left _ hy) (of_decide_eq_true hcand))
    · have hsingle : [x].filter (Candidate ·) = [] :=
        List.filter_eq_nil_iff.2 fun y hy => by simpa [List.mem_singleton.1 hy] using hx
      rw [consider_of_not_candidate hx, hsingle, List.append_nil]

/-- **The victim is the candidate of least rank.** -/
theorem findVictim_eq_argmin (h : Past s) :
    findVictim k s = ((s.state.filter (Candidate ·)).argmin (rank k)).map Prod.fst := by
  rw [findVictim, foldl_consider h]
  cases (s.state.filter (Candidate ·)).argmin (rank k) with
  | none => rfl
  | some x =>
    rw [Search.ofBest]
    split_ifs <;> rfl

/-! ### The choice, in terms of the calls -/

/-- The access that the history of a frame starts with. -/
def historyStart (k : ℕ) (calls : List Call) (frame : ℕ) : ℕ :=
  (infoOf k calls frame).history.headD 0

theorem length_infoOf : (infoOf k calls frame).history.length =
    min k (accessTimes frame calls).length := by
  rw [infoOf, List.length_reverse, List.length_take]

theorem candidate_infoOf (hk : 1 ≤ k) : Candidate (frame, infoOf k calls frame) ↔
    Eligible calls frame := by
  have htake : (accessTimes frame calls).take k = [] ↔ accessTimes frame calls = [] := by
    rw [List.take_eq_nil_iff, or_iff_right (by omega)]
  rw [Candidate, Eligible, infoOf]
  dsimp only
  rw [ne_eq, List.reverse_eq_nil_iff, htake]

/-- The history starts with the `k`-th most recent access, or with the first of fewer. -/
theorem head?_infoOf (hk : 1 ≤ k) : (infoOf k calls frame).history.head? =
    (kthAccess k calls frame).or (firstAccess calls frame) := by
  rw [infoOf, List.head?_reverse, List.getLast?_take, if_neg (by omega), kthAccess, firstAccess]

theorem historyStart_eq (hk : 1 ≤ k) : (kthAccess k calls frame).or (firstAccess calls frame) =
    if accessTimes frame calls = [] then none else some (historyStart k calls frame) := by
  rw [← head?_infoOf hk, historyStart]
  cases hhist : (infoOf k calls frame).history with
  | nil =>
    have hlen : (infoOf k calls frame).history.length = min k (accessTimes frame calls).length :=
      length_infoOf
    rw [hhist, List.length_nil] at hlen
    rw [if_pos (List.length_eq_zero_iff.1 (by omega)), List.head?_nil]
  | cons first rest =>
    have hne : accessTimes frame calls ≠ [] := fun hnil => by
      rw [infoOf, hnil, List.take_nil] at hhist
      exact absurd hhist nofun
    rw [if_neg hne, List.head?_cons, List.headD_cons]

theorem firstAccess_eq (hk : 1 ≤ k) (h : Eligible calls frame)
    (hshort : (accessTimes frame calls).length < k) :
    firstAccess calls frame = some (historyStart k calls frame) := by
  have hkth : kthAccess k calls frame = none := List.getElem?_eq_none (by omega)
  have hstart : (kthAccess k calls frame).or (firstAccess calls frame) = _ := historyStart_eq hk
  rwa [if_neg h.2, hkth, Option.none_or] at hstart

theorem kthAccess_eq (hk : 1 ≤ k) (hlong : k ≤ (accessTimes frame calls).length) :
    kthAccess k calls frame = some (historyStart k calls frame) := by
  have hlt : k - 1 < (accessTimes frame calls).length := by omega
  have hne : accessTimes frame calls ≠ [] := List.ne_nil_of_length_pos (by omega)
  have hkth : kthAccess k calls frame = some ((accessTimes frame calls)[k - 1]) :=
    List.getElem?_eq_getElem hlt
  have hstart : (kthAccess k calls frame).or (firstAccess calls frame) = _ := historyStart_eq hk
  rwa [if_neg hne, hkth, Option.some_or, ← hkth] at hstart

theorem historyStart_mem (hk : 1 ≤ k) (h : Eligible calls frame) :
    historyStart k calls frame ∈ accessTimes frame calls := by
  by_cases hshort : (accessTimes frame calls).length < k
  · exact List.mem_of_getLast? (firstAccess_eq hk h hshort)
  · exact List.mem_of_getElem? (kthAccess_eq hk (not_lt.1 hshort))

/-- A frame comes before another: by the number of accesses, then by the start of the history. -/
def Before (k : ℕ) (calls : List Call) (v f : ℕ) : Prop :=
  ((accessTimes v calls).length < k ∧ k ≤ (accessTimes f calls).length) ∨
    (k ≤ (accessTimes v calls).length ↔ k ≤ (accessTimes f calls).length) ∧
      historyStart k calls v < historyStart k calls f

theorem rank_infoOf_lt_iff {v f : ℕ} :
    rank k (v, infoOf k calls v) < rank k (f, infoOf k calls f) ↔ Before k calls v f := by
  rw [rank_lt_iff, Before, length_infoOf, length_infoOf, historyStart, historyStart]
  dsimp only
  omega

/-- Two eligible frames are never level. -/
theorem before_of_not_before (hk : 1 ≤ k) {v : ℕ} (hv : Eligible calls v) (hf : Eligible calls f)
    (hne : f ≠ v) (h : ¬ Before k calls f v) : Before k calls v f := by
  have hstart : historyStart k calls v ≠ historyStart k calls f := fun heq =>
    hne (frame_eq_of_mem_accessTimes (historyStart_mem hk hf) (heq ▸ historyStart_mem hk hv))
  rw [Before] at h ⊢
  omega

theorem Holds.entry_eq (h : Holds k calls s) (hx : x ∈ s.state) : x = (x.1, infoOf k calls x.1) :=
  Prod.ext rfl (h.entries x hx)

/-- An eligible frame is in the map. -/
theorem Holds.entry_of_eligible (h : Holds k calls s) (hf : Eligible calls f) :
    (f, infoOf k calls f) ∈ s.state := by
  have hmem : f ∈ s.state.map Prod.fst := not_imp_comm.1 (h.absent f) fun hnil => hf.2 hnil.1
  obtain ⟨x, hx, rfl⟩ := List.mem_map.1 hmem
  exact h.entry_eq hx ▸ hx

/-- **The victim is eligible and comes before every other eligible frame.** -/
theorem Holds.findVictim_spec (h : Holds k calls s) (hk : 1 ≤ k) {v : ℕ}
    (hv : findVictim k s = some v) :
    Eligible calls v ∧ ∀ f, Eligible calls f → f ≠ v → Before k calls v f := by
  rw [findVictim_eq_argmin h.past, Option.map_eq_some_iff] at hv
  obtain ⟨x, hmin, rfl⟩ := hv
  obtain ⟨hx, hcand⟩ := List.mem_filter.1 (List.argmin_mem hmin)
  have helig : Eligible calls x.1 := by
    rw [← candidate_infoOf hk, ← h.entry_eq hx]
    exact of_decide_eq_true hcand
  refine ⟨helig, fun f hf hne => before_of_not_before hk helig hf hne ?_⟩
  -- the search has ranked the frame too
  have hfcand : Candidate (f, infoOf k calls f) := (candidate_infoOf hk).2 hf
  have hle := List.not_lt_of_mem_argmin
    (List.mem_filter.2 ⟨h.entry_of_eligible hf, decide_eq_true hfcand⟩) hmin
  rwa [h.entry_eq hx, rank_infoOf_lt_iff] at hle

/-- There is a victim unless no frame is eligible. -/
theorem Holds.findVictim_eq_none (h : Holds k calls s) (hk : 1 ≤ k) :
    findVictim k s = none ↔ ∀ f, ¬ Eligible calls f := by
  rw [LruK.findVictim_eq_none h.past]
  constructor
  · intro hnone f hf
    exact hnone _ (h.entry_of_eligible hf) ((candidate_infoOf hk).2 hf)
  · intro hnone x hx hcand
    rw [h.entry_eq hx, candidate_infoOf hk] at hcand
    exact hnone x.1 hcand

/-- What `find_victim` is to return after the calls. -/
structure Chosen (k : ℕ) (calls : List Call) (victim : Option ℕ) : Prop where
  none_iff : victim = none ↔ ∀ f, ¬ Eligible calls f
  /-- Rule 1: of the frames with fewer than `k` accesses, the one accessed first. -/
  rule1 : (∃ f, Eligible calls f ∧ (accessTimes f calls).length < k) →
    ∃ v ∈ victim, Oldest (fun f => Eligible calls f ∧ (accessTimes f calls).length < k)
      (firstAccess calls) v
  /-- Rule 2: the frame whose `k`-th most recent access is oldest. -/
  rule2 : (∃ f, Eligible calls f) → (∀ f, Eligible calls f → k ≤ (accessTimes f calls).length) →
    ∃ v ∈ victim, Oldest (Eligible calls) (kthAccess k calls) v

theorem Holds.chosen (h : Holds k calls s) (hk : 1 ≤ k) : Chosen k calls (findVictim k s) := by
  have hvictim : ∀ f, Eligible calls f → ∃ v, findVictim k s = some v := fun f hf =>
    Option.ne_none_iff_exists'.1 fun hnone => (h.findVictim_eq_none hk).1 hnone f hf
  refine ⟨h.findVictim_eq_none hk, fun hshort => ?_, fun hsome hlong => ?_⟩
  · obtain ⟨g, hg, hgshort⟩ := hshort
    obtain ⟨v, hv⟩ := hvictim g hg
    obtain ⟨helig, hbefore⟩ := h.findVictim_spec hk hv
    have hvshort : (accessTimes v calls).length < k := by
      by_cases heq : g = v
      · exact heq ▸ hgshort
      · have hb := hbefore g hg heq
        rw [Before] at hb
        omega
    refine ⟨v, hv, ⟨helig, hvshort⟩, _, firstAccess_eq hk helig hvshort, fun f hf hne => ?_⟩
    have hb := hbefore f hf.1 hne
    rw [Before] at hb
    exact ⟨_, firstAccess_eq hk hf.1 hf.2, by omega⟩
  · obtain ⟨g, hg⟩ := hsome
    obtain ⟨v, hv⟩ := hvictim g hg
    obtain ⟨helig, hbefore⟩ := h.findVictim_spec hk hv
    have hvlong := hlong v helig
    refine ⟨v, hv, helig, _, kthAccess_eq hk hvlong, fun f hf hne => ?_⟩
    have hb := hbefore f hf hne
    rw [Before] at hb
    exact ⟨_, kthAccess_eq hk (hlong f hf), by omega⟩

/-! ### While the clock has not reached `usize::MAX` -/

/-- The variables of a search with `usize::MAX` for infinity. -/
def Search.toWord (a : Search) : Word.Search :=
  ⟨a.victim, a.maxBackwardKDist.untopD usizeMax, a.earliestAccessForInf.untopD usizeMax⟩

/-- Finite variables of a search are below `usize::MAX`. -/
def Search.Below (a : Search) : Prop :=
  ∀ d : ℕ, a.maxBackwardKDist = d ∨ a.earliestAccessForInf = d → d < usizeMax

theorem untopD_lt_max {d : WithTop ℕ} (hd : ∀ m : ℕ, d = m → m < usizeMax) :
    d.untopD usizeMax < usizeMax ↔ d < ⊤ := by
  cases d with
  | top => exact iff_of_false (lt_irrefl _) (lt_irrefl _)
  | coe m => exact iff_of_true (hd m rfl) (WithTop.coe_lt_top m)

theorem lt_untopD {d : WithTop ℕ} {m : ℕ} (hm : m < usizeMax) :
    m < d.untopD usizeMax ↔ (m : WithTop ℕ) < d := by
  cases d with
  | top => exact iff_of_true hm (WithTop.coe_lt_top m)
  | coe n => exact Nat.cast_lt.symm

theorem untopD_lt {d : WithTop ℕ} {m : ℕ} (hm : m < usizeMax) :
    d.untopD usizeMax < m ↔ d < (m : WithTop ℕ) := by
  cases d with
  | top => exact iff_of_false (Nat.not_lt.2 hm.le) (not_lt.2 le_top)
  | coe n => exact Nat.cast_lt.symm

namespace Word

theorem consider_of_not_candidate {a : Search} (hx : ¬ Candidate x) : consider k now a x = a := by
  obtain ⟨f, history, evictable⟩ := x
  cases evictable with
  | false => rfl
  | true =>
    cases history with
    | nil => rfl
    | cons first rest => exact absurd ⟨rfl, nofun⟩ hx

theorem consider_of_candidate {a : Search} (hx : Candidate x) : consider k now a x =
    if x.2.history.length < k then
      if x.2.history.headD 0 < a.earliestAccessForInf then
        ⟨some x.1, usizeMax, x.2.history.headD 0⟩
      else a
    else if a.maxBackwardKDist < usizeMax then
      if a.maxBackwardKDist < now - x.2.history.headD 0 then
        { a with victim := some x.1, maxBackwardKDist := now - x.2.history.headD 0 }
      else a
    else a := by
  obtain ⟨f, history, evictable⟩ := x
  obtain ⟨hevict, hhist⟩ := hx
  obtain rfl : evictable = true := hevict
  cases history with
  | nil => exact absurd rfl hhist
  | cons first rest => rfl

end Word

/-- A turn with words is the turn without, and stays below `usize::MAX`. -/
theorem consider_toWord {a : Search} (ha : a.Below) (hnow : now < usizeMax)
    (hpast : ∀ t ∈ x.2.history, t < now) :
    Word.consider k now a.toWord x = (consider k now a x).toWord ∧ (consider k now a x).Below := by
  by_cases hx : Candidate x
  · have hfirst : x.2.history.headD 0 < usizeMax := (headD_lt hx hpast).trans hnow
    have hdist : now - x.2.history.headD 0 < usizeMax := (Nat.sub_le _ _).trans_lt hnow
    rw [Word.consider_of_candidate hx, consider_of_candidate hx, Search.toWord]
    dsimp only
    simp only [lt_untopD hfirst, untopD_lt hdist,
      untopD_lt_max fun m hm => ha m (Or.inl hm)]
    split_ifs
    · refine ⟨rfl, fun d hd => ?_⟩
      rcases hd with hd | hd
      · exact absurd hd (WithTop.top_ne_coe)
      · exact (Nat.cast_inj.1 hd) ▸ hfirst
    · exact ⟨rfl, ha⟩
    · refine ⟨rfl, fun d hd => ?_⟩
      rcases hd with hd | hd
      · exact (Nat.cast_inj.1 hd) ▸ hdist
      · exact ha d (Or.inr hd)
    · exact ⟨rfl, ha⟩
    · exact ⟨rfl, ha⟩
  · rw [Word.consider_of_not_candidate hx, consider_of_not_candidate hx]
    exact ⟨rfl, ha⟩

theorem foldl_consider_toWord {xs : List (ℕ × FrameInfo)} {a : Search} (ha : a.Below)
    (hnow : now < usizeMax) (hpast : ∀ x ∈ xs, ∀ t ∈ x.2.history, t < now) :
    xs.foldl (Word.consider k now) a.toWord = (xs.foldl (consider k now) a).toWord := by
  induction xs generalizing a with
  | nil => rfl
  | cons x xs ih =>
    obtain ⟨hturn, hbelow⟩ := consider_toWord (k := k) ha hnow (hpast x List.mem_cons_self)
    rw [List.foldl_cons, List.foldl_cons, hturn]
    exact ih hbelow fun y hy => hpast y (List.mem_cons_of_mem _ hy)

namespace Word

/-- **The search with `usize::MAX` finds the same victim.** -/
theorem findVictim_eq (h : Past s) (hnow : s.currentTimestamp < usizeMax) :
    findVictim k s = LruK.findVictim k s := by
  have hbelow : (⟨none, 0, ⊤⟩ : LruK.Search).Below := by
    rintro d (hd | hd)
    · have hzero : d = 0 := (Nat.cast_inj.1 hd).symm
      rw [hzero]
      exact (Nat.zero_le _).trans_lt hnow
    · exact absurd hd WithTop.top_ne_coe
  rw [findVictim, LruK.findVictim]
  exact congrArg Search.victim (foldl_consider_toWord hbelow hnow h)

/-- **The clock does not wrap.** -/
theorem run_eq (h : accessCount calls < usizeMax) :
    run (call k) calls = run (LruK.call k) calls := by
  induction calls with
  | nil => rfl
  | cons c earlier ih =>
    cases c with
    | recordAccess frame =>
      have hearlier : accessCount earlier + 1 < usizeMax := h
      have hclock : (run (LruK.call k) earlier).currentTimestamp = accessCount earlier :=
        (holds_run earlier).clock
      have hmod : (accessCount earlier + 1) % 2 ^ 64 = accessCount earlier + 1 :=
        Nat.mod_eq_of_lt (by rw [usizeMax] at hearlier; omega)
      rw [run, run, ih (Nat.lt_of_succ_lt hearlier), call, LruK.call, recordAccess,
        LruK.recordAccess, hclock, hmod]
    | setEvictable frame evictable =>
      rw [run, run, ih h]
      rfl
    | removeFrame frame =>
      rw [run, run, ih h]
      rfl

/-- **The victim of LRU-K.**  After any calls, of which fewer than `usize::MAX` are accesses,
and in whatever order the map is walked. -/
theorem findVictim_choice (hk : 1 ≤ k) (hfew : accessCount calls < usizeMax)
    {order : List (ℕ × FrameInfo)} (horder : order.Perm (run (call k) calls).state) :
    Chosen k calls (findVictim k { run (call k) calls with state := order }) := by
  rw [run_eq hfew] at horder ⊢
  have hholds : Holds k calls { run (LruK.call k) calls with state := order } :=
    (holds_run calls).perm horder
  rw [findVictim_eq hholds.past (hholds.clock ▸ hfew)]
  exact hholds.chosen hk

/-- Two frames with both rules at work, and the map walked against its order. -/
theorem findVictim_choice_two : Chosen 2
    [.setEvictable 5 true, .setEvictable 3 true, .recordAccess 5, .recordAccess 3, .recordAccess 3]
    (findVictim 2 ⟨3, [(5, ⟨[2], true⟩), (3, ⟨[0, 1], true⟩)]⟩) :=
  findVictim_choice (by decide) (by decide) (by decide)

end Word

end LruK
end Buffer
end Abdb
