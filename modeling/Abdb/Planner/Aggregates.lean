/-
# The aggregate calls that are planned

`collect_aggregates` of `src/planner/planner.rs` walks the projections and the HAVING expression
below binary and unary operators and CASE, and no further.  It enters the first call it meets for
each alias, whatever the call is, and HAVING has the alias `having`.

So a call is planned exactly if it is, by its function, argument and DISTINCT, the first call the
walk meets in an item whose alias no earlier item with a call has (`planned_iff`).
-/

import Abdb.Planner.Select

namespace Abdb

/-- What an aggregate call computes. -/
structure AggregateCall where
  kind : FunctionKind
  arg : Option BoundExpr
  distinct : Bool

/-- The call an entry is for. -/
def AggregateExpr.call (agg : AggregateExpr) : AggregateCall := ⟨agg.kind, agg.arg, agg.distinct⟩

mutual

/-- The aggregate calls of an expression, at any depth; a subquery has its own. -/
def BoundExpr.aggregateCalls : BoundExpr → List AggregateCall
  | ⟨kind, _, _⟩ => kind.aggregateCalls

def BoundExprKind.aggregateCalls : BoundExprKind → List AggregateCall
  | .literal _ => []
  | .columnRef _ => []
  | .binaryOp left _ right => left.aggregateCalls ++ right.aggregateCalls
  | .unaryOp _ expr => expr.aggregateCalls
  | .isNull expr => expr.aggregateCalls
  | .isNotNull expr => expr.aggregateCalls
  | .like expr pattern _ => expr.aggregateCalls ++ pattern.aggregateCalls
  | .between expr low high _ => expr.aggregateCalls ++ low.aggregateCalls ++ high.aggregateCalls
  | .inList expr list _ => expr.aggregateCalls ++ aggregateCallsList list
  | .inSubquery expr _ _ => expr.aggregateCalls
  | .existsSubquery _ _ => []
  | .subquery _ => []
  | .function ⟨_, kind, args, distinct⟩ =>
    (if kind.isAggregate then [⟨kind, args.head?, distinct⟩] else []) ++ aggregateCallsList args
  | .cast expr _ => expr.aggregateCalls
  | .case operand whenThen elseResult =>
    aggregateCallsOption operand ++ aggregateCallsPairs whenThen ++ aggregateCallsOption elseResult

def aggregateCallsList : List BoundExpr → List AggregateCall
  | [] => []
  | e :: list => e.aggregateCalls ++ aggregateCallsList list

def aggregateCallsOption : Option BoundExpr → List AggregateCall
  | none => []
  | some e => e.aggregateCalls

def aggregateCallsPairs : List (BoundExpr × BoundExpr) → List AggregateCall
  | [] => []
  | (w, t) :: list => w.aggregateCalls ++ t.aggregateCalls ++ aggregateCallsPairs list

end

namespace Planner

mutual

/-- The entries for the calls the walk meets: below binary and unary operators and CASE. -/
def walked (aliasName : String) : BoundExpr → List AggregateExpr
  | ⟨kind, dataType, nullable⟩ => walkedKind aliasName dataType nullable kind

def walkedKind (aliasName : String) (dataType : DataType) (nullable : Bool) :
    BoundExprKind → List AggregateExpr
  | .function ⟨_, kind, args, distinct⟩ =>
    if kind.isAggregate then [⟨kind, args.head?, distinct, aliasName, dataType, nullable⟩] else []
  | .binaryOp left _ right => walked aliasName left ++ walked aliasName right
  | .unaryOp _ expr => walked aliasName expr
  | .case operand whenThen elseResult =>
    walkedOption aliasName operand ++ walkedPairs aliasName whenThen ++ walkedOption aliasName elseResult
  | _ => []

def walkedOption (aliasName : String) : Option BoundExpr → List AggregateExpr
  | none => []
  | some e => walked aliasName e

def walkedPairs (aliasName : String) : List (BoundExpr × BoundExpr) → List AggregateExpr
  | [] => []
  | (w, t) :: list => walked aliasName w ++ walked aliasName t ++ walkedPairs aliasName list

end

/-- The expressions that are walked, each with its alias. -/
def aggregateItems (projections : List BoundSelectItem) (having : Option BoundExpr) :
    List (String × BoundExpr) :=
  projections.map (fun proj => (proj.aliasName, proj.expr)) ++ having.toList.map ("having", ·)

/-- The calls of a SELECT list and a HAVING expression. -/
def aggregateCallsOf (projections : List BoundSelectItem) (having : Option BoundExpr) :
    List AggregateCall :=
  (aggregateItems projections having).flatMap (·.2.aggregateCalls)

/-- A call is the first that the walk meets in an item, and no earlier item with the same alias
has a call that the walk meets. -/
def Leads (items : List (String × BoundExpr)) (call : AggregateCall) : Prop :=
  ∃ before aliasName e after, items = before ++ (aliasName, e) :: after ∧
    (walked aliasName e).head?.map (·.call) = some call ∧
    ∀ item ∈ before, item.1 = aliasName → walked aliasName item.2 = []

/-- **Every call is planned**: it has an entry with its function, argument and DISTINCT, and two
different calls have different entries. -/
def EveryCallPlanned (projections : List BoundSelectItem) (having : Option BoundExpr) : Prop :=
  ∃ entry : {call // call ∈ aggregateCallsOf projections having} → AggregateExpr,
    Function.Injective entry ∧
    ∀ call, entry call ∈ collectAggregates projections having ∧ (entry call).call = call.1

/-! ### One entry for an alias -/

variable {aliasName : String} {out found found' : List AggregateExpr} {e : BoundExpr} {x : AggregateExpr}
  {projections : List BoundSelectItem} {having : Option BoundExpr}

/-- The first call that was found is entered, unless the alias has an entry. -/
def enter (aliasName : String) (out found : List AggregateExpr) : List AggregateExpr :=
  if out.any (·.aliasName = aliasName) then out else out ++ found.take 1

theorem enter_nil : enter aliasName out [] = out := by
  rw [enter, List.take_nil, List.append_nil, ite_self]

/-- **Entering calls one after the other** is entering them together. -/
theorem enter_enter (h : ∀ x ∈ found, x.aliasName = aliasName) :
    enter aliasName (enter aliasName out found) found' = enter aliasName out (found ++ found') := by
  cases found with
  | nil => rw [enter_nil, List.nil_append]
  | cons x found =>
    have hx : x.aliasName = aliasName := h x List.mem_cons_self
    by_cases hany : out.any (·.aliasName = aliasName) = true
    · rw [enter, enter, enter, if_pos hany, if_pos hany, if_pos hany]
    · have hnow : (out ++ [x]).any (·.aliasName = aliasName) = true := by
        rw [List.any_append, Bool.or_eq_true]
        exact .inr (by simp [hx])
      rw [enter, enter, enter, if_neg hany, if_neg hany]
      exact if_pos hnow

mutual

theorem walked_aliasName (aliasName : String) : ∀ e, ∀ x ∈ walked aliasName e, x.aliasName = aliasName
  | ⟨kind, dataType, nullable⟩ => walkedKind_aliasName aliasName dataType nullable kind

theorem walkedKind_aliasName (aliasName : String) (dataType : DataType) (nullable : Bool) :
    ∀ kind, ∀ x ∈ walkedKind aliasName dataType nullable kind, x.aliasName = aliasName
  | .function ⟨_, kind, _, _⟩, x, hx => by
    rw [walkedKind] at hx
    split at hx
    · rw [List.mem_singleton.1 hx]
    · cases hx
  | .binaryOp left _ right, x, hx => by
    rcases List.mem_append.1 hx with hx | hx
    · exact walked_aliasName aliasName left x hx
    · exact walked_aliasName aliasName right x hx
  | .unaryOp _ expr, x, hx => walked_aliasName aliasName expr x hx
  | .case operand whenThen elseResult, x, hx => by
    rcases List.mem_append.1 hx with hx | hx
    · rcases List.mem_append.1 hx with hx | hx
      · exact walkedOption_aliasName aliasName operand x hx
      · exact walkedPairs_aliasName aliasName whenThen x hx
    · exact walkedOption_aliasName aliasName elseResult x hx
  | .literal _, _, hx | .columnRef _, _, hx | .isNull _, _, hx | .isNotNull _, _, hx => by cases hx
  | .like _ _ _, _, hx | .between _ _ _ _, _, hx | .inList _ _ _, _, hx => by cases hx
  | .inSubquery _ _ _, _, hx | .existsSubquery _ _, _, hx | .subquery _, _, hx => by cases hx
  | .cast _ _, _, hx => by cases hx

theorem walkedOption_aliasName (aliasName : String) :
    ∀ o, ∀ x ∈ walkedOption aliasName o, x.aliasName = aliasName
  | none, _, hx => by cases hx
  | some e, x, hx => walked_aliasName aliasName e x hx

theorem walkedPairs_aliasName (aliasName : String) :
    ∀ list, ∀ x ∈ walkedPairs aliasName list, x.aliasName = aliasName
  | [], _, hx => by cases hx
  | (w, t) :: list, x, hx => by
    rcases List.mem_append.1 hx with hx | hx
    · rcases List.mem_append.1 hx with hx | hx
      · exact walked_aliasName aliasName w x hx
      · exact walked_aliasName aliasName t x hx
    · exact walkedPairs_aliasName aliasName list x hx

end

mutual

/-- **The walk enters the first call it meets**, if its alias has no entry. -/
theorem collectAgg_eq (aliasName : String) : ∀ (out : List AggregateExpr) (e : BoundExpr),
    collectAgg aliasName out e = enter aliasName out (walked aliasName e)
  | out, ⟨kind, dataType, nullable⟩ => collectAggKind_eq aliasName out dataType nullable kind

theorem collectAggKind_eq (aliasName : String) (out : List AggregateExpr) (dataType : DataType)
    (nullable : Bool) : ∀ kind, collectAggKind aliasName out dataType nullable kind =
      enter aliasName out (walkedKind aliasName dataType nullable kind)
  | .function ⟨_, kind, args, distinct⟩ => by
    rw [collectAggKind, walkedKind]
    cases hagg : kind.isAggregate with
    | false => exact enter_nil.symm
    | true =>
      rw [enter]
      cases out.any (·.aliasName = aliasName) <;> rfl
  | .binaryOp left _ right => by
    rw [collectAggKind, walkedKind, collectAgg_eq aliasName _ right, collectAgg_eq aliasName out left,
      enter_enter (walked_aliasName aliasName left)]
  | .unaryOp _ expr => collectAgg_eq aliasName out expr
  | .case operand whenThen elseResult => by
    have hfirst := walkedOption_aliasName aliasName operand
    have hboth : ∀ x ∈ walkedOption aliasName operand ++ walkedPairs aliasName whenThen,
        x.aliasName = aliasName :=
      List.forall_mem_append.2 ⟨hfirst, walkedPairs_aliasName aliasName whenThen⟩
    rw [collectAggKind, walkedKind, collectAggOption_eq aliasName _ elseResult,
      collectAggPairs_eq aliasName _ whenThen, collectAggOption_eq aliasName out operand,
      enter_enter hfirst, enter_enter hboth]
  | .literal _ | .columnRef _ | .isNull _ | .isNotNull _ => enter_nil.symm
  | .like _ _ _ | .between _ _ _ _ | .inList _ _ _ | .inSubquery _ _ _ => enter_nil.symm
  | .existsSubquery _ _ | .subquery _ | .cast _ _ => enter_nil.symm

theorem collectAggOption_eq (aliasName : String) : ∀ (out : List AggregateExpr) (o : Option BoundExpr),
    collectAggOption aliasName out o = enter aliasName out (walkedOption aliasName o)
  | _, none => enter_nil.symm
  | out, some e => collectAgg_eq aliasName out e

theorem collectAggPairs_eq (aliasName : String) : ∀ (out : List AggregateExpr)
    (list : List (BoundExpr × BoundExpr)),
    collectAggPairs aliasName out list = enter aliasName out (walkedPairs aliasName list)
  | _, [] => enter_nil.symm
  | out, (w, t) :: list => by
    have hboth : ∀ x ∈ walked aliasName w ++ walked aliasName t, x.aliasName = aliasName :=
      List.forall_mem_append.2 ⟨walked_aliasName aliasName w, walked_aliasName aliasName t⟩
    rw [collectAggPairs, walkedPairs, collectAggPairs_eq aliasName _ list, collectAgg_eq aliasName _ t,
      collectAgg_eq aliasName out w, enter_enter (walked_aliasName aliasName w), enter_enter hboth]

end

/-- The entries are made item by item. -/
theorem collectAggregates_eq : collectAggregates projections having =
    (aggregateItems projections having).foldl (fun out item => enter item.1 out (walked item.1 item.2)) [] := by
  rw [collectAggregates, collectAggOption_eq, aggregateItems, List.foldl_append]
  simp only [collectAgg_eq]
  cases having with
  | none => rw [walkedOption, enter_nil, Option.toList_none, List.map_nil, List.foldl_nil, List.foldl_map]
  | some e =>
    rw [walkedOption, Option.toList_some, List.map_singleton, List.foldl_cons, List.foldl_nil, List.foldl_map]

/-! ### The entries -/

theorem mem_enter : x ∈ enter aliasName out found ↔
    x ∈ out ∨ found.head? = some x ∧ out.any (·.aliasName = aliasName) = false := by
  rw [enter]
  split
  · rename_i hany
    simp [hany]
  · rename_i hany
    cases found with
    | nil => simp
    | cons y found =>
      have hhead : (y :: found).head? = some x ↔ x = y := Option.some_inj.trans eq_comm
      rw [List.take_succ_cons, List.take_zero, List.mem_append, List.mem_singleton, hhead]
      exact or_congr_right (and_iff_left (Bool.of_not_eq_true hany)).symm

theorem any_enter (h : ∀ x ∈ found, x.aliasName = aliasName) (other : String) :
    (enter aliasName out found).any (·.aliasName = other) = false ↔
      out.any (·.aliasName = other) = false ∧ (aliasName = other → found = []) := by
  rw [enter]
  split
  · rename_i hany
    refine ⟨fun hout => ⟨hout, fun heq => ?_⟩, And.left⟩
    subst heq
    exact absurd hany (hout ▸ Bool.false_ne_true)
  · cases found with
    | nil => simp
    | cons y found =>
      have hy : y.aliasName = aliasName := h y List.mem_cons_self
      simp [hy]

/-- **An entry stands for the first call of an item** whose alias has no entry before. -/
theorem mem_foldl_enter : ∀ (items : List (String × BoundExpr)) (out : List AggregateExpr),
    x ∈ items.foldl (fun out item => enter item.1 out (walked item.1 item.2)) out ↔
      x ∈ out ∨ ∃ before aliasName e after, items = before ++ (aliasName, e) :: after ∧
        (walked aliasName e).head? = some x ∧
        (∀ item ∈ before, item.1 = aliasName → walked aliasName item.2 = []) ∧
        out.any (·.aliasName = aliasName) = false
  | [], out => by simp
  | (a, e) :: items, out => by
    rw [List.foldl_cons, mem_foldl_enter items, mem_enter, or_assoc]
    refine or_congr_right ⟨?_, ?_⟩
    · rintro (⟨hhead, hany⟩ | ⟨before, b, e', after, rfl, hhead, hbefore, hany⟩)
      · exact ⟨[], a, e, items, rfl, hhead, List.forall_mem_nil _, hany⟩
      · obtain ⟨hout, hfirst⟩ := (any_enter (walked_aliasName a e) b).1 hany
        refine ⟨(a, e) :: before, b, e', after, rfl, hhead, List.forall_mem_cons.2 ⟨?_, hbefore⟩, hout⟩
        rintro rfl
        exact hfirst rfl
    · rintro ⟨before, b, e', after, heq, hhead, hbefore, hany⟩
      cases before with
      | nil =>
        obtain ⟨hitem, rfl⟩ := List.cons.inj heq
        obtain ⟨rfl, rfl⟩ := Prod.mk.inj hitem
        exact .inl ⟨hhead, hany⟩
      | cons item before =>
        obtain ⟨rfl, rfl⟩ := List.cons.inj heq
        obtain ⟨hfirst, hbefore⟩ := List.forall_mem_cons.1 hbefore
        refine .inr ⟨before, b, e', after, rfl, hhead, hbefore, (any_enter (walked_aliasName a e) b).2 ⟨hany, ?_⟩⟩
        rintro rfl
        exact hfirst rfl

/-- A call has an entry exactly if it leads. -/
theorem exists_entry_iff (call : AggregateCall) :
    (∃ x ∈ collectAggregates projections having, x.call = call) ↔
      Leads (aggregateItems projections having) call := by
  rw [collectAggregates_eq]
  constructor
  · rintro ⟨x, hx, rfl⟩
    rcases (mem_foldl_enter _ _).1 hx with hx | ⟨before, aliasName, e, after, heq, hhead, hbefore, -⟩
    · cases hx
    · exact ⟨before, aliasName, e, after, heq, by rw [hhead, Option.map_some], hbefore⟩
  · rintro ⟨before, aliasName, e, after, heq, hcall, hbefore⟩
    obtain ⟨x, hhead, hx⟩ := Option.map_eq_some_iff.1 hcall
    exact ⟨x, (mem_foldl_enter _ _).2 (.inr ⟨before, aliasName, e, after, heq, hhead, hbefore, rfl⟩), hx⟩

/-- **Every aggregate call is planned exactly if every one leads**: it is the first call that the
walk meets in an item whose alias no earlier item with such a call has. -/
theorem planned_iff (projections : List BoundSelectItem) (having : Option BoundExpr) :
    EveryCallPlanned projections having ↔
      ∀ call ∈ aggregateCallsOf projections having, Leads (aggregateItems projections having) call := by
  constructor
  · rintro ⟨entry, -, hentry⟩ call hcall
    exact (exists_entry_iff call).1 ⟨entry ⟨call, hcall⟩, hentry ⟨call, hcall⟩⟩
  · intro hleads
    have hexists : ∀ call : {call // call ∈ aggregateCallsOf projections having},
        ∃ x, x ∈ collectAggregates projections having ∧ x.call = call.1 := fun call =>
      (exists_entry_iff call.1).2 (hleads call.1 call.2)
    choose entry hentry using hexists
    refine ⟨entry, fun call call' heq => Subtype.ext ?_, hentry⟩
    rw [← (hentry call).2, ← (hentry call').2, heq]

/-- The argument of a call of COUNT. -/
def countArg (column : ℕ) : BoundExpr := ⟨.columnRef ⟨none, "a", column⟩, .i64, false⟩

/-- A call of COUNT. -/
def countCall (column : ℕ) : BoundExpr :=
  ⟨.function ⟨"count", .count, [countArg column], false⟩, .i64, false⟩

/-- **One entry for two calls**: `SELECT count(a), count(b)` has the alias `count` twice. -/
theorem count_count : ¬ ∀ projections having, EveryCallPlanned projections having := by
  intro hall
  obtain ⟨entry, -, hentry⟩ := hall [⟨countCall 0, "count"⟩, ⟨countCall 1, "count"⟩] none
  obtain ⟨hmem, hcall⟩ := hentry ⟨⟨.count, some (countArg 1), false⟩, List.mem_cons_of_mem _ List.mem_cons_self⟩
  have hfirst := List.mem_singleton.1 hmem
  rw [hfirst] at hcall
  cases hcall

end Planner
end Abdb
