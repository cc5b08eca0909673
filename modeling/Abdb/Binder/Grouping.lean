/-
# Grouping

SQL's rules about aggregates: none in WHERE, GROUP BY and the conditions of joins, and in a query
that groups its rows every column outside the aggregates belongs to an expression of GROUP BY.
`src/binder/error.rs` has errors for both, and `bind_select` never gives them: it checks nothing of
the kind.

So an accepted SELECT obeys the rules exactly if it was written so (`grouping_iff`): the syntax,
with its names resolved, already had no aggregate out of place and no column outside GROUP BY.
-/

import Abdb.Binder.InScope
import Abdb.Binder.JoinUsing
import Abdb.Binder.Modify
import Abdb.Planner.Aggregates

namespace Abdb

/-! ### Bound statements -/

mutual

/-- Every column of an expression is in an argument of an aggregate or in an expression of GROUP BY. -/
def BoundExpr.Grouped (groupBy : List BoundExpr) : BoundExpr → Prop
  | ⟨kind, dataType, nullable⟩ => ⟨kind, dataType, nullable⟩ ∈ groupBy ∨ kind.Grouped groupBy

def BoundExprKind.Grouped (groupBy : List BoundExpr) : BoundExprKind → Prop
  | .literal _ => True
  | .columnRef _ => False
  | .binaryOp left _ right => left.Grouped groupBy ∧ right.Grouped groupBy
  | .unaryOp _ expr => expr.Grouped groupBy
  | .isNull expr => expr.Grouped groupBy
  | .isNotNull expr => expr.Grouped groupBy
  | .like expr pattern _ => expr.Grouped groupBy ∧ pattern.Grouped groupBy
  | .between expr low high _ => expr.Grouped groupBy ∧ low.Grouped groupBy ∧ high.Grouped groupBy
  | .inList expr list _ => expr.Grouped groupBy ∧ groupedList groupBy list
  | .inSubquery expr _ _ => expr.Grouped groupBy
  | .existsSubquery _ _ => True
  | .subquery _ => True
  | .function ⟨_, kind, args, _⟩ => kind.isAggregate = true ∨ groupedList groupBy args
  | .cast expr _ => expr.Grouped groupBy
  | .case operand whenThen elseResult =>
    groupedOption groupBy operand ∧ groupedPairs groupBy whenThen ∧ groupedOption groupBy elseResult

def groupedList (groupBy : List BoundExpr) : List BoundExpr → Prop
  | [] => True
  | e :: list => e.Grouped groupBy ∧ groupedList groupBy list

def groupedOption (groupBy : List BoundExpr) : Option BoundExpr → Prop
  | none => True
  | some e => e.Grouped groupBy

def groupedPairs (groupBy : List BoundExpr) : List (BoundExpr × BoundExpr) → Prop
  | [] => True
  | (w, t) :: list => w.Grouped groupBy ∧ t.Grouped groupBy ∧ groupedPairs groupBy list

end

/-- The expressions that are read on groups, where there are any. -/
def BoundSelect.groupExprs (b : BoundSelect) : List BoundExpr :=
  b.projections.map (·.expr) ++ b.having.toList ++ b.orderBy.map (·.expr)

/-- **The grouping rules**, of a bound SELECT. -/
structure GroupingRules (b : BoundSelect) : Prop where
  whereClause : ∀ e ∈ b.whereClause.toList, e.aggregateCalls = []
  groupBy : ∀ e ∈ b.groupBy, e.aggregateCalls = []
  joins : ∀ j ∈ b.joins, ∀ e ∈ j.condition.exprs, e.aggregateCalls = []
  grouped : (b.groupBy ≠ [] ∨ ∃ e ∈ b.groupExprs, e.aggregateCalls ≠ []) →
    ∀ e ∈ b.groupExprs, e.Grouped b.groupBy

/-! ### Statements as written -/

mutual

/-- An aggregate call occurs in an expression as written; a subquery has its own. -/
def Ast.Expr.aggregates : Ast.Expr → Bool
  | .literal _ => false
  | .column _ => false
  | .binaryOp left _ right => left.aggregates || right.aggregates
  | .unaryOp _ expr => expr.aggregates
  | .isNull expr => expr.aggregates
  | .isNotNull expr => expr.aggregates
  | .like expr pattern _ => expr.aggregates || pattern.aggregates
  | .between expr low high _ => expr.aggregates || low.aggregates || high.aggregates
  | .inList expr list _ => expr.aggregates || aggregatesList list
  | .inSubquery expr _ _ => expr.aggregates
  | .existsSubquery _ _ => false
  | .subquery _ => false
  | .function name args _ => (FunctionKind.ofName name).isAggregate || aggregatesList args
  | .cast expr _ => expr.aggregates
  | .case operand whenThen elseResult =>
    aggregatesOption operand || aggregatesPairs whenThen || aggregatesOption elseResult
  | .wildcard => false

def aggregatesList : List Ast.Expr → Bool
  | [] => false
  | e :: list => e.aggregates || aggregatesList list

def aggregatesOption : Option Ast.Expr → Bool
  | none => false
  | some e => e.aggregates

def aggregatesPairs : List (Ast.Expr × Ast.Expr) → Bool
  | [] => false
  | (w, t) :: list => w.aggregates || t.aggregates || aggregatesPairs list

end

namespace Binder

/-- An expression is one of GROUP BY, once the names are resolved. -/
def Named (acc : Accessor) (scope : Scope) (groupBy : List Ast.Expr) (e : Ast.Expr) : Prop :=
  ∃ g ∈ groupBy, ∃ bound, bindExpr acc scope g = .ok bound ∧ bindExpr acc scope e = .ok bound

mutual

/-- Every column of an expression as written is in an argument of an aggregate or in an expression
of GROUP BY. -/
def Covered (acc : Accessor) (scope : Scope) (groupBy : List Ast.Expr) : Ast.Expr → Prop
  | .literal _ => True
  | .column c => Named acc scope groupBy (.column c)
  | .binaryOp left op right => Named acc scope groupBy (.binaryOp left op right) ∨
      Covered acc scope groupBy left ∧ Covered acc scope groupBy right
  | .unaryOp op expr => Named acc scope groupBy (.unaryOp op expr) ∨ Covered acc scope groupBy expr
  | .isNull expr => Named acc scope groupBy (.isNull expr) ∨ Covered acc scope groupBy expr
  | .isNotNull expr => Named acc scope groupBy (.isNotNull expr) ∨ Covered acc scope groupBy expr
  | .like expr pattern negated => Named acc scope groupBy (.like expr pattern negated) ∨
      Covered acc scope groupBy expr ∧ Covered acc scope groupBy pattern
  | .between expr low high negated => Named acc scope groupBy (.between expr low high negated) ∨
      Covered acc scope groupBy expr ∧ Covered acc scope groupBy low ∧ Covered acc scope groupBy high
  | .inList expr list negated => Named acc scope groupBy (.inList expr list negated) ∨
      Covered acc scope groupBy expr ∧ coveredList acc scope groupBy list
  | .inSubquery expr subquery negated => Named acc scope groupBy (.inSubquery expr subquery negated) ∨
      Covered acc scope groupBy expr
  | .existsSubquery _ _ => True
  | .subquery _ => True
  | .function name args distinct => Named acc scope groupBy (.function name args distinct) ∨
      (FunctionKind.ofName name).isAggregate = true ∨ coveredList acc scope groupBy args
  | .cast expr dataType => Named acc scope groupBy (.cast expr dataType) ∨ Covered acc scope groupBy expr
  | .case operand whenThen elseResult => Named acc scope groupBy (.case operand whenThen elseResult) ∨
      coveredOption acc scope groupBy operand ∧ coveredPairs acc scope groupBy whenThen ∧
        coveredOption acc scope groupBy elseResult
  | .wildcard => True

def coveredList (acc : Accessor) (scope : Scope) (groupBy : List Ast.Expr) : List Ast.Expr → Prop
  | [] => True
  | e :: list => Covered acc scope groupBy e ∧ coveredList acc scope groupBy list

def coveredOption (acc : Accessor) (scope : Scope) (groupBy : List Ast.Expr) : Option Ast.Expr → Prop
  | none => True
  | some e => Covered acc scope groupBy e

def coveredPairs (acc : Accessor) (scope : Scope) (groupBy : List Ast.Expr) :
    List (Ast.Expr × Ast.Expr) → Prop
  | [] => True
  | (w, t) :: list => Covered acc scope groupBy w ∧ Covered acc scope groupBy t ∧
      coveredPairs acc scope groupBy list

end

/-- The columns of an item of the SELECT list are covered; those of `*` are the columns of the scope. -/
def CoveredItem (acc : Accessor) (scope : Scope) (groupBy : List Ast.Expr) : Ast.SelectItem → Prop
  | .wildcard => ∀ sc ∈ scope.columns, ∃ g ∈ groupBy, bindExpr acc scope g = .ok sc.toExpr
  | .qualifiedWildcard qualifier =>
    ∀ sc ∈ scope.allColumnsForQualifier qualifier, ∃ g ∈ groupBy, bindExpr acc scope g = .ok sc.toExpr
  | .expr expr _ => Covered acc scope groupBy expr

/-- An aggregate call occurs in an item of the SELECT list. -/
def itemAggregates : Ast.SelectItem → Bool
  | .expr expr _ => expr.aggregates
  | _ => false

/-- A query that groups its rows: by GROUP BY, or because it has an aggregate. -/
def Groups (stmt : Ast.SelectStmt) : Prop :=
  stmt.groupBy ≠ [] ∨ (∃ item ∈ stmt.projections, itemAggregates item = true) ∨
    (∃ e ∈ stmt.having.toList, e.aggregates = true) ∨ ∃ o ∈ stmt.orderBy, o.expr.aggregates = true

/-- **The grouping rules**, of a SELECT as written.  ORDER BY may name an item of the SELECT list. -/
structure WrittenRules (acc : Accessor) (scope : Scope) (stmt : Ast.SelectStmt) : Prop where
  whereClause : ∀ e ∈ stmt.whereClause.toList, e.aggregates = false
  groupBy : ∀ e ∈ stmt.groupBy, e.aggregates = false
  joins : ∀ j ∈ stmt.joins, ∀ e, j.condition = .on e → e.aggregates = false
  projections : Groups stmt → ∀ item ∈ stmt.projections, CoveredItem acc scope stmt.groupBy item
  having : Groups stmt → ∀ e ∈ stmt.having.toList, Covered acc scope stmt.groupBy e
  orderBy : Groups stmt → ∀ items, bindItems acc scope stmt.projections = .ok items →
    ∀ o ∈ stmt.orderBy, orderByItem items o.expr = none → Covered acc scope stmt.groupBy o.expr

variable {acc : Accessor} {scope : Scope} {groupBy : List Ast.Expr} {bound : List BoundExpr}

/-! ### Aggregates -/

mutual

/-- **The binder keeps the aggregate calls.** -/
theorem Binds.aggregates : ∀ {e : Ast.Expr} {b : BoundExpr}, Binds acc scope e b →
    (b.aggregateCalls = [] ↔ e.aggregates = false)
  | .literal lit, _, .literal => by cases lit <;> exact iff_of_true rfl rfl
  | .column _, _, .column _ => iff_of_true rfl rfl
  | .binaryOp _ _ _, _, .binaryOp hl hr _ => by
    rw [BoundExpr.aggregateCalls, BoundExprKind.aggregateCalls, List.append_eq_nil_iff, Ast.Expr.aggregates,
      Bool.or_eq_false_iff, hl.aggregates, hr.aggregates]
  | .unaryOp _ _, _, .unaryOp hinner _ => by
    rw [BoundExpr.aggregateCalls, BoundExprKind.aggregateCalls, Ast.Expr.aggregates, hinner.aggregates]
  | .isNull _, _, .isNull hinner => by
    rw [BoundExpr.aggregateCalls, BoundExprKind.aggregateCalls, Ast.Expr.aggregates, hinner.aggregates]
  | .isNotNull _, _, .isNotNull hinner => by
    rw [BoundExpr.aggregateCalls, BoundExprKind.aggregateCalls, Ast.Expr.aggregates, hinner.aggregates]
  | .like _ _ _, _, .like he hp => by
    rw [BoundExpr.aggregateCalls, BoundExprKind.aggregateCalls, List.append_eq_nil_iff, Ast.Expr.aggregates,
      Bool.or_eq_false_iff, he.aggregates, hp.aggregates]
  | .between _ _ _ _, _, .between he hl hh => by
    rw [BoundExpr.aggregateCalls, BoundExprKind.aggregateCalls, List.append_eq_nil_iff,
      List.append_eq_nil_iff,
      Ast.Expr.aggregates, Bool.or_eq_false_iff, Bool.or_eq_false_iff, he.aggregates, hl.aggregates,
        hh.aggregates]
  | .inList _ _ _, _, .inList he hl => by
    rw [BoundExpr.aggregateCalls, BoundExprKind.aggregateCalls, List.append_eq_nil_iff, Ast.Expr.aggregates,
      Bool.or_eq_false_iff, he.aggregates, hl.aggregates]
  | .inSubquery _ _ _, _, .inSubquery he _ _ => by
    rw [BoundExpr.aggregateCalls, BoundExprKind.aggregateCalls, Ast.Expr.aggregates, he.aggregates]
  | .existsSubquery _ _, _, .existsSubquery _ => iff_of_true rfl rfl
  | .subquery _, _, .subquery _ _ => iff_of_true rfl rfl
  | .function name _ _, _, .function hl _ => by
    rw [BoundExpr.aggregateCalls, BoundExprKind.aggregateCalls, List.append_eq_nil_iff, Ast.Expr.aggregates,
      Bool.or_eq_false_iff, hl.aggregates]
    refine and_congr_left' ?_
    cases (FunctionKind.ofName name).isAggregate
    · exact iff_of_true rfl rfl
    · exact iff_of_false (List.cons_ne_nil _ _) nofun
  | .cast _ _, _, .cast hinner => by
    rw [BoundExpr.aggregateCalls, BoundExprKind.aggregateCalls, Ast.Expr.aggregates, hinner.aggregates]
  | .case _ _ _, _, .case ho hw he => by
    rw [BoundExpr.aggregateCalls, BoundExprKind.aggregateCalls, List.append_eq_nil_iff,
      List.append_eq_nil_iff,
      Ast.Expr.aggregates, Bool.or_eq_false_iff, Bool.or_eq_false_iff, ho.aggregates, hw.aggregates,
        he.aggregates]

theorem BindsList.aggregates : ∀ {list : List Ast.Expr} {l : List BoundExpr}, BindsList acc scope list l →
    (aggregateCallsList l = [] ↔ aggregatesList list = false)
  | [], _, .nil => iff_of_true rfl rfl
  | _ :: _, _, .cons hb hrest => by
    rw [aggregateCallsList, List.append_eq_nil_iff, aggregatesList, Bool.or_eq_false_iff, hb.aggregates,
      hrest.aggregates]

theorem BindsArgs.aggregates : ∀ {list : List Ast.Expr} {l : List BoundExpr}, BindsArgs acc scope list l →
    (aggregateCallsList l = [] ↔ aggregatesList list = false)
  | [], _, .nil => iff_of_true rfl rfl
  | .wildcard :: _, _, .wildcard hrest => hrest.aggregates
  | _ :: _, _, .cons hb hrest => by
    rw [aggregateCallsList, List.append_eq_nil_iff, aggregatesList, Bool.or_eq_false_iff, hb.aggregates,
      hrest.aggregates]

theorem BindsOption.aggregates : ∀ {o : Option Ast.Expr} {b : Option BoundExpr}, BindsOption acc scope o b →
    (aggregateCallsOption b = [] ↔ aggregatesOption o = false)
  | none, _, .none => iff_of_true rfl rfl
  | some _, _, .some hb => hb.aggregates

theorem BindsPairs.aggregates : ∀ {list : List (Ast.Expr × Ast.Expr)} {l : List (BoundExpr × BoundExpr)},
    BindsPairs acc scope list l → (aggregateCallsPairs l = [] ↔ aggregatesPairs list = false)
  | [], _, .nil => iff_of_true rfl rfl
  | (_, _) :: _, _, .cons hw ht hrest => by
    rw [aggregateCallsPairs, List.append_eq_nil_iff, List.append_eq_nil_iff, aggregatesPairs,
      Bool.or_eq_false_iff, Bool.or_eq_false_iff, hw.aggregates, ht.aggregates, hrest.aggregates]

end

/-! ### Columns -/

theorem BindsList.mem_iff : ∀ {list : List Ast.Expr} {l : List BoundExpr}, BindsList acc scope list l →
    ∀ b, b ∈ l ↔ ∃ e ∈ list, bindExpr acc scope e = .ok b
  | _, _, .nil, b => by simp
  | _, _, .cons hb hrest, b => by
    rw [List.mem_cons, hrest.mem_iff, List.exists_mem_cons_iff, bindExpr_of_binds hb, Except.ok.injEq,
      eq_comm]

/-- An expression is bound to one of GROUP BY exactly if it is named there. -/
theorem mem_groupBy_iff (hgroup : BindsList acc scope groupBy bound) {e : Ast.Expr} {b : BoundExpr}
    (h : Binds acc scope e b) : b ∈ bound ↔ Named acc scope groupBy e := by
  rw [hgroup.mem_iff]
  constructor
  · rintro ⟨g, hg, hb⟩
    exact ⟨g, hg, b, hb, bindExpr_of_binds h⟩
  · rintro ⟨g, hg, b', hb', he⟩
    obtain rfl := Except.ok.inj ((bindExpr_of_binds h).symm.trans he)
    exact ⟨g, hg, hb'⟩

/-- The rule for an expression: it is one of GROUP BY, or its parts are grouped. -/
theorem grouped_step (hgroup : BindsList acc scope groupBy bound) {e : Ast.Expr} {kind : BoundExprKind}
    {dataType : DataType} {nullable : Bool} {P : Prop} (h : Binds acc scope e ⟨kind, dataType, nullable⟩)
    (hkind : kind.Grouped bound ↔ P) :
    BoundExpr.Grouped bound ⟨kind, dataType, nullable⟩ ↔ Named acc scope groupBy e ∨ P := by
  rw [BoundExpr.Grouped, mem_groupBy_iff hgroup h, hkind]

mutual

/-- **A bound expression is grouped exactly if the written one is covered.** -/
theorem grouped_iff (hgroup : BindsList acc scope groupBy bound) : ∀ {e : Ast.Expr} {b : BoundExpr},
    Binds acc scope e b → (b.Grouped bound ↔ Covered acc scope groupBy e)
  | .literal lit, _, .literal => by cases lit <;> exact iff_of_true (.inr trivial) trivial
  | _, _, .column hsc => (or_iff_left id).trans (mem_groupBy_iff hgroup (.column hsc))
  | _, _, .binaryOp hl hr htype =>
    grouped_step hgroup (.binaryOp hl hr htype) (and_congr (grouped_iff hgroup hl) (grouped_iff hgroup hr))
  | _, _, .unaryOp hinner htype => grouped_step hgroup (.unaryOp hinner htype) (grouped_iff hgroup hinner)
  | _, _, .isNull hinner => grouped_step hgroup (.isNull hinner) (grouped_iff hgroup hinner)
  | _, _, .isNotNull hinner => grouped_step hgroup (.isNotNull hinner) (grouped_iff hgroup hinner)
  | _, _, .like he hp =>
    grouped_step hgroup (.like he hp) (and_congr (grouped_iff hgroup he) (grouped_iff hgroup hp))
  | _, _, .between he hl hh =>
    grouped_step hgroup (.between he hl hh)
      (and_congr (grouped_iff hgroup he) (and_congr (grouped_iff hgroup hl) (grouped_iff hgroup hh)))
  | _, _, .inList he hl =>
    grouped_step hgroup (.inList he hl) (and_congr (grouped_iff hgroup he) (groupedList_iff hgroup hl))
  | _, _, .inSubquery he hq hlen => grouped_step hgroup (.inSubquery he hq hlen) (grouped_iff hgroup he)
  | _, _, .existsSubquery _ => iff_of_true (.inr trivial) trivial
  | _, _, .subquery _ _ => iff_of_true (.inr trivial) trivial
  | _, _, .function hl htype =>
    grouped_step hgroup (.function hl htype) (or_congr_right (groupedArgs_iff hgroup hl))
  | _, _, .cast hinner => grouped_step hgroup (.cast hinner) (grouped_iff hgroup hinner)
  | _, _, .case ho hw he =>
    grouped_step hgroup (.case ho hw he)
      (and_congr (groupedOption_iff hgroup ho) (and_congr (groupedPairs_iff hgroup hw)
        (groupedOption_iff hgroup he)))

theorem groupedList_iff (hgroup : BindsList acc scope groupBy bound) : ∀ {list : List Ast.Expr}
    {l : List BoundExpr}, BindsList acc scope list l →
      (groupedList bound l ↔ coveredList acc scope groupBy list)
  | _, _, .nil => iff_of_true trivial trivial
  | _, _, .cons hb hrest => and_congr (grouped_iff hgroup hb) (groupedList_iff hgroup hrest)

theorem groupedArgs_iff (hgroup : BindsList acc scope groupBy bound) : ∀ {list : List Ast.Expr}
    {l : List BoundExpr}, BindsArgs acc scope list l →
      (groupedList bound l ↔ coveredList acc scope groupBy list)
  | _, _, .nil => iff_of_true trivial trivial
  | _, _, .wildcard hrest => and_congr (iff_of_true (.inr trivial) trivial) (groupedArgs_iff hgroup hrest)
  | _, _, .cons hb hrest => and_congr (grouped_iff hgroup hb) (groupedArgs_iff hgroup hrest)

theorem groupedOption_iff (hgroup : BindsList acc scope groupBy bound) : ∀ {o : Option Ast.Expr}
    {b : Option BoundExpr}, BindsOption acc scope o b →
      (groupedOption bound b ↔ coveredOption acc scope groupBy o)
  | _, _, .none => iff_of_true trivial trivial
  | _, _, .some hb => grouped_iff hgroup hb

theorem groupedPairs_iff (hgroup : BindsList acc scope groupBy bound) : ∀ {list : List (Ast.Expr × Ast.Expr)}
    {l : List (BoundExpr × BoundExpr)}, BindsPairs acc scope list l →
      (groupedPairs bound l ↔ coveredPairs acc scope groupBy list)
  | _, _, .nil => iff_of_true trivial trivial
  | _, _, .cons hw ht hrest =>
    and_congr (grouped_iff hgroup hw) (and_congr (grouped_iff hgroup ht) (groupedPairs_iff hgroup hrest))

end

/-! ### Clauses -/

/-- What holds of the parts one by one holds of all. -/
theorem forall_iff_of_forall₂ {α β : Type} {R : α → β → Prop} {P : α → Prop} {Q : β → Prop}
    (h : ∀ a b, R a b → (P a ↔ Q b)) : ∀ {l : List α} {l' : List β}, List.Forall₂ R l l' →
      ((∀ a ∈ l, P a) ↔ ∀ b ∈ l', Q b)
  | [], [], .nil => iff_of_true (List.forall_mem_nil _) (List.forall_mem_nil _)
  | _ :: _, _ :: _, .cons hab hrest => by
    rw [List.forall_mem_cons, List.forall_mem_cons, h _ _ hab, forall_iff_of_forall₂ h hrest]

theorem exists_iff_of_forall₂ {α β : Type} {R : α → β → Prop} {P : α → Prop} {Q : β → Prop}
    {l : List α} {l' : List β}
    (h : ∀ a b, R a b → (P a ↔ Q b)) (hall : List.Forall₂ R l l') : (∃ a ∈ l, P a) ↔ ∃ b ∈ l', Q b := by
  have hnot := forall_iff_of_forall₂ (fun a b hab => not_congr (h a b hab)) hall
  rw [← not_iff_not]
  push Not
  exact hnot

theorem BindsList.forall₂ : ∀ {list : List Ast.Expr} {l : List BoundExpr}, BindsList acc scope list l →
    List.Forall₂ (Binds acc scope) list l
  | _, _, .nil => .nil
  | _, _, .cons hb hrest => .cons hb hrest.forall₂

theorem BindsOption.forall₂ {o : Option Ast.Expr} {b : Option BoundExpr} (h : BindsOption acc scope o b) :
    List.Forall₂ (Binds acc scope) o.toList b.toList := by
  cases h with
  | none => exact .nil
  | some hb => exact .cons hb .nil

theorem bindItems_forall₂ : ∀ {items : List Ast.SelectItem} {l : List BoundSelectItem},
    bindItems acc scope items = .ok l → ∃ parts : List (List BoundSelectItem),
      List.Forall₂ (fun item part => bindItem acc scope item = .ok part) items parts ∧ l = parts.flatten
  | [], l, h => by
    rw [bindItems] at h
    cases h
    exact ⟨[], .nil, rfl⟩
  | item :: items, l, h => by
    simp only [bindItems, bind_eq_ok] at h
    obtain ⟨part, hpart, rest, hrest, h⟩ := h
    cases h
    obtain ⟨parts, hparts, rfl⟩ := bindItems_forall₂ hrest
    exact ⟨part :: parts, .cons hpart hparts, rfl⟩

theorem bindOrderBy_forall₂ {projections : List BoundSelectItem} : ∀ {list : List Ast.OrderByExpr}
    {l : List BoundOrderByExpr}, bindOrderBy acc scope projections list = .ok l →
      List.Forall₂ (fun o b => bindOrderByExpr acc scope projections o = .ok b) list l
  | [], l, h => by
    rw [bindOrderBy] at h
    cases h
    exact .nil
  | o :: list, l, h => by
    simp only [bindOrderBy, bind_eq_ok] at h
    obtain ⟨b, hb, rest, hrest, h⟩ := h
    cases h
    exact .cons hb (bindOrderBy_forall₂ hrest)

/-- A key of ORDER BY is an item of the SELECT list, or an expression of its own. -/
theorem bindOrderByExpr_cases {projections : List BoundSelectItem} {o : Ast.OrderByExpr}
    {b : BoundOrderByExpr}
    (h : bindOrderByExpr acc scope projections o = .ok b) :
    (orderByItem projections o.expr = none ∧ Binds acc scope o.expr b.expr) ∨
    (orderByItem projections o.expr ≠ none ∧ o.expr.aggregates = false ∧
      ∃ p ∈ projections, b.expr = p.expr) := by
  obtain ⟨expr, asc, nullsFirst⟩ := o
  rw [bindOrderByExpr, bind_eq_ok] at h
  obtain ⟨e, he, h⟩ := h
  cases h
  cases hitem : orderByItem projections expr with
  | none =>
    rw [hitem] at he
    exact .inl ⟨rfl, binds_of_bindExpr he⟩
  | some result =>
    rw [hitem, Option.getD_some] at he
    subst he
    refine .inr ⟨nofun, ?_, orderByItem_mem hitem⟩
    rw [orderByItem.eq_def] at hitem
    split at hitem
    · rfl
    · rfl
    · cases hitem

theorem exists_toExpr {sc : ScopeColumn} (hgroup : BindsList acc scope groupBy bound) :
    sc.toExpr.Grouped bound ↔ ∃ g ∈ groupBy, bindExpr acc scope g = .ok sc.toExpr :=
  (or_iff_left id).trans (hgroup.mem_iff _)

theorem bindItem_spec (hgroup : BindsList acc scope groupBy bound) {item : Ast.SelectItem}
    {part : List BoundSelectItem} (h : bindItem acc scope item = .ok part) :
    ((∃ p ∈ part, p.expr.aggregateCalls ≠ []) ↔ itemAggregates item = true) ∧
    ((∀ p ∈ part, p.expr.Grouped bound) ↔ CoveredItem acc scope groupBy item) := by
  have hcolumns : ∀ columns : List ScopeColumn,
      ¬ ∃ p ∈ columns.map fun sc => (⟨sc.toExpr, sc.columnName⟩ : BoundSelectItem),
        p.expr.aggregateCalls ≠ [] := by
    rintro columns ⟨p, hp, hcalls⟩
    obtain ⟨sc, -, rfl⟩ := List.mem_map.1 hp
    exact hcalls rfl
  cases item with
  | wildcard =>
    rw [bindItem] at h
    cases h
    refine ⟨iff_of_false (hcolumns _) (by rintro ⟨⟩), ?_⟩
    rw [List.forall_mem_map]
    exact forall₂_congr fun sc _ => exists_toExpr hgroup
  | qualifiedWildcard qualifier =>
    rw [bindItem] at h
    split at h
    · cases h
    · cases h
      refine ⟨iff_of_false (hcolumns _) (by rintro ⟨⟩), ?_⟩
      rw [List.forall_mem_map]
      exact forall₂_congr fun sc _ => exists_toExpr hgroup
  | expr expr aliasName =>
    rw [bindItem, bind_eq_ok] at h
    obtain ⟨e, he, h⟩ := h
    cases h
    refine ⟨?_, List.forall_mem_singleton.trans (grouped_iff hgroup (binds_of_bindExpr he))⟩
    have hcalls := (binds_of_bindExpr he).aggregates
    rw [itemAggregates, ← Bool.not_eq_false, ← hcalls]
    simp

/-- The conditions of USING and NATURAL have no aggregate. -/
theorem bindJoinCondition_aggregates {right : BoundTableRef} {condition : Ast.JoinCondition}
    {b : BoundJoinCondition} (h : bindJoinCondition acc scope right condition = .ok b) :
    (∀ e ∈ b.exprs, e.aggregateCalls = []) ↔ ∀ e, condition = .on e → e.aggregates = false := by
  have hequalities : ∀ e ∈ b.equalities, e.aggregateCalls = [] := by
    intro e he
    obtain ⟨l, -, r, -, rfl⟩ := bindJoinCondition_equalities h e he
    rfl
  cases condition with
  | on expr =>
    rw [bindJoinCondition, bind_eq_ok] at h
    obtain ⟨e, he, h⟩ := h
    cases h
    rw [BoundJoinCondition.exprs, List.forall_mem_singleton, (binds_of_bindExpr he).aggregates]
    constructor
    · rintro hexpr e' heq
      cases heq
      exact hexpr
    · exact fun hall => hall expr rfl
  | «using» colNames =>
    rw [bindJoinCondition, bind_eq_ok] at h
    obtain ⟨exprs, -, h⟩ := h
    cases h
    exact iff_of_true hequalities (by rintro _ ⟨⟩)
  | natural =>
    rw [bindJoinCondition] at h
    cases h
    exact iff_of_true hequalities (by rintro _ ⟨⟩)
  | none =>
    rw [bindJoinCondition] at h
    cases h
    exact iff_of_true (List.forall_mem_nil _) (by rintro _ ⟨⟩)

theorem bindJoins_forall₂ : ∀ {joins : List Ast.Join} {scope scope' : Scope} {l : List BoundJoin},
    bindJoins acc scope joins = .ok (l, scope') → List.Forall₂ (fun j b =>
      ∃ scope right, bindJoinCondition acc scope right j.condition = .ok b.condition) joins l := by
  intro joins scope scope' l h
  induction joins generalizing scope scope' l with
  | nil =>
    rw [bindJoins] at h
    cases h
    exact .nil
  | cons join joins ih =>
    obtain ⟨kind, table, condition⟩ := join
    simp only [bindJoins, bind_eq_ok] at h
    obtain ⟨right, -, c, hc, ⟨rest, scope''⟩, hrest, h⟩ := h
    cases h
    exact .cons ⟨_, right, hc⟩ (ih hrest)

theorem joins_iff {stmt : Ast.SelectStmt} {b : BoundSelect} (hb : BoundBy acc stmt scope b) :
    (∀ j ∈ b.joins, ∀ e ∈ j.condition.exprs, e.aggregateCalls = []) ↔
      ∀ j ∈ stmt.joins, ∀ e, j.condition = .on e → e.aggregates = false := by
  obtain ⟨scope₀, -, hjoins⟩ := hb.fromClause
  refine (forall_iff_of_forall₂ ?_ (bindJoins_forall₂ hjoins)).symm
  rintro j bj ⟨scope', right, h⟩
  exact (bindJoinCondition_aggregates h).symm

section

variable {stmt : Ast.SelectStmt} {b : BoundSelect}

theorem whereClause_iff (hb : BoundBy acc stmt scope b) :
    (∀ e ∈ b.whereClause.toList, e.aggregateCalls = []) ↔
    ∀ e ∈ stmt.whereClause.toList, e.aggregates = false := by
  refine (forall_iff_of_forall₂ ?_ (bindsOption_of_bindOption hb.whereClause).forall₂).symm
  exact fun e b he => he.aggregates.symm

theorem groupBy_iff (hb : BoundBy acc stmt scope b) :
    (∀ e ∈ b.groupBy, e.aggregateCalls = []) ↔ ∀ e ∈ stmt.groupBy, e.aggregates = false := by
  refine (forall_iff_of_forall₂ ?_ (bindsList_of_bindExprs hb.groupBy).forall₂).symm
  exact fun e b he => he.aggregates.symm

theorem projections_aggregates (hb : BoundBy acc stmt scope b) :
    (∃ p ∈ b.projections, p.expr.aggregateCalls ≠ []) ↔
      ∃ item ∈ stmt.projections, itemAggregates item = true := by
  obtain ⟨parts, hparts, hflat⟩ := bindItems_forall₂ hb.projections
  have hitems : (∃ item ∈ stmt.projections, itemAggregates item = true) ↔
      ∃ part ∈ parts, ∃ p ∈ part, p.expr.aggregateCalls ≠ [] := by
    refine exists_iff_of_forall₂ ?_ hparts
    exact fun item part h => (bindItem_spec (bindsList_of_bindExprs hb.groupBy) h).1.symm
  rw [hitems, hflat]
  constructor
  · rintro ⟨p, hp, hcalls⟩
    obtain ⟨part, hpart, hp⟩ := List.mem_flatten.1 hp
    exact ⟨part, hpart, p, hp, hcalls⟩
  · rintro ⟨part, hpart, p, hp, hcalls⟩
    exact ⟨p, List.mem_flatten.2 ⟨part, hpart, hp⟩, hcalls⟩

theorem projections_grouped (hb : BoundBy acc stmt scope b) :
    (∀ p ∈ b.projections, p.expr.Grouped b.groupBy) ↔
      ∀ item ∈ stmt.projections, CoveredItem acc scope stmt.groupBy item := by
  obtain ⟨parts, hparts, hflat⟩ := bindItems_forall₂ hb.projections
  have hitems : (∀ item ∈ stmt.projections, CoveredItem acc scope stmt.groupBy item) ↔
      ∀ part ∈ parts, ∀ p ∈ part, p.expr.Grouped b.groupBy := by
    refine forall_iff_of_forall₂ ?_ hparts
    exact fun item part h => (bindItem_spec (bindsList_of_bindExprs hb.groupBy) h).2.symm
  rw [hitems, hflat]
  exact List.forall_mem_flatten

theorem having_aggregates (hb : BoundBy acc stmt scope b) :
    (∃ e ∈ b.having.toList, e.aggregateCalls ≠ []) ↔ ∃ e ∈ stmt.having.toList, e.aggregates = true := by
  refine (exists_iff_of_forall₂ ?_ (bindsOption_of_bindOption hb.having).forall₂).symm
  intro e b' he
  rw [← Bool.not_eq_false, ← he.aggregates]

theorem having_grouped (hb : BoundBy acc stmt scope b) :
    (∀ e ∈ b.having.toList, e.Grouped b.groupBy) ↔
      ∀ e ∈ stmt.having.toList, Covered acc scope stmt.groupBy e := by
  refine (forall_iff_of_forall₂ ?_ (bindsOption_of_bindOption hb.having).forall₂).symm
  exact fun e b' he => (grouped_iff (bindsList_of_bindExprs hb.groupBy) he).symm

/-- A key of ORDER BY has an aggregate of its own, or that of an item. -/
theorem orderBy_aggregates (hb : BoundBy acc stmt scope b) :
    ((∃ p ∈ b.projections, p.expr.aggregateCalls ≠ []) ∨ ∃ o ∈ b.orderBy, o.expr.aggregateCalls ≠ []) ↔
      (∃ p ∈ b.projections, p.expr.aggregateCalls ≠ []) ∨ ∃ o ∈ stmt.orderBy, o.expr.aggregates = true := by
  by_cases hitems : ∃ p ∈ b.projections, p.expr.aggregateCalls ≠ []
  · exact iff_of_true (.inl hitems) (.inl hitems)
  · rw [or_iff_right hitems, or_iff_right hitems]
    refine (exists_iff_of_forall₂ ?_ (bindOrderBy_forall₂ hb.orderBy)).symm
    intro o bo h
    rcases bindOrderByExpr_cases h with ⟨-, he⟩ | ⟨-, hnone, p, hp, heq⟩
    · rw [← Bool.not_eq_false, ← he.aggregates]
    · -- The key is an item of the SELECT list, which has no aggregate.
      rw [hnone, heq]
      exact iff_of_false nofun fun hcalls => hitems ⟨p, hp, hcalls⟩

theorem orderBy_grouped (hb : BoundBy acc stmt scope b)
    (hitems : ∀ p ∈ b.projections, p.expr.Grouped b.groupBy) :
    (∀ o ∈ b.orderBy, o.expr.Grouped b.groupBy) ↔
      ∀ o ∈ stmt.orderBy, orderByItem b.projections o.expr = none →
        Covered acc scope stmt.groupBy o.expr := by
  refine (forall_iff_of_forall₂ ?_ (bindOrderBy_forall₂ hb.orderBy)).symm
  intro o bo h
  rcases bindOrderByExpr_cases h with ⟨hnone, he⟩ | ⟨hsome, -, p, hp, heq⟩
  · rw [grouped_iff (bindsList_of_bindExprs hb.groupBy) he]
    exact ⟨fun hcovered => hcovered hnone, fun hcovered _ => hcovered⟩
  · rw [heq]
    exact iff_of_true (fun hnone => absurd hnone hsome) (hitems p hp)

/-- **A bound query groups its rows** exactly if the written one does. -/
theorem groups_iff (hb : BoundBy acc stmt scope b) :
    (b.groupBy ≠ [] ∨ ∃ e ∈ b.groupExprs, e.aggregateCalls ≠ []) ↔ Groups stmt := by
  have hnil : b.groupBy ≠ [] ↔ stmt.groupBy ≠ [] := by
    rw [← List.length_pos_iff, ← List.length_pos_iff, (bindsList_of_bindExprs hb.groupBy).forall₂.length_eq]
  have hexprs : (∃ e ∈ b.groupExprs, e.aggregateCalls ≠ []) ↔
      (∃ p ∈ b.projections, p.expr.aggregateCalls ≠ []) ∨
      (∃ e ∈ b.having.toList, e.aggregateCalls ≠ []) ∨ ∃ o ∈ b.orderBy, o.expr.aggregateCalls ≠ [] := by
    simp only [BoundSelect.groupExprs, List.mem_append, List.mem_map]
    constructor
    · rintro ⟨e, (⟨p, hp, rfl⟩ | he) | ⟨o, ho, rfl⟩, hcalls⟩
      · exact .inl ⟨p, hp, hcalls⟩
      · exact .inr (.inl ⟨e, he, hcalls⟩)
      · exact .inr (.inr ⟨o, ho, hcalls⟩)
    · rintro (⟨p, hp, hcalls⟩ | ⟨e, he, hcalls⟩ | ⟨o, ho, hcalls⟩)
      · exact ⟨_, .inl (.inl ⟨p, hp, rfl⟩), hcalls⟩
      · exact ⟨e, .inl (.inr he), hcalls⟩
      · exact ⟨_, .inr ⟨o, ho, rfl⟩, hcalls⟩
  rw [hnil, hexprs, having_aggregates hb, or_left_comm (b := ∃ e ∈ stmt.having.toList, _),
    orderBy_aggregates hb,
    projections_aggregates hb, or_left_comm (b := ∃ item ∈ stmt.projections, _), Groups]

/-- **An accepted SELECT obeys the grouping rules exactly if it was written so.** -/
theorem grouping_iff (h : bindSelect acc stmt = .ok b)
    (hscope : binderScope acc stmt = .ok scope) : GroupingRules b ↔ WrittenRules acc scope stmt := by
  obtain ⟨scope', hscope', hb⟩ := bindSelect_spec h
  obtain rfl := Except.ok.inj (hscope.symm.trans hscope')
  have hsplit : (∀ e ∈ b.groupExprs, e.Grouped b.groupBy) ↔ (∀ p ∈ b.projections, p.expr.Grouped b.groupBy) ∧
      (∀ e ∈ b.having.toList, e.Grouped b.groupBy) ∧ ∀ o ∈ b.orderBy, o.expr.Grouped b.groupBy := by
    rw [BoundSelect.groupExprs, List.forall_mem_append, List.forall_mem_append, List.forall_mem_map,
      List.forall_mem_map, and_assoc]
  constructor
  · rintro ⟨hwhere, hgroupBy, hjoins, hgrouped⟩
    have hclauses := fun hgroups => hsplit.1 (hgrouped ((groups_iff hb).2 hgroups))
    refine ⟨(whereClause_iff hb).1 hwhere, (groupBy_iff hb).1 hgroupBy, (joins_iff hb).1 hjoins,
      fun hgroups => (projections_grouped hb).1 (hclauses hgroups).1,
      fun hgroups => (having_grouped hb).1 (hclauses hgroups).2.1, fun hgroups items hitems => ?_⟩
    obtain rfl := Except.ok.inj (hb.projections.symm.trans hitems)
    exact (orderBy_grouped hb (hclauses hgroups).1).1 (hclauses hgroups).2.2
  · rintro ⟨hwhere, hgroupBy, hjoins, hprojections, hhaving, horderBy⟩
    refine ⟨(whereClause_iff hb).2 hwhere, (groupBy_iff hb).2 hgroupBy, (joins_iff hb).2 hjoins,
      fun hgroups => ?_⟩
    have hgroups := (groups_iff hb).1 hgroups
    have hitems := (projections_grouped hb).2 (hprojections hgroups)
    exact hsplit.2 ⟨hitems, (having_grouped hb).2 (hhaving hgroups),
      (orderBy_grouped hb hitems).2 (horderBy hgroups _ hb.projections)⟩

end

/-! ### A column and an aggregate -/

theorem grouping_column : ∃ b scope, GroupingRules b ↔
    WrittenRules (oneColumn .i64) scope (selectFrom [.expr columnC none]) :=
  ⟨_, _, grouping_iff (rfl : bindSelect (oneColumn .i64) _ = .ok _) rfl⟩

/-- **Nothing is checked**: `SELECT c, count(c) FROM t` is accepted. -/
theorem column_count : ¬ ∀ acc stmt b, bindSelect acc stmt = .ok b → GroupingRules b := by
  intro hall
  have hrules := hall (oneColumn .i64)
    (selectFrom [.expr columnC none, .expr (.function "count" [columnC] false) none]) _ rfl
  have hgrouped := hrules.grouped (.inr ⟨_, List.mem_cons_of_mem _ (List.mem_cons_self),
    List.cons_ne_nil _ _⟩)
  rcases hgrouped _ List.mem_cons_self with hmem | hcolumn
  · cases hmem
  · exact hcolumn

end Binder
end Abdb
