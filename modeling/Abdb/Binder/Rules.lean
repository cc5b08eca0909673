/-
# The rules of types and nullability

The binder gives an expression its type and its nullability by a rule from the parts right below
it.  In a statement that it accepts the rules hold at any depth, through subqueries, and the
columns of the tables are those of the catalog (`bindSelect_rules`).
-/

import Abdb.Binder.InScope
import Abdb.Binder.JoinUsing
import Abdb.Query.Parts

namespace Abdb

/-- The type and the nullability of a literal. -/
def BoundLiteral.annotation : BoundLiteral → DataType × Bool
  | .integer _ => (.i64, false)
  | .float _ => (.f64, false)
  | .string _ => (.string, false)
  | .bool _ => (.bool, false)
  | .null => (.string, true)

/-- The equalities of USING and NATURAL that are made at a place. -/
def Placement.equalities (p : Placement) : List BoundExpr :=
  (p.condition.map (·.condition.equalities)).getD []

namespace Binder

/-- The type and the nullability of a CASE. -/
def caseAnnotation (whenThen : List (BoundExpr × BoundExpr)) (elseResult : Option BoundExpr) :
    DataType × Bool :=
  (((whenThen.head?.map (·.2.dataType)).or (elseResult.map (·.dataType))).getD .string,
    elseResult.isNone || whenThen.any (·.2.nullable) || elseResult.any (·.nullable))

/-- The rule for an expression. -/
def ExprRule (p : Placement) (e : BoundExpr) : Prop :=
  match e.kind with
  | .literal lit => (e.dataType, e.nullable) = lit.annotation
  | .columnRef c => ∃ sc, p.scope.columns[c.scopeIndex]? = some sc ∧ e.dataType = sc.dataType ∧
    e.nullable = sc.nullable
  | .binaryOp left op right => inferBinaryType op left right = .ok (e.dataType, e.nullable) ∨
      (e ∈ p.equalities ∧ op = .eq ∧ e.dataType = .bool)
  | .unaryOp op expr => inferUnaryType op expr = .ok e.dataType ∧ e.nullable = expr.nullable
  | .isNull _ | .isNotNull _ | .like _ _ _ | .between _ _ _ _ | .inList _ _ _ | .existsSubquery _ _ =>
    e.dataType = .bool ∧ e.nullable = false
  | .inSubquery _ query _ => query.outputColumns.length = 1 ∧ e.dataType = .bool ∧ e.nullable = false
  | .subquery query => ∃ col, query.outputColumns = [col] ∧ e.dataType = col.dataType ∧
    e.nullable = col.nullable
  | .function f => (e.dataType, e.nullable) = inferFunctionType f.kind f.args
  | .cast expr targetType => e.dataType = targetType ∧ e.nullable = expr.nullable
  | .case _ whenThen elseResult => (e.dataType, e.nullable) = caseAnnotation whenThen elseResult

/-- The columns of a table are columns of the catalog. -/
def FromCatalog (acc : Accessor) : BoundTableRef → Prop
  | .baseTable table columns _ => ∃ cols, acc.tableColumns table.oid = .ok cols ∧ ∀ c ∈ columns, c ∈ cols
  | .subquery _ _ => True

/-- The rule for a SELECT. -/
structure SelectRule (acc : Accessor) (q : BoundSelect) : Prop where
  outputColumns : q.outputColumns = q.projections.map fun p => ⟨p.aliasName, p.expr.dataType, p.expr.nullable⟩
  tables : ∀ t ∈ q.items, FromCatalog acc t

/-- The rule for a part of a statement. -/
def Rule (acc : Accessor) : Node → Prop
  | .expr p e => ExprRule p e
  | .select q => SelectRule acc q

/-- The rules hold of a statement or an expression, at any depth. -/
def Obeys (acc : Accessor) : Node → Prop := Everywhere Node.below (Rule acc)

/-- A place with this scope. -/
def Stands (scope : Scope) (p : Placement) : Prop := p.scope = scope ∧ scope.Numbered

variable {acc : Accessor} {scope scope' : Scope} {p : Placement} {e : BoundExpr}

theorem obeys_expr (hrule : ExprRule p e)
    (hchildren : ∀ child ∈ e.children, Obeys acc (.expr (p.inside e) child))
    (hsubqueries : ∀ query ∈ e.subqueries, Obeys acc (.select query)) : Obeys acc (.expr p e) := by
  exact Everywhere.iff_below.2 ⟨hrule, Node.forall_below_expr.2 ⟨hchildren, hsubqueries⟩⟩

theorem obeys_select {q : BoundSelect} (hrule : SelectRule acc q)
    (hclauses : ∀ c ∈ q.clauses, Obeys acc (.expr c.1 c.2))
    (hderived : ∀ t ∈ q.items, ∀ query, t.derived = some query → Obeys acc (.select query)) :
    Obeys acc (.select q) := by
  exact Everywhere.iff_below.2 ⟨hrule, Node.forall_below_select.2 ⟨hclauses, hderived⟩⟩

/-- The clauses of a SELECT that are read on rows, and those that are read on groups. -/
theorem obeys_clauses {q : BoundSelect}
    (hconditions : ∀ c ∈ conditionClauses q.fromClause [] q.joins, Obeys acc (.expr c.1 c.2))
    (hrows : ∀ e ∈ q.whereClause.toList ++ q.groupBy ++ q.limit.toList ++ q.offset.toList,
      Obeys acc (.expr (q.placement false) e))
    (hgroups : ∀ e ∈ q.projections.map (·.expr) ++ q.having.toList ++ q.orderBy.map (·.expr),
      Obeys acc (.expr (q.placement q.oneGroup) e)) :
    ∀ c ∈ q.clauses, Obeys acc (.expr c.1 c.2) :=
  List.forall_mem_append.2 ⟨List.forall_mem_append.2 ⟨hconditions, List.forall_mem_map.2 hrows⟩,
    List.forall_mem_map.2 hgroups⟩

theorem Stands.inside (hp : Stands scope p) (e : BoundExpr) : Stands scope (p.inside e) :=
  (Placement.inside_iff Iff.rfl e).2 hp

/-- A column of the scope. -/
theorem obeys_toExpr (hp : Stands scope p) {sc : ScopeColumn} (hsc : sc ∈ scope.columns) :
    Obeys acc (.expr p sc.toExpr) := by
  obtain ⟨rfl, hnum⟩ := hp
  exact obeys_expr ⟨sc, hnum.index hsc, rfl, rfl⟩ nofun nofun

/-! ### Scopes -/

theorem isOuter_translateJoinKind (kind : Ast.JoinKind) :
    (translateJoinKind kind).isOuter = isOuter kind := by
  cases kind <;> rfl

theorem bindFrom_scope : ∀ {from_ : List Ast.TableRef} {scope scope' : Scope} {bound : List BoundTableRef},
    bindFrom acc scope from_ = .ok (bound, scope') → scope' = scopeFrom scope bound := by
  intro from_ scope scope' bound h
  induction from_ generalizing scope scope' bound with
  | nil =>
    rw [bindFrom] at h
    cases h
    rfl
  | cons t from_ ih =>
    simp only [bindFrom, bind_eq_ok] at h
    obtain ⟨boundRef, -, ⟨rest, scope''⟩, hrest, h⟩ := h
    cases h
    show scope'' = scopeFrom (addTableRefToScope boundRef scope false) rest
    exact ih hrest

theorem bindJoins_scope : ∀ {joins : List Ast.Join} {scope scope' : Scope} {bound : List BoundJoin},
    bindJoins acc scope joins = .ok (bound, scope') → scope' = scopeJoins scope bound := by
  intro joins scope scope' bound h
  induction joins generalizing scope scope' bound with
  | nil =>
    rw [bindJoins] at h
    cases h
    rfl
  | cons join joins ih =>
    obtain ⟨kind, table, condition⟩ := join
    simp only [bindJoins, bind_eq_ok] at h
    obtain ⟨boundRef, -, c, -, ⟨rest, scope''⟩, hrest, h⟩ := h
    cases h
    rw [← isOuter_translateJoinKind] at hrest
    show scope'' = scopeJoins (addTableRefToScope boundRef scope (translateJoinKind kind).isOuter) rest
    exact ih hrest

/-- The equalities of USING and NATURAL. -/
theorem obeys_equalities (hp : Stands scope p) {right : BoundTableRef} {condition : Ast.JoinCondition}
    {b : BoundJoinCondition} (hb : ∀ e ∈ b.equalities, e ∈ p.equalities)
    (h : bindJoinCondition acc scope right condition = .ok b) : ∀ e ∈ b.equalities,
      Obeys acc (.expr p e) := by
  intro e he
  obtain ⟨l, hl, r, hr, rfl⟩ := bindJoinCondition_equalities h e he
  refine obeys_expr (.inr ⟨hb _ he, rfl, rfl⟩) ?_ nofun
  exact List.forall_mem_cons.2 ⟨obeys_toExpr hp hl, List.forall_mem_singleton.2 (obeys_toExpr hp hr)⟩

/-! ### Expressions -/

mutual

/-- **The rules hold in an accepted SELECT.** -/
theorem bindSelect_rules : ∀ {stmt : Ast.SelectStmt} {b : BoundSelect}, bindSelect acc stmt = .ok b →
    Obeys acc (.select b)
  | ⟨projections, fromClause, joins, whereClause, groupBy, having, orderBy, limit, offset, distinct⟩,
    b, h => by
    obtain ⟨scope, -, hb⟩ := bindSelect_spec h
    obtain ⟨scope₀, hfrom, hjoins⟩ := hb.fromClause
    have hscope₀ : scope₀ = scopeJoins (scopeFrom .new b.fromClause) [] := bindFrom_scope hfrom
    have hscope : scope = scopeJoins (scopeFrom .new b.fromClause) b.joins := by
      rw [bindJoins_scope hjoins, hscope₀]
      rfl
    have hnum : scope₀.Numbered := (bindFrom_spec hfrom).1.numbered .new
    have hp : ∀ oneGroup, Stands scope (b.placement oneGroup) :=
      fun oneGroup => ⟨hscope.symm, (bindJoins_spec hjoins).1.numbered hnum⟩
    have hjoined := bindJoins_rules hscope₀ hnum hjoins
    have htables := List.forall_mem_append.2 ⟨bindFrom_rules hfrom, List.forall_mem_map.2 hjoined.1⟩
    have hitems := fun oneGroup => bindItems_rules (hp oneGroup) hb.projections
    have hkeys := fun oneGroup => bindOrderBy_rules (hp oneGroup) (hitems oneGroup) hb.orderBy
    refine obeys_select ⟨hb.outputColumns, fun t ht => (htables t ht).1⟩ (obeys_clauses hjoined.2 ?_ ?_)
      fun t ht => (htables t ht).2
    · have hwhere := (bindsOption_of_bindOption hb.whereClause).rules (hp false)
      have hgroupBy := (bindsList_of_bindExprs hb.groupBy).rules (hp false)
      have hlimit := (bindsOption_of_bindOption hb.limit).rules (hp false)
      have hoffset := (bindsOption_of_bindOption hb.offset).rules (hp false)
      exact List.forall_mem_append.2 ⟨List.forall_mem_append.2 ⟨List.forall_mem_append.2
        ⟨hwhere, hgroupBy⟩, hlimit⟩, hoffset⟩
    · have hhaving := (bindsOption_of_bindOption hb.having).rules (hp b.oneGroup)
      exact List.forall_mem_append.2 ⟨List.forall_mem_append.2 ⟨List.forall_mem_map.2 (hitems _), hhaving⟩,
        List.forall_mem_map.2 (hkeys _)⟩

theorem bindTableRef_rules : ∀ {t : Ast.TableRef} {bound : BoundTableRef}, bindTableRef acc t = .ok bound →
    FromCatalog acc bound ∧ ∀ query, bound.derived = some query → Obeys acc (.select query)
  | .named name aliasName, bound, h => by
    rw [bindTableRef, bindNamed] at h
    split at h
    · cases h
    · split at h
      · cases h
      · rename_i table _ columns hcolumns
        cases h
        exact ⟨⟨columns, hcolumns, fun c hc => (List.mem_insertionSort _).1 hc⟩, nofun⟩
  | .subquery query aliasName, bound, h => by
    rw [bindTableRef, bind_eq_ok] at h
    obtain ⟨b, hb, h⟩ := h
    cases h
    refine ⟨trivial, ?_⟩
    rintro query heq
    cases heq
    exact bindSelect_rules hb

theorem bindFrom_rules : ∀ {from_ : List Ast.TableRef} {scope scope' : Scope} {bound : List BoundTableRef},
    bindFrom acc scope from_ = .ok (bound, scope') →
      ∀ t ∈ bound, FromCatalog acc t ∧ ∀ query, t.derived = some query → Obeys acc (.select query)
  | [], scope, scope', bound, h => by
    rw [bindFrom] at h
    cases h
    exact nofun
  | t :: from_, scope, scope', bound, h => by
    simp only [bindFrom, bind_eq_ok] at h
    obtain ⟨boundRef, hboundRef, ⟨rest, scope''⟩, hrest, h⟩ := h
    cases h
    exact List.forall_mem_cons.2 ⟨bindTableRef_rules hboundRef, bindFrom_rules hrest⟩

theorem bindJoins_rules : ∀ {joins : List Ast.Join} {tables : List BoundTableRef} {before : List BoundJoin}
    {scope scope' : Scope} {bound : List BoundJoin}, scope = scopeJoins (scopeFrom .new tables) before →
      scope.Numbered → bindJoins acc scope joins = .ok (bound, scope') →
        (∀ j ∈ bound, FromCatalog acc j.table ∧ ∀ query, j.table.derived = some query →
          Obeys acc (.select query)) ∧
        ∀ c ∈ conditionClauses tables before bound, Obeys acc (.expr c.1 c.2)
  | [], tables, before, scope, scope', bound, _, _, h => by
    rw [bindJoins] at h
    cases h
    exact ⟨nofun, nofun⟩
  | ⟨kind, table, condition⟩ :: joins, tables, before, scope, scope', bound, hscope, hnum, h => by
    simp only [bindJoins, bind_eq_ok] at h
    obtain ⟨boundRef, hboundRef, c, hc, ⟨rest, scope''⟩, hrest, h⟩ := h
    cases h
    have hnum' := (extends_addTableRefToScope boundRef scope (isOuter kind)).numbered hnum
    have hscope' : addTableRefToScope boundRef scope (isOuter kind) =
        scopeJoins (scopeFrom .new tables) (before ++ [⟨translateJoinKind kind, boundRef, c⟩]) := by
      rw [hscope, scopeJoins_concat, isOuter_translateJoinKind]
    obtain ⟨hjoins, hclauses⟩ := bindJoins_rules hscope' hnum' hrest
    refine ⟨List.forall_mem_cons.2 ⟨bindTableRef_rules hboundRef, hjoins⟩,
      List.forall_mem_append.2 ⟨?_, hclauses⟩⟩
    refine List.forall_mem_map.2 ?_
    exact bindJoinCondition_rules ⟨hscope'.symm, hnum'⟩ (fun _ => id) hc

theorem bindJoinCondition_rules {scope : Scope} {p : Placement} (hp : Stands scope p)
    {right : BoundTableRef} :
    ∀ {condition : Ast.JoinCondition} {b : BoundJoinCondition}, (∀ e ∈ b.equalities, e ∈ p.equalities) →
      bindJoinCondition acc scope right condition = .ok b → ∀ e ∈ b.exprs, Obeys acc (.expr p e)
  | .on expr, b, _, h => by
    rw [bindJoinCondition, bind_eq_ok] at h
    obtain ⟨e, he, h⟩ := h
    cases h
    exact List.forall_mem_singleton.2 ((binds_of_bindExpr he).rules hp)
  | .using colNames, b, hb, h => by
    have hequalities := obeys_equalities hp hb h
    rw [bindJoinCondition, bind_eq_ok] at h
    obtain ⟨exprs, -, h⟩ := h
    cases h
    exact hequalities
  | .natural, b, hb, h => by
    have hequalities := obeys_equalities hp hb h
    rw [bindJoinCondition] at h
    cases h
    exact hequalities
  | .none, b, _, h => by
    rw [bindJoinCondition] at h
    cases h
    exact nofun

theorem bindItem_rules {scope : Scope} {p : Placement} (hp : Stands scope p) : ∀ {item : Ast.SelectItem}
    {bound : List BoundSelectItem}, bindItem acc scope item = .ok bound → ∀ i ∈ bound,
      Obeys acc (.expr p i.expr)
  | .wildcard, bound, h => by
    rw [bindItem] at h
    cases h
    exact List.forall_mem_map.2 fun sc hsc => obeys_toExpr hp hsc
  | .qualifiedWildcard qualifier, bound, h => by
    rw [bindItem] at h
    split at h
    · cases h
    · cases h
      exact List.forall_mem_map.2 fun sc hsc => obeys_toExpr hp (List.mem_filter.1 hsc).1
  | .expr expr aliasName, bound, h => by
    rw [bindItem, bind_eq_ok] at h
    obtain ⟨e, he, h⟩ := h
    cases h
    exact List.forall_mem_singleton.2 ((binds_of_bindExpr he).rules hp)

theorem bindItems_rules {scope : Scope} {p : Placement} (hp : Stands scope p) :
    ∀ {items : List Ast.SelectItem}
    {bound : List BoundSelectItem}, bindItems acc scope items = .ok bound → ∀ i ∈ bound,
      Obeys acc (.expr p i.expr)
  | [], bound, h => by
    rw [bindItems] at h
    cases h
    exact nofun
  | item :: items, bound, h => by
    simp only [bindItems, bind_eq_ok] at h
    obtain ⟨part, hpart, rest, hrest, h⟩ := h
    cases h
    exact List.forall_mem_append.2 ⟨bindItem_rules hp hpart, bindItems_rules hp hrest⟩

theorem bindOrderBy_rules {scope : Scope} {p : Placement} (hp : Stands scope p)
    {projections : List BoundSelectItem}
    (hprojections : ∀ i ∈ projections, Obeys acc (.expr p i.expr)) : ∀ {list : List Ast.OrderByExpr}
    {bound : List BoundOrderByExpr}, bindOrderBy acc scope projections list = .ok bound →
      ∀ o ∈ bound, Obeys acc (.expr p o.expr)
  | [], bound, h => by
    rw [bindOrderBy] at h
    cases h
    exact nofun
  | ⟨expr, asc, nullsFirst⟩ :: list, bound, h => by
    simp only [bindOrderBy, bind_eq_ok] at h
    obtain ⟨key, hkey, rest, hrest, h⟩ := h
    cases h
    refine List.forall_mem_cons.2 ⟨?_, bindOrderBy_rules hp hprojections hrest⟩
    rw [bindOrderByExpr, bind_eq_ok] at hkey
    obtain ⟨e, he, hkey⟩ := hkey
    cases hkey
    cases hitem : orderByItem projections expr with
    | none =>
      rw [hitem] at he
      exact (binds_of_bindExpr he).rules hp
    | some result =>
      rw [hitem, Option.getD_some] at he
      subst he
      obtain ⟨i, hi, rfl⟩ := orderByItem_mem hitem
      exact hprojections i hi

/-- **The rules hold in an accepted expression.** -/
theorem Binds.rules {scope : Scope} {p : Placement} (hp : Stands scope p) : ∀ {e : Ast.Expr} {b : BoundExpr},
    Binds acc scope e b → Obeys acc (.expr p b)
  | .literal lit, _, .literal => by cases lit <;> exact obeys_expr rfl nofun nofun
  | .column _, _, .column hsc => obeys_toExpr hp (Scope.resolve_mem hsc)
  | .binaryOp _ _ _, _, .binaryOp hl hr htype => by
    refine obeys_expr (.inl htype) ?_ nofun
    exact List.forall_mem_cons.2 ⟨hl.rules hp, List.forall_mem_singleton.2 (hr.rules hp)⟩
  | .unaryOp _ _, _, .unaryOp hinner htype =>
    obeys_expr ⟨htype, rfl⟩ (List.forall_mem_singleton.2 (hinner.rules hp)) nofun
  | .isNull _, _, .isNull hinner => obeys_expr ⟨rfl, rfl⟩
    (List.forall_mem_singleton.2 (hinner.rules hp)) nofun
  | .isNotNull _, _, .isNotNull hinner =>
    obeys_expr ⟨rfl, rfl⟩ (List.forall_mem_singleton.2 (hinner.rules hp)) nofun
  | .like _ _ _, _, .like he hpattern => by
    refine obeys_expr ⟨rfl, rfl⟩ ?_ nofun
    exact List.forall_mem_cons.2 ⟨he.rules hp, List.forall_mem_singleton.2 (hpattern.rules hp)⟩
  | .between _ _ _ _, _, .between he hl hh => by
    refine obeys_expr ⟨rfl, rfl⟩ ?_ nofun
    exact List.forall_mem_cons.2 ⟨he.rules hp, List.forall_mem_cons.2 ⟨hl.rules hp,
      List.forall_mem_singleton.2 (hh.rules hp)⟩⟩
  | .inList _ _ _, _, .inList he hl =>
    obeys_expr ⟨rfl, rfl⟩ (List.forall_mem_cons.2 ⟨he.rules hp, hl.rules hp⟩) nofun
  | .inSubquery _ _ _, _, .inSubquery he hq hlen =>
    obeys_expr ⟨hlen, rfl, rfl⟩ (List.forall_mem_singleton.2 (he.rules hp))
      (List.forall_mem_singleton.2 (bindSelect_rules hq))
  | .existsSubquery _ _, _, .existsSubquery hq =>
    obeys_expr ⟨rfl, rfl⟩ nofun (List.forall_mem_singleton.2 (bindSelect_rules hq))
  | .subquery _, _, .subquery hq hcol =>
    obeys_expr ⟨_, hcol, rfl, rfl⟩ nofun (List.forall_mem_singleton.2 (bindSelect_rules hq))
  | .function _ _ _, _, .function hl htype =>
    obeys_expr htype.symm (hl.rules (hp.inside _)) nofun
  | .cast _ _, _, .cast hinner =>
    obeys_expr ⟨rfl, rfl⟩ (List.forall_mem_singleton.2 (hinner.rules hp)) nofun
  | .case _ _ _, _, .case ho hw he => by
    refine obeys_expr rfl ?_ nofun
    have hpairs := hw.rules hp
    refine List.forall_mem_append.2 ⟨List.forall_mem_append.2 ⟨List.forall_mem_append.2
      ⟨ho.rules hp, ?_⟩, ?_⟩, he.rules hp⟩
    · exact List.forall_mem_map.2 fun pair hpair => (hpairs pair hpair).1
    · exact List.forall_mem_map.2 fun pair hpair => (hpairs pair hpair).2

theorem BindsList.rules {scope : Scope} {p : Placement} (hp : Stands scope p) : ∀ {list : List Ast.Expr}
    {l : List BoundExpr}, BindsList acc scope list l → ∀ e ∈ l, Obeys acc (.expr p e)
  | [], _, .nil => nofun
  | _ :: _, _, .cons hb hrest => List.forall_mem_cons.2 ⟨hb.rules hp, hrest.rules hp⟩

theorem BindsArgs.rules {scope : Scope} {p : Placement} (hp : Stands scope p) : ∀ {list : List Ast.Expr}
    {l : List BoundExpr}, BindsArgs acc scope list l → ∀ e ∈ l, Obeys acc (.expr p e)
  | [], _, .nil => nofun
  | .wildcard :: _, _, .wildcard hrest =>
    List.forall_mem_cons.2 ⟨obeys_expr rfl nofun nofun, hrest.rules hp⟩
  | _ :: _, _, .cons hb hrest => List.forall_mem_cons.2 ⟨hb.rules hp, hrest.rules hp⟩

theorem BindsOption.rules {scope : Scope} {p : Placement} (hp : Stands scope p) : ∀ {o : Option Ast.Expr}
    {b : Option BoundExpr}, BindsOption acc scope o b → ∀ e ∈ b.toList, Obeys acc (.expr p e)
  | none, _, .none => nofun
  | some _, _, .some hb => List.forall_mem_singleton.2 (hb.rules hp)

theorem BindsPairs.rules {scope : Scope} {p : Placement} (hp : Stands scope p) :
    ∀ {list : List (Ast.Expr × Ast.Expr)}
    {l : List (BoundExpr × BoundExpr)}, BindsPairs acc scope list l →
      ∀ pair ∈ l, Obeys acc (.expr p pair.1) ∧ Obeys acc (.expr p pair.2)
  | [], _, .nil => nofun
  | (_, _) :: _, _, .cons hw ht hrest => List.forall_mem_cons.2 ⟨⟨hw.rules hp, ht.rules hp⟩, hrest.rules hp⟩

end

end Binder
end Abdb
