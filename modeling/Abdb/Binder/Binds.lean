/-
# What the binder accepts

One rule for each form of expression: the parts that `bind_expr` binds, the checks that it makes,
and the bound expression that it returns.  An expression is accepted exactly if it has a derivation
by these rules (`binds_iff`), so what holds of every bound expression is shown rule by rule.
-/

import Abdb.Binder.Resolve

namespace Abdb
namespace Binder

mutual

/-- `bind_expr` accepts an expression, and returns this one for it. -/
inductive Binds (acc : Accessor) (scope : Scope) : Ast.Expr → BoundExpr → Prop
  | literal {lit} : Binds acc scope (.literal lit) (bindLiteral lit)
  | column {c sc} : scope.resolve c.table c.column = .ok sc → Binds acc scope (.column c) sc.toExpr
  | binaryOp {left op right l r dt nullable} : Binds acc scope left l → Binds acc scope right r →
      inferBinaryType op l r = .ok (dt, nullable) →
      Binds acc scope (.binaryOp left op right) ⟨.binaryOp l op r, dt, nullable⟩
  | unaryOp {op expr inner dt} : Binds acc scope expr inner → inferUnaryType op inner = .ok dt →
      Binds acc scope (.unaryOp op expr) ⟨.unaryOp op inner, dt, inner.nullable⟩
  | isNull {expr inner} : Binds acc scope expr inner →
      Binds acc scope (.isNull expr) ⟨.isNull inner, .bool, false⟩
  | isNotNull {expr inner} : Binds acc scope expr inner →
      Binds acc scope (.isNotNull expr) ⟨.isNotNull inner, .bool, false⟩
  | like {expr pattern negated e p} : Binds acc scope expr e → Binds acc scope pattern p →
      Binds acc scope (.like expr pattern negated) ⟨.like e p negated, .bool, false⟩
  | between {expr low high negated e l h} : Binds acc scope expr e → Binds acc scope low l →
      Binds acc scope high h →
      Binds acc scope (.between expr low high negated) ⟨.between e l h negated, .bool, false⟩
  | inList {expr list negated e l} : Binds acc scope expr e → BindsList acc scope list l →
      Binds acc scope (.inList expr list negated) ⟨.inList e l negated, .bool, false⟩
  | inSubquery {expr subquery negated e q} : Binds acc scope expr e → bindSelect acc subquery = .ok q →
      q.outputColumns.length = 1 →
      Binds acc scope (.inSubquery expr subquery negated) ⟨.inSubquery e q negated, .bool, false⟩
  | existsSubquery {subquery negated q} : bindSelect acc subquery = .ok q →
      Binds acc scope (.existsSubquery subquery negated) ⟨.existsSubquery q negated, .bool, false⟩
  | subquery {query q col} : bindSelect acc query = .ok q → q.outputColumns = [col] →
      Binds acc scope (.subquery query) ⟨.subquery q, col.dataType, col.nullable⟩
  | function {name args distinct l dt nullable} : BindsArgs acc scope args l →
      inferFunctionType (.ofName name) l = (dt, nullable) →
      Binds acc scope (.function name args distinct)
        ⟨.function ⟨name, .ofName name, l, distinct⟩, dt, nullable⟩
  | cast {expr dataType inner} : Binds acc scope expr inner →
      Binds acc scope (.cast expr dataType) ⟨.cast inner dataType, dataType, inner.nullable⟩
  | case {operand whenThen elseResult o w e} : BindsOption acc scope operand o →
    BindsPairs acc scope whenThen w →
      BindsOption acc scope elseResult e →
      Binds acc scope (.case operand whenThen elseResult) ⟨.case o w e,
        ((w.head?.map (·.2.dataType)).or (e.map (·.dataType))).getD .string,
        e.isNone || w.any (·.2.nullable) || e.any (·.nullable)⟩

inductive BindsList (acc : Accessor) (scope : Scope) : List Ast.Expr → List BoundExpr → Prop
  | nil : BindsList acc scope [] []
  | cons {e list b l} : Binds acc scope e b → BindsList acc scope list l →
    BindsList acc scope (e :: list) (b :: l)

/-- The arguments of a function: `*` counts as 1. -/
inductive BindsArgs (acc : Accessor) (scope : Scope) : List Ast.Expr → List BoundExpr → Prop
  | nil : BindsArgs acc scope [] []
  | wildcard {list l} : BindsArgs acc scope list l →
      BindsArgs acc scope (.wildcard :: list) (⟨.literal (.integer 1), .i64, false⟩ :: l)
  | cons {e list b l} : Binds acc scope e b → BindsArgs acc scope list l →
    BindsArgs acc scope (e :: list) (b :: l)

inductive BindsOption (acc : Accessor) (scope : Scope) : Option Ast.Expr → Option BoundExpr → Prop
  | none : BindsOption acc scope none none
  | some {e b} : Binds acc scope e b → BindsOption acc scope (some e) (some b)

inductive BindsPairs (acc : Accessor) (scope : Scope) :
    List (Ast.Expr × Ast.Expr) → List (BoundExpr × BoundExpr) → Prop
  | nil : BindsPairs acc scope [] []
  | cons {w t list bw bt l} : Binds acc scope w bw → Binds acc scope t bt → BindsPairs acc scope list l →
      BindsPairs acc scope ((w, t) :: list) ((bw, bt) :: l)

end

variable {acc : Accessor} {scope : Scope}

/-! ### Accepted expressions have derivations -/

mutual

theorem binds_of_bindExpr : ∀ {e : Ast.Expr} {b : BoundExpr}, bindExpr acc scope e = .ok b →
    Binds acc scope e b
  | .literal lit, b, h => by
    rw [bindExpr] at h
    cases h
    exact .literal
  | .column c, b, h => by
    simp only [bindExpr, bind_eq_ok] at h
    obtain ⟨sc, hsc, h⟩ := h
    cases h
    exact .column hsc
  | .binaryOp left op right, b, h => by
    simp only [bindExpr, bind_eq_ok] at h
    obtain ⟨l, hl, r, hr, ⟨dt, nullable⟩, htype, h⟩ := h
    cases h
    exact .binaryOp (binds_of_bindExpr hl) (binds_of_bindExpr hr) htype
  | .unaryOp op expr, b, h => by
    simp only [bindExpr, bind_eq_ok] at h
    obtain ⟨inner, hinner, dt, htype, h⟩ := h
    cases h
    exact .unaryOp (binds_of_bindExpr hinner) htype
  | .isNull expr, b, h => by
    simp only [bindExpr, bind_eq_ok] at h
    obtain ⟨inner, hinner, h⟩ := h
    cases h
    exact .isNull (binds_of_bindExpr hinner)
  | .isNotNull expr, b, h => by
    simp only [bindExpr, bind_eq_ok] at h
    obtain ⟨inner, hinner, h⟩ := h
    cases h
    exact .isNotNull (binds_of_bindExpr hinner)
  | .like expr pattern negated, b, h => by
    simp only [bindExpr, bind_eq_ok] at h
    obtain ⟨e, he, p, hp, h⟩ := h
    cases h
    exact .like (binds_of_bindExpr he) (binds_of_bindExpr hp)
  | .between expr low high negated, b, h => by
    simp only [bindExpr, bind_eq_ok] at h
    obtain ⟨e, he, l, hl, u, hu, h⟩ := h
    cases h
    exact .between (binds_of_bindExpr he) (binds_of_bindExpr hl) (binds_of_bindExpr hu)
  | .inList expr list negated, b, h => by
    simp only [bindExpr, bind_eq_ok] at h
    obtain ⟨e, he, l, hl, h⟩ := h
    cases h
    exact .inList (binds_of_bindExpr he) (bindsList_of_bindExprs hl)
  | .inSubquery expr subquery negated, b, h => by
    simp only [bindExpr, bind_eq_ok] at h
    obtain ⟨e, he, q, hq, h⟩ := h
    split at h
    · cases h
    · rename_i hlen
      cases h
      exact .inSubquery (binds_of_bindExpr he) hq (not_not.1 hlen)
  | .existsSubquery subquery negated, b, h => by
    simp only [bindExpr, bind_eq_ok] at h
    obtain ⟨q, hq, h⟩ := h
    cases h
    exact .existsSubquery hq
  | .subquery query, b, h => by
    simp only [bindExpr, bind_eq_ok] at h
    obtain ⟨q, hq, h⟩ := h
    split at h
    · rename_i col hcol
      cases h
      exact .subquery hq hcol
    · cases h
  | .function name args distinct, b, h => by
    simp only [bindExpr, bind_eq_ok] at h
    obtain ⟨l, hl, h⟩ := h
    cases h
    exact .function (bindsArgs_of_bindArgs hl) rfl
  | .cast expr dataType, b, h => by
    simp only [bindExpr, bind_eq_ok] at h
    obtain ⟨inner, hinner, h⟩ := h
    cases h
    exact .cast (binds_of_bindExpr hinner)
  | .case operand whenThen elseResult, b, h => by
    simp only [bindExpr, bind_eq_ok] at h
    obtain ⟨o, ho, w, hw, e, he, h⟩ := h
    cases h
    exact .case (bindsOption_of_bindOption ho) (bindsPairs_of_bindPairs hw) (bindsOption_of_bindOption he)
  | .wildcard, b, h => by
    rw [bindExpr] at h
    cases h

theorem bindsList_of_bindExprs : ∀ {list : List Ast.Expr} {l : List BoundExpr},
    bindExprs acc scope list = .ok l →
    BindsList acc scope list l
  | [], l, h => by
    rw [bindExprs] at h
    cases h
    exact .nil
  | e :: list, l, h => by
    simp only [bindExprs, bind_eq_ok] at h
    obtain ⟨b, hb, rest, hrest, h⟩ := h
    cases h
    exact .cons (binds_of_bindExpr hb) (bindsList_of_bindExprs hrest)

theorem bindsArgs_of_bindArgs : ∀ {list : List Ast.Expr} {l : List BoundExpr},
    bindArgs acc scope list = .ok l →
    BindsArgs acc scope list l
  | [], l, h => by
    rw [bindArgs] at h
    cases h
    exact .nil
  | e :: list, l, h => by
    cases e with
    | wildcard =>
      simp only [bindArgs, bind_eq_ok] at h
      obtain ⟨rest, hrest, h⟩ := h
      cases h
      exact .wildcard (bindsArgs_of_bindArgs hrest)
    | _ =>
      simp only [bindArgs, bind_eq_ok] at h
      obtain ⟨b, hb, rest, hrest, h⟩ := h
      cases h
      exact .cons (binds_of_bindExpr hb) (bindsArgs_of_bindArgs hrest)

theorem bindsOption_of_bindOption : ∀ {o : Option Ast.Expr} {b : Option BoundExpr},
    bindOption acc scope o = .ok b →
    BindsOption acc scope o b
  | none, b, h => by
    rw [bindOption] at h
    cases h
    exact .none
  | some e, b, h => by
    simp only [bindOption, bind_eq_ok] at h
    obtain ⟨b, hb, h⟩ := h
    cases h
    exact .some (binds_of_bindExpr hb)

theorem bindsPairs_of_bindPairs : ∀ {list : List (Ast.Expr × Ast.Expr)} {l : List (BoundExpr × BoundExpr)},
    bindPairs acc scope list = .ok l → BindsPairs acc scope list l
  | [], l, h => by
    rw [bindPairs] at h
    cases h
    exact .nil
  | (w, t) :: list, l, h => by
    simp only [bindPairs, bind_eq_ok] at h
    obtain ⟨bw, hw, bt, ht, rest, hrest, h⟩ := h
    cases h
    exact .cons (binds_of_bindExpr hw) (binds_of_bindExpr ht) (bindsPairs_of_bindPairs hrest)

end

/-! ### Derived expressions are accepted -/

mutual

theorem bindExpr_of_binds : ∀ {e : Ast.Expr} {b : BoundExpr}, Binds acc scope e b →
    bindExpr acc scope e = .ok b
  | _, _, .literal => by rw [bindExpr]
  | _, _, .column hsc => by
    rw [bindExpr, bind_eq_ok]
    exact ⟨_, hsc, rfl⟩
  | _, _, .binaryOp hl hr htype => by
    simp only [bindExpr, bind_eq_ok]
    exact ⟨_, bindExpr_of_binds hl, _, bindExpr_of_binds hr, _, htype, rfl⟩
  | _, _, .unaryOp hinner htype => by
    simp only [bindExpr, bind_eq_ok]
    exact ⟨_, bindExpr_of_binds hinner, _, htype, rfl⟩
  | _, _, .isNull hinner => by
    simp only [bindExpr, bind_eq_ok]
    exact ⟨_, bindExpr_of_binds hinner, rfl⟩
  | _, _, .isNotNull hinner => by
    simp only [bindExpr, bind_eq_ok]
    exact ⟨_, bindExpr_of_binds hinner, rfl⟩
  | _, _, .like he hp => by
    simp only [bindExpr, bind_eq_ok]
    exact ⟨_, bindExpr_of_binds he, _, bindExpr_of_binds hp, rfl⟩
  | _, _, .between he hl hu => by
    simp only [bindExpr, bind_eq_ok]
    exact ⟨_, bindExpr_of_binds he, _, bindExpr_of_binds hl, _, bindExpr_of_binds hu, rfl⟩
  | _, _, .inList he hl => by
    simp only [bindExpr, bind_eq_ok]
    exact ⟨_, bindExpr_of_binds he, _, bindExprs_of_bindsList hl, rfl⟩
  | _, _, .inSubquery he hq hlen => by
    simp only [bindExpr, bind_eq_ok]
    exact ⟨_, bindExpr_of_binds he, _, hq, if_neg (not_not.2 hlen)⟩
  | _, _, .existsSubquery hq => by
    simp only [bindExpr, bind_eq_ok]
    exact ⟨_, hq, rfl⟩
  | _, _, .subquery hq hcol => by
    simp only [bindExpr, bind_eq_ok]
    exact ⟨_, hq, by rw [hcol]; rfl⟩
  | _, _, .function hl htype => by
    simp only [bindExpr, bind_eq_ok]
    exact ⟨_, bindArgs_of_bindsArgs hl, by rw [htype]; rfl⟩
  | _, _, .cast hinner => by
    simp only [bindExpr, bind_eq_ok]
    exact ⟨_, bindExpr_of_binds hinner, rfl⟩
  | _, _, .case ho hw he => by
    simp only [bindExpr, bind_eq_ok]
    exact ⟨_, bindOption_of_bindsOption ho, _, bindPairs_of_bindsPairs hw, _,
      bindOption_of_bindsOption he, rfl⟩

theorem bindExprs_of_bindsList : ∀ {list : List Ast.Expr} {l : List BoundExpr}, BindsList acc scope list l →
    bindExprs acc scope list = .ok l
  | _, _, .nil => by rw [bindExprs]
  | _, _, .cons hb hrest => by
    simp only [bindExprs, bind_eq_ok]
    exact ⟨_, bindExpr_of_binds hb, _, bindExprs_of_bindsList hrest, rfl⟩

theorem bindArgs_of_bindsArgs : ∀ {list : List Ast.Expr} {l : List BoundExpr}, BindsArgs acc scope list l →
    bindArgs acc scope list = .ok l
  | _, _, .nil => by rw [bindArgs]
  | _, _, .wildcard hrest => by
    simp only [bindArgs, bind_eq_ok]
    exact ⟨_, bindArgs_of_bindsArgs hrest, rfl⟩
  | e :: _, _, .cons hb hrest => by
    have hwildcard : e = .wildcard → False := by
      rintro rfl
      cases hb
    simp only [bindArgs, bind_eq_ok]
    exact ⟨_, bindExpr_of_binds hb, _, bindArgs_of_bindsArgs hrest, rfl⟩

theorem bindOption_of_bindsOption : ∀ {o : Option Ast.Expr} {b : Option BoundExpr},
    BindsOption acc scope o b →
    bindOption acc scope o = .ok b
  | _, _, .none => by rw [bindOption]
  | _, _, .some hb => by
    simp only [bindOption, bind_eq_ok]
    exact ⟨_, bindExpr_of_binds hb, rfl⟩

theorem bindPairs_of_bindsPairs : ∀ {list : List (Ast.Expr × Ast.Expr)} {l : List (BoundExpr × BoundExpr)},
    BindsPairs acc scope list l → bindPairs acc scope list = .ok l
  | _, _, .nil => by rw [bindPairs]
  | _, _, .cons hw ht hrest => by
    simp only [bindPairs, bind_eq_ok]
    exact ⟨_, bindExpr_of_binds hw, _, bindExpr_of_binds ht, _, bindPairs_of_bindsPairs hrest, rfl⟩

end

/-- **The binder accepts what has a derivation.** -/
theorem binds_iff {e : Ast.Expr} {b : BoundExpr} : bindExpr acc scope e = .ok b ↔ Binds acc scope e b :=
  ⟨binds_of_bindExpr, bindExpr_of_binds⟩

end Binder
end Abdb
