import SystemFOmega.Checker.Basic

/-!
# Elaboration of kinds and types

A surface kind or type is turned into a core one, in which every node carries its kind. A defined
name stands for its definition, which is elaborated where the name is used, in the context of the
use.

A definition may lead to others, so the recursion is not on the phrase alone but on a bound for the
nesting of phrases and definitions (`Context.reach`).
-/

namespace SystemFOmega

open Check

/-- The kind that a surface kind stands for. -/
def KindExpr.elaborate (o : Checker.Options) : Nat → Context → KindExpr → Check Kind
  | 0, _, _ => raise .circular
  | n + 1, Γ, k => do
    match k with
    | .star => return .star
    | .arrow j k => return .arrow (← j.elaborate o n Γ) (← k.elaborate o n Γ)
    | .var x =>
      match (← get).kinds.get? x.name with
      | some k => return k
      | none =>
        let k ← (← found (Γ.findKind x)).elaborate o n Γ
        keepKind o x.name k
        return k

/-- Fails unless `t` has the kind `k`. -/
def Check.ofKind (k : Kind) (t : Ty) : Check Ty := do
  agree (t.kind.conform k)
  return t

/-- The core type that a surface type stands for. -/
def TypeExpr.elaborate (o : Checker.Options) : Nat → Context → TypeExpr → Check Ty
  | 0, _, _ => raise .circular
  | n + 1, Γ, t => do
    match t with
    | .int => return .int .star
    | .var x =>
      match ← found (Γ.findType x) with
      | .bound k => return .var x.name k
      | .defined u =>
        match (← get).types.get? x.name with
        | some t => return t
        | none =>
          let t ← u.elaborate o n Γ
          keepType o x.name t
          return t
    | .arrow s t =>
      let s ← ofKind .star (← s.elaborate o n Γ)
      let t ← ofKind .star (← t.elaborate o n Γ)
      return .arrow s t .star
    | .bind .all x k t =>
      let k ← k.elaborate o n Γ
      let t ← ofKind .star (← t.elaborate o n (Γ.bindType x.name k))
      return .bind .all x.name k t .star
    | .bind .lam x k t =>
      let k ← k.elaborate o n Γ
      let t ← t.elaborate o n (Γ.bindType x.name k)
      return .bind .lam x.name k t (.arrow k t.kind)
    | .app f a =>
      let f ← f.elaborate o n Γ
      match f.kind with
      | .star => raise (.notOperator f a)
      | .arrow j k =>
        let a ← ofKind j (← a.elaborate o n Γ)
        return .app f a k
    | .kinded t k =>
      let k ← k.elaborate o n Γ
      ofKind k (← t.elaborate o n Γ)

end SystemFOmega
