import SystemFOmega.Core.Strategy
import SystemFOmega.Core.Subst

/-!
# Normal forms of core types

A redex is a type operator that is applied. `Ty.normalize` contracts redexes until none is left, in
normal order (outermost first) or in applicative order (innermost first).

A run may be given fuel, of which every type that is visited takes one unit, and every
contraction another. It is also given a depth, to which visits may nest. Types that have a kind
have a normal form, so with no bound on the fuel a run ends if it is given enough depth; other types
may use up any depth.
-/

namespace SystemFOmega

/-- What a run has left: its fuel, if that is bounded, and the counter for names. -/
structure Normalizer where
  remaining : Option Int
  supply : Int
deriving DecidableEq

/-- Why a run stops without a normal form. -/
inductive Exhausted where
  | fuel | depth
deriving DecidableEq

namespace Ty

/-- Computations that take fresh names and use up fuel. -/
abbrev Normalize := EStateM Exhausted Normalizer

/-- Takes one unit of fuel. -/
def spend : Normalize Unit := do
  match (← get).remaining with
  | none => return
  | some n => if n ≤ 0 then throw .fuel else modify fun s => { s with remaining := some (n - 1) }

/-- Puts `a` for `x` in the body of an operator whose application has the kind `k`. -/
def contract (x : Name) (body a : Ty) (k : Kind) : Normalize Ty := do
  spend
  modifyGet fun s =>
    let r := body.subst x a s.supply
    (r.1.withKind k, { s with supply := r.2 })

/-- Contracts redexes at the head until the head is none. -/
def weakHead : Nat → Ty → Normalize Ty
  | 0, .app _ _ _ => throw .depth
  | d + 1, .app f a k => do
    spend
    match ← weakHead d f with
    | .bind .lam x _ body _ => weakHead d (← contract x body a k)
    | f' => return .app f' a k
  | _, t => return t

/-- Brings a type to normal form, at most to the given depth. -/
def normalizeFrom (o : Order) : Nat → Ty → Normalize Ty
  | 0, _ => throw .depth
  | d + 1, t => do
    spend
    let t ← match o with
      | .normal => weakHead d t
      | .applicative => pure t
    match t with
    | .int k => return .int k
    | .var x k => return .var x k
    | .arrow s t k => return .arrow (← normalizeFrom o d s) (← normalizeFrom o d t) k
    | .bind b x xk t k => return .bind b x xk (← normalizeFrom o d t) k
    | .app f a k => do
      let f' ← normalizeFrom o d f
      let a' ← normalizeFrom o d a
      match f' with
      | .bind .lam x _ body _ => normalizeFrom o d (← contract x body a' k)
      | _ => return .app f' a' k

/-- The depth to which normalization may nest. -/
def maxDepth : Nat := 1000

/-- Brings a type to normal form, starting from the given fuel and counter. -/
def normalize (o : Order) (fuel : Option Int) (supply : Int) (t : Ty) (depth : Nat := maxDepth) :
    EStateM.Result Exhausted Normalizer Ty :=
  (normalizeFrom o depth t).run ⟨fuel, supply⟩

end Ty

end SystemFOmega
