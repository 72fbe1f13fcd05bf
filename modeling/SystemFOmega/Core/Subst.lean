import SystemFOmega.Core.Ty

/-!
# Substitution in core types

`t.subst x r` puts `r` for the free occurrences of `x` in `t`. A binder that would capture a
free name of `r` is renamed first; its new number comes from a counter that is moved past every
number in sight, so that the result does not depend on where the counter stood.
-/

namespace SystemFOmega.Ty

/-- Puts the variable `y` of kind `k` for the free occurrences of `x`. No binder may bind `y`. -/
def rename (x y : Name) (k : Kind) : Ty → Ty
  | .int l => .int l
  | .var z l => if z = x then .var y k else .var z l
  | .arrow s t l => .arrow (s.rename x y k) (t.rename x y k) l
  | .bind b z zk t l => if z = x then .bind b z zk t l else .bind b z zk (t.rename x y k) l
  | .app f a l => .app (f.rename x y k) (a.rename x y k) l

@[simp] theorem size_rename (x y : Name) (k : Kind) (t : Ty) : (t.rename x y k).size = t.size := by
  induction t with
  | int => rfl
  | var z l => by_cases h : z = x <;> simp [rename, size, h]
  | arrow s t l hs ht => simp [rename, size, hs, ht]
  | bind b z zk t l ht => by_cases h : z = x <;> simp [rename, size, h, ht]
  | app f a l hf ha => simp [rename, size, hf, ha]

/-- The type `t` with `r` for `x`, and the counter afterwards. -/
def subst (t : Ty) (x : Name) (r : Ty) (c : Int) : Ty × Int :=
  match t with
  | .int k => (.int k, c)
  | .var y k => (if y = x then r else .var y k, c)
  | .arrow s t k =>
    let s' := s.subst x r c
    let t' := t.subst x r s'.2
    (.arrow s'.1 t'.1 k, t'.2)
  | .bind b y yk body k =>
    if y = x then (.bind b y yk body k, c)
    else if y ∈ r.freeVars ∧ x ∈ body.freeVars then
      let n := Name.above c (body.names ++ r.names)
      let z : Name := ⟨y.value, n⟩
      let body' := (body.rename y z yk).subst x r (n + 1)
      (.bind b z yk body'.1 k, body'.2)
    else
      let body' := body.subst x r c
      (.bind b y yk body'.1 k, body'.2)
  | .app f a k =>
    let f' := f.subst x r c
    let a' := a.subst x r f'.2
    (.app f'.1 a'.1 k, a'.2)
termination_by t.size
decreasing_by all_goals simp [size]; try omega

end SystemFOmega.Ty
