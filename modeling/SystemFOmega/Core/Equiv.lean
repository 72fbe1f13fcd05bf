import SystemFOmega.Core.Subst

/-!
# Comparing core types

Two types are compared node by node; binders are brought together by putting the expected name for
the received one. The kinds of nodes play no part, those of bound names do. Nothing is reduced, so
both types should be normal.
-/

namespace SystemFOmega

/-- Where two types or kinds differ. -/
inductive Clash where
  | names (received expected : Ty)
  | types (received expected : Ty)
  | kinds (received expected : Kind)
deriving DecidableEq

/-- A kind conforms to itself only. -/
def Kind.conform (received expected : Kind) : Except Clash Unit :=
  if received = expected then .ok () else .error (.kinds received expected)

/-- Compares a type with an expected one. -/
def Ty.conform (received expected : Ty) : Except Clash Unit :=
  match received, expected with
  | .int _, .int _ => .ok ()
  | .var x k, .var y l => if x = y then .ok () else .error (.names (.var x k) (.var y l))
  | .arrow s t _, .arrow s' t' _ => do
    Ty.conform s s'
    Ty.conform t t'
  | .bind b x xk t k, .bind b' y yk t' l =>
    if b = b' then do
      Kind.conform xk yk
      Ty.conform (t.subst x (.var y yk) 1).1 t'
    else .error (.types (.bind b x xk t k) (.bind b' y yk t' l))
  | .app f a _, .app f' a' _ => do
    Ty.conform f f'
    Ty.conform a a'
  | received, expected => .error (.types received expected)
termination_by structural expected

end SystemFOmega
