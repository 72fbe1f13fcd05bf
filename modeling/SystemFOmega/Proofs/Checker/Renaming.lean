import SystemFOmega.Checker.Typing
import SystemFOmega.Proofs.Surface.Resolution

/-!
# Renaming what has been renamed

Renaming looks at display names only: the numbers that names have already play no part
(`Expr.rename_unnumbered`). What it gives differs from the expression in numbers only, so that
renaming it once more, from any counter, is to rename the expression itself (`Expr.rename_renamed`).
So the first result stays as it is if the counter is the same, and it has the type of the expression
or is rejected for the same reason at the same place (`Expr.renaming_preserves_meaning`).
-/

namespace SystemFOmega

open Run

/-! ## Numbers play no part -/

variable (s : Scope)

theorem Ident.fresh_unnumbered (x : Ident) : x.unnumbered.fresh = x.fresh := rfl

theorem Ident.resolve_unnumbered (l : Level) (x : Ident) :
    x.unnumbered.resolve l s = x.resolve l s := rfl

theorem KindExpr.rename_unnumbered (k : KindExpr) : k.unnumbered.rename s = k.rename s := by
  induction k with
  | star => rfl
  | var x => simp only [unnumbered, rename, x.resolve_unnumbered]
  | arrow j k hj hk => simp only [unnumbered, rename, hj, hk]

theorem TypeExpr.rename_unnumbered (t : TypeExpr) : t.unnumbered.rename s = t.rename s := by
  induction t generalizing s with
  | int => rfl
  | var x => simp only [unnumbered, rename, x.resolve_unnumbered]
  | arrow t u ht hu | app t u ht hu => simp only [unnumbered, rename, ht, hu]
  | bind b x k t ih =>
    simp only [unnumbered, rename, k.rename_unnumbered, x.fresh_unnumbered, ih]
  | kinded t k ih => simp only [unnumbered, rename, k.rename_unnumbered, ih]

theorem Expr.rename_unnumbered (e : Expr) : e.unnumbered.rename s = e.rename s := by
  induction e generalizing s with
  | lit n l => rfl
  | var x l => simp only [unnumbered, rename, x.resolve_unnumbered]
  | app f a l hf ha => simp only [unnumbered, rename, hf, ha]
  | tapp e t l ih | ann e t l ih => simp only [unnumbered, rename, t.rename_unnumbered, ih]
  | lam x t e l ih | typeIn x t e l ih =>
    simp only [unnumbered, rename, t.rename_unnumbered, x.fresh_unnumbered, ih]
  | tlam x k e l ih | kindIn x k e l ih =>
    simp only [unnumbered, rename, k.rename_unnumbered, x.fresh_unnumbered, ih]
  | letIn x v e l hv he => simp only [unnumbered, rename, x.fresh_unnumbered, hv, he]

/-! ## Renaming twice -/

namespace Expr

variable {e r : Expr} {c c' : Int}

/-- To rename the result of renaming is to rename the expression. -/
theorem rename_renamed (h : e.rename {} c = .ok r c') (s : Scope) : r.rename s = e.rename s := by
  have hsame : r.unnumbered = e.unnumbered := ((e.rename_resolves .nil).of_ok h).1
  rw [← r.rename_unnumbered, hsame, e.rename_unnumbered]

/-- What renaming gives is kept by renaming from the same counter, and it is checked as the
expression is: with the same type, names included, or with the same failure at the same place, and
with the same trace. -/
theorem renaming_preserves_meaning (h : e.rename {} c = .ok r c') :
    r.rename {} c = .ok r c' ∧
      ∀ (o : Checker.Options) (tr : Trace), r.typeOf o tr = e.typeOf o tr := by
  have hrename : r.rename {} = e.rename {} := rename_renamed h {}
  refine ⟨by rw [hrename, h], fun o tr => ?_⟩
  unfold typeOf typeOfBy
  rw [hrename]

/-- One display name for a type, a variable and a definition in its scope, with numbers that say
otherwise. -/
theorem renaming_preserves_meaning_shadowed :
    let A (n : Int) : Ident := { name := ⟨"A", n⟩ }
    let e := tlam (A 3) .star (lam (A 3) (.var (A 8)) (letIn (A 0) (var (A 1) none)
      (ann (var (A 3) none) (.var (A 3)) none) none) none) none
    let r := tlam (A 5) .star (lam (A 6) (.var (A 5)) (letIn (A 7) (var (A 6) none)
      (ann (var (A 7) none) (.var (A 5)) none) none) none) none
    e.rename {} 5 = .ok r 8 ∧ r.rename {} 5 = .ok r 8 ∧
      ∀ (o : Checker.Options) (tr : Trace), r.typeOf o tr = e.typeOf o tr := by
  intro A e r
  have h : e.rename {} 5 = .ok r 8 := rfl
  exact ⟨h, renaming_preserves_meaning h⟩

end Expr

end SystemFOmega
