import SystemFOmega.Proofs.Checker.Discipline
import SystemFOmega.Proofs.Checker.Rules

/-!
# The checker with an exact comparison is sound

If types are compared by a relation that only accepts alpha-equivalent ones, then the typing rules
are a discipline that the checker keeps to (`Checker.Discipline.sound_typing`): what it infers is a
type of the expansion, and an expression that it accepts for an expected type has that type.
-/

namespace SystemFOmega

open Run
open Nameless (Kinded)

theorem Ty.HasNormal.normalizes {o : Nat → Checker.Options} {t t' : Ty} (h : t.HasNormal o t') :
    t.Normalizes t' := by
  obtain ⟨_, h⟩ := h
  exact .of_normalizesBy h

section

variable {place : Name → Telescope} {same : Checker.Comparison} {o : Checker.Options}
  {s : Checker.State}

/-! ## Soundness -/

namespace Checker.Discipline

/-- An expression has the types of its expansion. -/
def sound : Discipline where
  Fit _ _ := True
  OfExpr S e t := t.OfExpr S e
  Expected S _ t := Kinded S.kinds (t.within S) .star
  Stands S u k t := t.Stands S u k
  Fault _ := True

theorem sound_typing (hsame : ∀ {t u : Ty}, same t u = .ok () → t.AlphaEq u) :
    sound.Typing place same fun _ => o where
  cache _ := rfl
  visit _ _ := trivial
  core h hu hcore := (hu.placed h.placed).stands h.scope hcore
  ofExpr_normal h hn := h.normalizes hn.normalizes
  ofExpr_of_normal hk hn h := h.of_normalizes hn.normalizes hk
  expected_normal hk hn := hn.normalizes.kinded hk
  stands_normal h hn := h.normalizes hn.normalizes
  lit _ m _ := .lit m
  exprVar l hS hx ht := hS.exprVar_ofExpr l hx ht
  exprDef l hS hx ht := hS.exprDef_ofExpr l hx ht
  letIn h := h
  typeIn h := h
  kindIn h := h
  ann_expected _ ht := ht.kinded
  ann ht h := .ann ht h
  lam ht h := .lam ht h
  app_expected _ hf := hf.kinded.arrow_inv.1
  app hf ha := .app hf ha
  tlam _ h := .tlam h
  tapp c hf ha := .tapp c hf ha
  tlam_expected c h hk := Ty.kinded_rebind (h.scope.not_mem h.placed.2.1) hk c
  tlam_accepted _ h hk he := .tlam_rebind (h.scope.not_mem h.placed.2.1) hk he
  lam_agreed _ ht heq := ht.alphaEq (hsame heq)
  lam_expected _ hk := hk.arrow_inv.2
  lam_accepted _ ht he := .lam ht he
  accepted h _ heq := h.alphaEq (hsame heq)

end Checker.Discipline

namespace Expr

/-! ## Whole programs -/

/-- What the checker gives for a closed program is a normal form, and a type of the expansion. -/
theorem inferNormal_sound (hsame : ∀ {t u : Ty}, same t u = .ok () → t.AlphaEq u) {r : Expr}
    {t : Ty} {c : Int} {tr : Trace} (hr : r.Placed place [])
    (h : r.inferNormal same o { supply := c, trace := tr } = .ok t s) :
    Term.HasType Kinds.empty Types.empty (r.expand Env.empty) t.nameless ∧
      Nameless.Normal t.nameless := by
  have hD : Checker.Discipline.sound.Typing place same fun _ => o :=
    Checker.Discipline.sound_typing hsame
  obtain ⟨ht, u, hu⟩ := hD.of_inferNormal (fun _ => trivial) ⟨trivial, hr, trivial⟩ h
  have ht : t.OfExpr [] r := ht
  rw [Ty.OfExpr, Ty.within_nil] at ht
  exact ⟨ht, (Ty.Normalizes.of_normalizesBy hu).normal⟩

end Expr

end

end SystemFOmega
