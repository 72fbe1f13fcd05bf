import SystemFOmega.Proofs.Checker.Exact
import SystemFOmega.Proofs.Checker.Sound
import SystemFOmega.Proofs.Surface.Rename
import SystemFOmega.Proofs.Surface.Safety
import SystemFOmega.Proofs.Text.Chars

/-!
# Type safety of accepted programs

A weak strategy does not reduce under abstractions. A run of an accepted program under such a
strategy can only end in a value of the form that the type of the program asks for, if the checker
has accepted no two types because of a capture (`Expr.isValueOf_of_accepted`). Without this proviso
a run can get stuck (`Expr.accepted_run_stuck`).
-/

namespace SystemFOmega

open Nameless (Kinded Conv)

namespace Expr

/-- Whether an expression is a value of the form that a type in normal form asks for. -/
def isValueOf : Ty → Expr → Bool
  | .int _, lit _ _ => true
  | .arrow _ _ _, lam _ _ _ _ => true
  | .bind .all _ _ _ _, tlam _ _ _ _ => true
  | _, _ => false

/-- Values of a closed type in normal form. -/
theorem Canonical.isValueOf {e : Expr} {t : Ty} (h : e.Canonical t.nameless)
    (hk : Kinded Kinds.empty t.nameless .star) (hn : Nameless.Normal t.nameless) :
    e.isValueOf t := by
  have hclosed (r : Ref) : ¬ t.nameless.Uses r := fun hr => by
    obtain ⟨l, hl⟩ := hk.exists_of_uses hr
    cases hl
  cases t with
  | int k =>
    cases e with
    | lit => rfl
    | lam =>
      obtain ⟨s, u, hc⟩ := h
      exact absurd hc.symm (Nameless.not_conv_int_arrow s u)
    | tlam =>
      obtain ⟨k, u, hc⟩ := h
      exact absurd hc.symm (Nameless.not_conv_int_bind _ _ _)
    | _ => exact h.elim
  | arrow s t k =>
    obtain ⟨x, u, b, l, rfl⟩ := h.lam_of_arrow
    rfl
  | bind b x k t l =>
    cases b with
    | all =>
      obtain ⟨x, j, b, l, rfl⟩ := h.tlam_of_all
      rfl
    | lam => cases hk
  | var x k => exact absurd rfl (hclosed (.free x))
  | app f a k => exact absurd rfl (hk.not_app_of_normal hn hclosed f.nameless a.nameless)

/-- A program without free names has no free names after renaming either. -/
theorem closed_of_rename {e r : Expr} {c c' : Int} (h : e.rename {} c = .ok r c') : r.Closed := by
  obtain ⟨place, hr⟩ := exists_placed h
  refine fun l => List.eq_nil_iff_forall_not_mem.2 fun x hx => ?_
  obtain ⟨d, S', -, -, hS⟩ := hr.free hx
  exact absurd hS.length_le (by simp)

/-- A run of an accepted program under call by name or call by value can only end in a value of the
form that its type asks for, if the checker has accepted no two types because of a capture. -/
theorem isValueOf_of_accepted {e r e' : Expr} {c c' : Int} {o : Checker.Options} {tr : Trace}
    {t : Ty} {s : Strategy} (hs : s = .callByName ∨ s = .callByValue)
    (hr : e.rename {} 1 = .ok r c) (ht : (e.typeOf o tr).1 = .ok t)
    (hcap : ∀ f, (e.typeOfBy Ty.conformExactly o tr).1 = .error f → ¬ f.Captured)
    (hrun : Run s (r, c) (e', c')) (hend : e'.step? s c' = none) : e'.isValueOf t := by
  have hweak : s.strong = false := by rcases hs with rfl | rfl <;> rfl
  obtain ⟨st, hok⟩ := (typeOfBy_ok hr).1 ht
  obtain ⟨place, hplace⟩ := exists_placed hr
  rcases inferNormal_agrees o r { supply := c, trace := tr } with heq | ⟨f, s', hf, hc⟩
  · rw [hok] at heq
    obtain ⟨hty, hn⟩ := inferNormal_sound Ty.alphaEq_of_conformExactly hplace heq
    exact (hrun.canonical hweak (closed_of_rename hr) hty hend).isValueOf hty.kinded hn
  · refine absurd hc (hcap (f.locate s'.loc) ?_)
    rw [typeOfBy_of_rename hr, hf]

/-- The proviso holds of the polymorphic identity with its type, applied to a type and a value. -/
theorem isValueOf_of_accepted_identity :
    let X : Ident := { name := ⟨"X", 0⟩ }
    let Y : Ident := { name := ⟨"Y", 0⟩ }
    let x : Ident := { name := ⟨"x", 0⟩ }
    let identity := ann (tlam X .star (lam x (.var X) (var x none) none) none)
      (.bind .all Y .star (.arrow (.var Y) (.var Y))) none
    let e := app (tapp identity .int none) (lit 5 none) none
    ∃ r c, e.rename {} 1 = .ok r c ∧ (e.typeOf {}).1 = .ok (.int .star) ∧
      ∀ e' c', Run .callByValue (r, c) (e', c') → e'.step? .callByValue c' = none →
        e'.isValueOf (.int .star) := by
  intro X Y x identity e
  have hty : (e.typeOf {}).1 = .ok (.int .star) := Run.toOption_eq_some.1 (by decide +kernel)
  have hexact : (e.typeOfBy Ty.conformExactly {}).1 = .ok (.int .star) :=
    Run.toOption_eq_some.1 (by decide +kernel)
  refine ⟨_, _, rfl, hty, fun e' c' hrun hend => ?_⟩
  refine isValueOf_of_accepted (.inr rfl) rfl hty (fun f hf => ?_) hrun hend
  rw [hexact] at hf
  cases hf

/-- Whether the text is a program that is accepted with type `Int` and whose runs under the weak
strategies end in `5 3`. It is read only once, for that takes the most of the evaluation. -/
def acceptedAndStuck (text : String) : Bool :=
  match Parser.ofChars (Parser.program Parser.maxDepth) none (Text.chars text) with
  | .error _ => false
  | .ok e =>
    match e.rename {} 1, (e.typeOf {}).1 with
    | .ok r c, .ok (.int .star) =>
      [Strategy.callByName, .callByValue].all fun s =>
        match r.reduce s 20 c with
        | ⟨.expr (app (lit 5 l) (lit 3 m) n), c', _⟩ =>
          ((app (lit 5 l) (lit 3 m) n).step? s c').isNone
        | _ => false
    | _, _ => false

theorem exists_run_of_acceptedAndStuck {text : String} (h : acceptedAndStuck text) :
    ∃ e r c, Expr.parse text = .ok e ∧ e.rename {} 1 = .ok r c ∧
      (e.typeOf {}).1 = .ok (.int .star) ∧
      ∀ s ∈ [Strategy.callByName, .callByValue], ∃ e' c', Run s (r, c) (e', c') ∧
        e'.step? s c' = none ∧ (∃ l m n, e' = app (lit 5 l) (lit 3 m) n) := by
  unfold acceptedAndStuck at h
  rw [← Parser.run_eq_ofChars] at h
  split at h
  · cases h
  · rename_i e he
    split at h
    · rename_i r c hr ht
      refine ⟨e, r, c, he, hr, ht, fun s hs => ?_⟩
      have hs' := List.all_eq_true.1 h s hs
      split at hs'
      · rename_i l m n c' hist hred
        exact ⟨_, c', run_of_reduceFrom hred, Option.isNone_iff_eq_none.1 hs', l, m, n, rfl⟩
      · cases hs'
    · cases h

/-- The type `F (F Int)` has two binders of one name, one inside the other, so that the checker
takes the type of `r` for it. -/
def capturing : String :=
  "type F: * -> * = λT: *. ∀Y: *. T -> Y -> Y in " ++
  "let r: ∀X: *. (∀Z: *. Int -> Z -> X) -> X -> X = " ++
  "λX: *. λg: ∀Z: *. Int -> Z -> X. λx: X. g [Int] 0 5 in " ++
  "(r : F (F Int)) [Int -> Int] (λY: *. λi: Int. λy: Y. y) (λn: Int. n) 3"

/-- Because of a capture, a program of type `Int` is accepted whose runs end in `5 3`. -/
theorem accepted_run_stuck :
    ∃ e r c, Expr.parse capturing = .ok e ∧ e.rename {} 1 = .ok r c ∧
      (e.typeOf {}).1 = .ok (.int .star) ∧
      ∀ s ∈ [Strategy.callByName, .callByValue], ∃ e' c', Run s (r, c) (e', c') ∧
        e'.step? s c' = none ∧ (∃ l m n, e' = app (lit 5 l) (lit 3 m) n) :=
  exists_run_of_acceptedAndStuck (by decide +kernel)

end Expr

end SystemFOmega
