import SystemFOmega.Proofs.Checker.Sound
import SystemFOmega.Proofs.Surface.Closed
import SystemFOmega.Proofs.Surface.Parser
import SystemFOmega.Proofs.Surface.Rename

/-!
# The checker is complete

Without a bound on the fuel, the checker accepts every expression whose expansion has a type, if
normalization may nest deep enough, and what it infers is convertible to that type
(`Expr.typeOf_complete`). Types may be compared by any relation that accepts alpha-equivalent ones.
Each way to fail is ruled out by the inversion of a typing rule
(`Checker.Discipline.complete_blame`).
-/

namespace SystemFOmega

open Run
open Nameless (Kinded Conv)
open Term (HasType)

/-- The options `o` with another bound for the depth of normalization. -/
def Checker.Options.deep (o : Checker.Options) (d : Nat) : Checker.Options := { o with depth := d }

/-! ## Normal forms that are convertible -/

section

variable {S : Telescope}

theorem Ty.alphaEq_of_conv {t u : Ty} (h : Conv (t.within S) (u.within S))
    (ht : Nameless.Normal t.nameless) (hu : Nameless.Normal u.nameless) : t.AlphaEq u :=
  Nameless.rename_injective S.ref_injective ((ht.rename S.ref).eq_of_conv (hu.rename S.ref) h)

theorem Ty.exists_arrow_of_conv {t : Ty} {s u : Nameless} (ht : Nameless.Normal t.nameless)
    (h : Conv (t.within S) (.arrow s u)) :
    ∃ t₁ t₂ k, t = .arrow t₁ t₂ k ∧ Conv (t₁.within S) s ∧ Conv (t₂.within S) u := by
  obtain ⟨s', u', he, -, -⟩ := ((ht.rename S.ref).steps_of_conv h.symm).arrow_inv
  cases t with
  | arrow t₁ t₂ k => exact ⟨t₁, t₂, k, rfl, h.arrow_inj⟩
  | _ => cases he

theorem Ty.exists_bind_of_conv {t : Ty} {b : Binder} {k : Kind} {u : Nameless} (j : KindExpr)
    (ht : Nameless.Normal t.nameless) (h : Conv (t.within S) (.bind b k u)) :
    ∃ x t' l, t = .bind b x k t' l ∧ Conv (t'.within (.typeVar x j :: S)) u := by
  obtain ⟨u', he, -⟩ := ((ht.rename S.ref).steps_of_conv h.symm).bind_inv
  cases t with
  | bind b' x k' t' l =>
    rw [Ty.within_bind _ _ _ _ _ _ j] at h
    obtain ⟨rfl, rfl, hu⟩ := h.bind_inj
    exact ⟨x, t', l, rfl, hu⟩
  | _ => cases he

end

section

variable {place : Name → Telescope} {same : Checker.Comparison} {o : Checker.Options}

/-! ## Completeness -/

namespace Checker.Discipline

/-- Only expressions whose expansion has a type are looked at, compared only with types that they
have, and the checker does not fail. -/
def complete : Discipline where
  Fit S e := ∃ u, HasType S.kinds S.types (e.expand S.env) u
  OfExpr S e t := t.OfExpr S e
  Expected S e t := t.OfExpr S e
  Stands S u k t := t.Stands S u k
  Fault _ := False

/-- What is looked at on the way has a type as well. -/
theorem complete_visit {S S' : Telescope} {e e' : Expr} (h : complete.At place S e)
    (hv : e.Visits S S' e') : complete.Fit S' e' := by
  obtain ⟨u, hu⟩ := h.fit
  cases hv with
  | value l hsuf => exact h.scope.hasType_of_exprDef hsuf hu
  | ann => exact ⟨_, hu.ann_inv.1⟩
  | letIn | typeIn | kindIn => exact ⟨u, hu⟩
  | lam =>
    obtain ⟨-, u', hu', -⟩ := hu.lam_inv
    exact ⟨u', hu'⟩
  | function =>
    obtain ⟨_, _, hf, -⟩ := hu.app_inv
    exact ⟨_, hf⟩
  | argument =>
    obtain ⟨_, _, -, ha, -⟩ := hu.app_inv
    exact ⟨_, ha⟩
  | tlam =>
    obtain ⟨u', hu', -⟩ := hu.tlam_inv
    exact ⟨u', hu'⟩
  | operator =>
    obtain ⟨_, _, hf, -⟩ := hu.tapp_inv
    exact ⟨_, hf⟩

theorem complete_typing : complete.Typing place same o.deep where
  cache _ := rfl
  visit h hv := complete_visit h hv
  core h hu hcore := (hu.placed h.placed).stands h.scope hcore
  ofExpr_normal h hn := h.normalizes hn.normalizes
  ofExpr_of_normal h _ _ := h
  expected_normal h hn := h.normalizes hn.normalizes
  stands_normal h hn := h.normalizes hn.normalizes
  lit _ m _ := .lit m
  exprVar l hS hx ht := hS.exprVar_ofExpr l hx ht
  exprDef l hS hx ht := hS.exprDef_ofExpr l hx ht
  letIn h := h
  typeIn h := h
  kindIn h := h
  ann_expected h ht := by
    obtain ⟨_, hu⟩ := h.fit
    exact hu.ann_inv.1.conv ht.conv.symm ht.kinded
  ann ht h := .ann ht h
  lam ht h := .lam ht h
  app_expected h hft := by
    obtain ⟨_, hu⟩ := h.fit
    obtain ⟨_, _, hf, ha, -⟩ := hu.app_inv
    -- `f` has another arrow type by the declarative rules, with a convertible domain
    have hconv := (HasType.unique hft hf).arrow_inj.1
    exact ha.conv hconv.symm hft.kinded.arrow_inv.1
  app hf ha := .app hf ha
  tlam _ h := .tlam h
  tapp c hf ha := .tapp c hf ha
  tlam_expected {S e l y j x k t} c h ht := by
    have hx := h.scope.not_mem h.placed.2.1
    have hk := Ty.kinded_rebind (j := k.expand S.env) hx ht.kinded c
    obtain ⟨u, hu, hc⟩ := HasType.tlam_inv ht
    rw [Ty.within_bind _ _ _ _ _ _ k] at hc
    refine hu.conv ?_ hk
    rw [Ty.within_rebind hx ht.kinded]
    exact hc.bind_inj.2.2
  tlam_accepted _ _ ht _ := ht
  lam_agreed ht _ _ := by
    obtain ⟨hu, _, -, hc⟩ := HasType.lam_inv ht
    exact ⟨hc.arrow_inj.1.symm, ht.kinded.arrow_inv.1, hu⟩
  lam_expected _ ht := by
    obtain ⟨-, _, hu, hc⟩ := HasType.lam_inv ht
    exact hu.conv hc.arrow_inj.2 ht.kinded.arrow_inv.2
  lam_accepted ht _ _ := ht
  accepted _ ht _ := ht

/-- Without a bound on the fuel, a type with a kind has a normal form. -/
theorem complete_halts (ho : o.fuel = none) {S : Telescope} {t : Ty} {k : Kind}
    (hk : Kinded S.kinds (t.within S) k) : complete.Halts o.deep t := by
  intro s
  have hk' : Kinded (S.kinds ∘ S.ref) t.nameless k := hk.of_rename fun _ => rfl
  obtain ⟨d, t', n, hn⟩ := Ty.normalize_ends o.order s.supply hk'
  have hdeep (e : Nat) (he : d ≤ e) :
      Check.normalize (o.deep e) t s = .ok t' { s with supply := n.supply } := by
    unfold Check.normalize Checker.Options.deep
    rw [ho, Ty.normalize_mono he hn]
  exact .ok d hdeep trivial

theorem complete_blame (ho : o.fuel = none)
    (hsame : ∀ {t u : Ty}, t.AlphaEq u → same t u = .ok ()) :
    complete.Blame place same o.deep where
  ofExpr_halts h := complete_halts ho h.kinded
  expected_halts h := complete_halts ho h.kinded
  stands_halts h := complete_halts ho h.kinded
  ann h hc := by
    obtain ⟨_, hu⟩ := h.fit
    exact (h.placed.2.decided h.scope).coreOf_error hc hu.ann_inv.1.kinded
  lam h hc := by
    obtain ⟨_, hu⟩ := h.fit
    exact (h.placed.1.decided h.scope).coreOf_error hc hu.lam_inv.1
  tapp {S f u l x k j t c} h hft hc := by
    obtain ⟨_, hu⟩ := h.fit
    obtain ⟨_, _, hf, hk, -⟩ := hu.tapp_inv
    have hconv := HasType.unique hft hf
    rw [Ty.within_bind _ _ _ _ _ _ .star] at hconv
    obtain ⟨-, rfl, -⟩ := hconv.bind_inj
    exact (h.placed.2.decided h.scope).coreOf_error hc hk
  notArrow h hft hn hne := by
    obtain ⟨_, hu⟩ := h.fit
    obtain ⟨_, _, hf, -⟩ := hu.app_inv
    obtain ⟨_, _, _, heq, -⟩ := Ty.exists_arrow_of_conv hn.normalizes.normal (HasType.unique hft hf)
    exact hne _ _ _ heq
  notForall h hft hn hne := by
    obtain ⟨_, hu⟩ := h.fit
    obtain ⟨_, _, hf, -⟩ := hu.tapp_inv
    obtain ⟨_, _, _, heq, -⟩ :=
      Ty.exists_bind_of_conv .star hn.normalizes.normal (HasType.unique hft hf)
    exact hne _ _ _ _ heq
  clash {S x e l y yk j t c k} ht hc := by
    obtain ⟨_, -, hconv⟩ := HasType.tlam_inv ht
    rw [Ty.within_bind _ _ _ _ _ _ k] at hconv
    cases (Kind.conform_ok_iff.2 hconv.bind_inj.2.1).symm.trans hc
  parameter ht hs hst hn hc := by
    obtain ⟨-, _, -, hconv⟩ := HasType.lam_inv ht
    have heq := Ty.alphaEq_of_conv (hst.conv.trans hconv.arrow_inj.1) hn.normalizes.normal
      (Nameless.Normal.arrow_left hs.normalizes.normal)
    cases (hsame heq).symm.trans hc
  mismatch ht hs h hn hc := by
    -- both are normal forms of one type, so that they are equal up to bound names
    have heq := Ty.alphaEq_of_conv (HasType.unique h ht) hn.normalizes.normal hs.normalizes.normal
    cases (hsame heq).symm.trans hc

end Checker.Discipline

/-! ## Whole programs -/

namespace Expr

/-- If the expansion of a closed program has a type, then the checker gives its normal form. -/
theorem inferNormal_complete (ho : o.fuel = none)
    (hsame : ∀ {t u : Ty}, t.AlphaEq u → same t u = .ok ()) {r : Expr} {u : Nameless}
    (hr : r.Placed place []) (h : HasType Kinds.empty Types.empty (r.expand Env.empty) u) (c : Int)
    (tr : Trace) :
    ∃ t s d, Conv t.nameless u ∧
      ∀ d', d ≤ d' → r.inferNormal same (o.deep d') { supply := c, trace := tr } = .ok t s := by
  have hD : Checker.Discipline.complete.Typing place same o.deep :=
    Checker.Discipline.complete_typing
  have hruns := hD.inferNormal (Checker.Discipline.complete_blame ho hsame)
    ⟨trivial, hr, u, h⟩ c tr
  obtain ⟨t, s, d, ⟨ht, -⟩, hrun⟩ := hruns.exists_ok fun _ => id
  have hconv := HasType.unique ht h
  rw [Ty.within_nil] at hconv
  exact ⟨t, s, d, hconv, hrun⟩

/-- Renaming a closed program that has been read keeps its expansion. -/
theorem exists_rename {text : String} {file : Option String} {depth : Nat} {e : Expr}
    (hp : Expr.parse text file depth = .ok e) (hc : e.Closed) :
    ∃ r c, e.rename {} 1 = .ok r c ∧ r.expand Env.empty = e.expand Env.empty := by
  have hfinds (l : Level) : Scope.Finds {} l (e.free l) := by
    rw [hc l]
    exact fun _ h => by cases h
  obtain ⟨r, c, hr, -, hexp⟩ :=
    (rename_expand (parse_plain hp) hfinds (.nil 1 Env.empty Env.empty)).exists_ok id
  exact ⟨r, c, hr, hexp⟩

/-- Take a closed program that has been read. If its expansion has a type, then the checker without
a bound on the fuel accepts it and gives a type that is convertible to that one, whatever the order
of normalization, if normalization may nest deep enough. -/
theorem typeOf_complete {text : String} {file : Option String} {depth : Nat} {e : Expr}
    {u : Nameless} {o : Checker.Options} {tr : Trace} (hp : Expr.parse text file depth = .ok e)
    (hc : e.Closed) (ho : o.fuel = none)
    (h : HasType Kinds.empty Types.empty (e.expand Env.empty) u) :
    ∃ d₀ t, Conv t.nameless u ∧ ∀ d, d₀ ≤ d → (e.typeOf (o.deep d) tr).1 = .ok t := by
  obtain ⟨r, c, hr, hexp⟩ := exists_rename hp hc
  obtain ⟨place, hplace⟩ := exists_placed hr
  rw [← hexp] at h
  obtain ⟨t, s, d₀, hconv, hrun⟩ := inferNormal_complete ho Ty.AlphaEq.conform hplace h c tr
  exact ⟨d₀, t, hconv, fun d hd => (typeOfBy_ok hr).2 ⟨s, hrun d hd⟩⟩

/-- The polymorphic identity at an alias for `Int`. -/
theorem typeOf_complete_identity :
    ∃ e, Expr.parse "type I: * = Int in (λX: *. λx: X. x) [I]" = .ok e ∧ e.Closed ∧
      HasType Kinds.empty Types.empty (e.expand Env.empty) (.arrow .int .int) ∧
      ∃ d₀ t, Conv t.nameless (.arrow .int .int) ∧
        ∀ d, d₀ ≤ d → (e.typeOf { fuel := none, order := .applicative, depth := d }).1 = .ok t := by
  let place (c : Nat) : Option Location := some ⟨1, c, none⟩
  let word (v : String) (c : Nat) : Ident := ⟨⟨v, 0⟩, place c⟩
  let identity := tlam (word "X" 22) .star
    (lam (word "x" 29) (.var (word "X" 32)) (var (word "x" 35) (place 35)) (place 28)) (place 21)
  let e := typeIn (word "I" 6) (.kinded .int .star)
    (tapp identity (.var (word "I" 39)) (place 21)) (place 1)
  have hparse : Expr.parse "type I: * = Int in (λX: *. λx: X. x) [I]" = .ok e := by
    have h : (match Expr.parse "type I: * = Int in (λX: *. λx: X. x) [I]" with
        | .ok e' => decide (e' = e)
        | .error _ => false) = true := by decide +kernel
    split at h
    · rename_i hp
      rw [hp, of_decide_eq_true h]
    · cases h
  have hclosed : e.Closed := fun l => by cases l <;> rfl
  have hexpand : e.expand Env.empty = .tapp (.tlam .star (.lam (.var (.bound 0)) (.var (.bound 0))))
      (Nameless.int.ascribe .star) := by rfl
  have hint : Conv (Nameless.int.ascribe .star) .int := Nameless.ascribe_conv _ _
  have htype : HasType Kinds.empty Types.empty (e.expand Env.empty) (.arrow .int .int) := by
    rw [hexpand]
    have hid : HasType Kinds.empty Types.empty
        (.tlam .star (.lam (.var (.bound 0)) (.var (.bound 0))))
        (.bind .all .star (.arrow (.var (.bound 0)) (.var (.bound 0)))) :=
      .tlam (.lam (.var rfl) (.var rfl (.var rfl)))
    have happ := hid.tapp (Nameless.kinded_ascribe_iff.2 ⟨rfl, .int⟩)
    exact happ.conv (hint.arrow hint) (.arrow .int .int)
  exact ⟨e, hparse, hclosed, htype, typeOf_complete (o := { fuel := none, order := .applicative })
    hparse hclosed rfl htype⟩

end Expr

end

end SystemFOmega
