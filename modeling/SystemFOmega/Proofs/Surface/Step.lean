import SystemFOmega.Surface.Reduce

/-!
# What a step does

A step of a strategy contracts one redex (`Expr.Contractum`) at a position to which the strategy
goes. This is said once for all forms of expressions (`Expr.reduces_of_step?`), and what steps keep
is shown by induction on it. Whether an expression has a step is said form by form
(`Expr.step?_app_eq_none` and the lemmas beside it).
-/

namespace SystemFOmega.Expr

/-! ## Redexes and positions -/

/-- Whether the expression abstracts over a value. -/
def isLam : Expr → Bool
  | .lam _ _ _ _ => true
  | _ => false

/-- Whether the expression abstracts over a type. -/
def isTLam : Expr → Bool
  | .tlam _ _ _ _ => true
  | _ => false

/-- The expressions that can be contracted as a whole. -/
def isRedex : Expr → Bool
  | .ann _ _ _ | .letIn _ _ _ _ | .typeIn _ _ _ _ | .kindIn _ _ _ _ => true
  | .app f _ _ => f.isLam
  | .tapp f _ _ => f.isTLam
  | .lit _ _ | .var _ _ | .lam _ _ _ _ | .tlam _ _ _ _ => false

/-- An expression is contracted by a replacement in a body. -/
inductive Redex : Expr → Replacement → Expr → Prop
  | beta (x : Ident) (t : TypeExpr) (body a : Expr) (l m : Option Location) :
    Redex (.app (.lam x t body l) a m) (.expr x.name a) body
  | typeBeta (x : Ident) (k : KindExpr) (body : Expr) (t : TypeExpr) (l m : Option Location) :
    Redex (.tapp (.tlam x k body l) t m) (.type x.name t) body
  | letIn (x : Ident) (v body : Expr) (l : Option Location) :
    Redex (.letIn x v body l) (.expr x.name v) body
  | typeIn (x : Ident) (v : TypeExpr) (body : Expr) (l : Option Location) :
    Redex (.typeIn x v body l) (.type x.name v) body
  | kindIn (x : Ident) (v : KindExpr) (body : Expr) (l : Option Location) :
    Redex (.kindIn x v body l) (.kind x.name v) body

/-- What a redex is contracted to, from one counter to another. -/
inductive Contractum (c : Int) : Expr → Expr → Int → Prop
  | erase (e : Expr) (t : TypeExpr) (l : Option Location) : Contractum c (.ann e t l) e c
  | replace {r body : Expr} {σ : Replacement} (h : Redex r σ body) :
    Contractum c r (body.replace σ c).1 (body.replace σ c).2

/-- An expression with a hole for one of the expressions that it is made of. -/
inductive Frame where
  | lam (x : Ident) (t : TypeExpr) (l : Option Location)
  | fn (a : Expr) (l : Option Location)
  | arg (f : Expr) (l : Option Location)
  | tlam (x : Ident) (k : KindExpr) (l : Option Location)
  | tfn (t : TypeExpr) (l : Option Location)
  | ann (t : TypeExpr) (l : Option Location)
  | value (x : Ident) (body : Expr) (l : Option Location)
  | body (x : Ident) (v : Expr) (l : Option Location)
  | typeBody (x : Ident) (v : TypeExpr) (l : Option Location)
  | kindBody (x : Ident) (v : KindExpr) (l : Option Location)

/-- Puts an expression into the hole of the frame. -/
def Frame.plug (e : Expr) : Frame → Expr
  | lam x t l => .lam x t e l
  | fn a l => .app e a l
  | arg f l => .app f e l
  | tlam x k l => .tlam x k e l
  | tfn t l => .tapp e t l
  | ann t l => .ann e t l
  | value x b l => .letIn x e b l
  | body x v l => .letIn x v e l
  | typeBody x v l => .typeIn x v e l
  | kindBody x v l => .kindIn x v e l

/-- Whether a strategy goes into the hole of a frame. -/
def Frame.enteredBy (s : Strategy) : Frame → Bool
  | fn _ _ | tfn _ _ => true
  | arg _ _ => s.eager || s.strong
  | lam _ _ _ | tlam _ _ _ => s.strong
  | value _ _ _ => s.eager
  | ann _ _ | body _ _ _ | typeBody _ _ _ | kindBody _ _ _ => false

/-- Contracts a redex at a position to which the strategy `s` goes, from one counter to another. -/
inductive Reduces (s : Strategy) (c : Int) : Expr → Expr → Int → Prop
  | root {r r' : Expr} {c' : Int} : Contractum c r r' c' → Reduces s c r r' c'
  | within {F : Frame} (hF : F.enteredBy s) {e e' : Expr} {c' : Int} : Reduces s c e e' c' →
    Reduces s c (F.plug e) (F.plug e') c'

section

variable {s : Strategy} {e e' f a : Expr} {t : TypeExpr} {l : Option Location} {c c' : Int}

/-! ## Steps -/

theorem Redex.reduces {body : Expr} {σ : Replacement} (h : Redex e σ body)
    (he' : some (body.replace σ c) = some (e', c')) : Reduces s c e e' c' := by
  have hr := Contractum.replace (c := c) h
  rw [Option.some.inj he'] at hr
  exact .root hr

theorem reduces_of_beta? (h : f.beta? a c = some (e', c')) : Reduces s c (.app f a l) e' c' := by
  cases f with
  | lam x t body m => exact (Redex.beta x t body a m l).reduces h
  | _ => cases h

theorem reduces_of_typeBeta? (h : f.typeBeta? t c = some (e', c')) :
    Reduces s c (.tapp f t l) e' c' := by
  cases f with
  | tlam x k body m => exact (Redex.typeBeta x k body t m l).reduces h
  | _ => cases h

/-- A step in the hole of a frame. -/
theorem reduces_of_map {F : Frame} (hF : F.enteredBy s) {o : Option (Expr × Int)}
    (ih : ∀ {e' c'}, o = some (e', c') → Reduces s c e e' c')
    (h : (o.map fun r => (F.plug r.1, r.2)) = some (e', c')) : Reduces s c (F.plug e) e' c' := by
  obtain ⟨r, hr, he⟩ := Option.map_eq_some_iff.1 h
  cases he
  exact .within hF (ih hr)

/-- Each step that is computed is one of the strategy. -/
theorem reduces_of_step? (h : e.step? s c = some (e', c')) : Reduces s c e e' c' := by
  induction e generalizing e' c' with
  | lit | var => cases h
  | ann e t l =>
    cases h
    exact .root (.erase _ t l)
  | lam x t e l ih =>
    rw [step?] at h
    split at h
    case isTrue hs => exact reduces_of_map (F := .lam x t l) hs ih h
    case isFalse => cases h
  | tlam x k e l ih =>
    rw [step?] at h
    split at h
    case isTrue hs => exact reduces_of_map (F := .tlam x k l) hs ih h
    case isFalse => cases h
  | letIn x v e l hv _ =>
    simp only [step?, Option.orElse_eq_orElse, Option.orElse_eq_or, Option.or_eq_some_iff] at h
    rcases h with h | ⟨-, h⟩
    · split at h
      case isTrue hs => exact reduces_of_map (F := .value x e l) hs hv h
      case isFalse => cases h
    · exact (Redex.letIn x v e l).reduces h
  | typeIn x v e l => exact (Redex.typeIn x v e l).reduces h
  | kindIn x v e l => exact (Redex.kindIn x v e l).reduces h
  | app f a l hf ha =>
    simp only [step?, Option.orElse_eq_orElse, Option.orElse_eq_or, Option.or_eq_some_iff] at h
    -- the redex at the root comes first or last, by the strategy
    rcases h with h | ⟨-, h | ⟨-, h | ⟨-, h⟩⟩⟩
    · split at h
      · cases h
      · exact reduces_of_beta? h
    · exact reduces_of_map (F := .fn a l) rfl hf h
    · split at h
      case isTrue hs => exact reduces_of_map (F := .arg f l) hs ha h
      case isFalse => cases h
    · exact reduces_of_beta? h
  | tapp f t l hf =>
    simp only [step?, Option.orElse_eq_orElse, Option.orElse_eq_or, Option.or_eq_some_iff] at h
    rcases h with h | ⟨-, h | ⟨-, h⟩⟩
    · split at h
      · cases h
      · exact reduces_of_typeBeta? h
    · exact reduces_of_map (F := .tfn t l) rfl hf h
    · exact reduces_of_typeBeta? h

/-! ## Forms without a step -/

theorem beta?_eq_none_iff : f.beta? a c = none ↔ f.isLam = false := by
  cases f <;> simp [beta?, isLam]

theorem typeBeta?_eq_none_iff : f.typeBeta? t c = none ↔ f.isTLam = false := by
  cases f <;> simp [typeBeta?, isTLam]

/-- A function takes a step only if the strategy goes below binders and its body takes one. -/
theorem step?_lam_eq_none {x : Ident} :
    (lam x t e l).step? s c = none ↔ (s.strong → e.step? s c = none) := by
  simp [step?]

theorem step?_tlam_eq_none {x : Ident} {k : KindExpr} :
    (tlam x k e l).step? s c = none ↔ (s.strong → e.step? s c = none) := by
  simp [step?]

/-- When an application takes no step. -/
theorem step?_app_eq_none : (app f a l).step? s c = none ↔
    f.isLam = false ∧ f.step? s c = none ∧ (s.eager ∨ s.strong → a.step? s c = none) := by
  simp only [step?, Option.orElse_eq_orElse, Option.orElse_eq_or, Option.or_eq_none_iff,
    Option.map_eq_none_iff, ite_eq_left_iff, ite_eq_right_iff, beta?_eq_none_iff, Bool.or_eq_true]
  grind

/-- When a type application takes no step. -/
theorem step?_tapp_eq_none :
    (tapp f t l).step? s c = none ↔ f.isTLam = false ∧ f.step? s c = none := by
  simp only [step?, Option.orElse_eq_orElse, Option.orElse_eq_or, Option.or_eq_none_iff,
    Option.map_eq_none_iff, ite_eq_left_iff, typeBeta?_eq_none_iff]
  grind

/-- Every strategy takes a step from a redex, there or in a part of it. -/
theorem isRedex_of_step?_eq_none (h : e.step? s c = none) : e.isRedex = false := by
  cases e with
  | lit | var | lam | tlam => rfl
  | ann | typeIn | kindIn => cases h
  | letIn => simp [step?, Option.orElse_eq_orElse, Option.orElse_eq_or] at h
  | app => exact (step?_app_eq_none.1 h).1
  | tapp => exact (step?_tapp_eq_none.1 h).1

end

end SystemFOmega.Expr
