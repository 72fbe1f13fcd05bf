import SystemFOmega.Proofs.Checker.Sound
import SystemFOmega.Proofs.Surface.Wording

/-!
# The names of inferred types

The checker makes no display names: where it needs a fresh name, it takes the display name of a
binder. So if the names of a program are words, then the names of its type are (`Ty.Legible`,
`Expr.inferNormal_legible`).

Substitution and normalization keep the names of types legible. A surface type has a legible core
type if it is legible itself and the definitions in scope are (`TypeExpr.core_legible`).
Legible types are then a discipline of the checker (`Checker.Discipline.legible`).
-/

namespace SystemFOmega

open Run
open Token (Spells)

namespace Ty

/-- The names of the type are words. -/
def Legible : Ty → Prop
  | .int _ => True
  | .var x _ => Spells .upperName x.value
  | .arrow s t _ | .app s t _ => s.Legible ∧ t.Legible
  | .bind _ x _ t _ => Spells .upperName x.value ∧ t.Legible

namespace Legible

variable {t u r a : Ty} {x y : Name} {j k : Kind} {s s' : Normalizer}

theorem withKind (h : t.Legible) (k : Kind) : (t.withKind k).Legible := by cases t <;> exact h

theorem rename (h : t.Legible) (hy : Spells .upperName y.value) : (t.rename x y k).Legible := by
  induction t with
  | int l => trivial
  | var z l =>
    rw [Ty.rename]
    split
    · exact hy
    · exact h
  | arrow s t l hs ht | app s t l hs ht => exact ⟨hs h.1, ht h.2⟩
  | bind b z zk t l ht =>
    rw [Ty.rename]
    split
    · exact h
    · exact ⟨h.1, ht h.2⟩

/-- Substitution names bound variables after legible ones. -/
theorem subst (h : t.Legible) (hr : r.Legible) (c : Int) : (t.subst x r c).1.Legible := by
  fun_induction Ty.subst t x r c with
  | case1 | case4 => exact h
  | case2 c y l =>
    dsimp only
    split
    · exact hr
    · exact h
  | case3 c s t l s' t' hs ht | case7 c s t l s' t' hs ht => exact ⟨hs h.1, ht h.2⟩
  | case5 c b y yk body l hyx hcap n z body' ih => exact ⟨h.1, ih (h.2.rename h.1)⟩
  | case6 c b y yk body l hyx hcap body' ih => exact ⟨h.1, ih h.2⟩

theorem contract (ht : t.Legible) (ha : a.Legible) (h : Ty.contract x t a k s = .ok u s') :
    u.Legible := by
  obtain ⟨_, s₁, -, h⟩ := Run.bind_ok.1 h
  obtain ⟨rfl, -⟩ := EStateM.Result.ok.inj h
  exact (ht.subst ha _).withKind k

theorem weakHead {d : Nat} (ht : t.Legible) (h : Ty.weakHead d t s = .ok u s') : u.Legible := by
  induction d generalizing t u s s' with
  | zero =>
    cases t with
    | app f a l => exact absurd h Run.throw_ok
    | _ =>
      obtain ⟨rfl, -⟩ := Run.pure_ok.1 h
      exact ht
  | succ d ih =>
    cases t with
    | app f a l =>
      obtain ⟨_, s₁, -, h⟩ := Run.bind_ok.1 h
      obtain ⟨f', s₂, hf', h⟩ := Run.bind_ok.1 h
      have hf := ih ht.1 hf'
      split at h
      · obtain ⟨r, s₃, hr, h⟩ := Run.bind_ok.1 h
        exact ih (hf.2.contract ht.2 hr) h
      · obtain ⟨rfl, -⟩ := Run.pure_ok.1 h
        exact ⟨hf, ht.2⟩
    | _ =>
      obtain ⟨rfl, -⟩ := Run.pure_ok.1 h
      exact ht

theorem visit {go : Ty → Normalize Ty}
    (hgo : ∀ {t u s s'}, t.Legible → go t s = .ok u s' → u.Legible) (ht : t.Legible)
    (h : Ty.visit go t s = .ok u s') : u.Legible := by
  cases t with
  | int k | var x k =>
    obtain ⟨rfl, -⟩ := Run.pure_ok.1 h
    exact ht
  | arrow v w k =>
    obtain ⟨v', s₁, hv', h⟩ := Run.bind_ok.1 h
    obtain ⟨w', s₂, hw', h⟩ := Run.bind_ok.1 h
    obtain ⟨rfl, -⟩ := Run.pure_ok.1 h
    exact ⟨hgo ht.1 hv', hgo ht.2 hw'⟩
  | bind b x xk v k =>
    obtain ⟨v', s₁, hv', h⟩ := Run.bind_ok.1 h
    obtain ⟨rfl, -⟩ := Run.pure_ok.1 h
    exact ⟨ht.1, hgo ht.2 hv'⟩
  | app f a k =>
    obtain ⟨f', s₁, hf', h⟩ := Run.bind_ok.1 h
    obtain ⟨a', s₂, ha', h⟩ := Run.bind_ok.1 h
    have hf := hgo ht.1 hf'
    have ha := hgo ht.2 ha'
    split at h
    · obtain ⟨r, s₃, hr, h⟩ := Run.bind_ok.1 h
      exact hgo (hf.2.contract ha hr) h
    · obtain ⟨rfl, -⟩ := Run.pure_ok.1 h
      exact ⟨hf, ha⟩

/-- Normal forms of legible types are legible. -/
theorem normalizeFrom {o : Order} {d : Nat} (ht : t.Legible)
    (h : Ty.normalizeFrom o d t s = .ok u s') : u.Legible := by
  induction d generalizing t u s s' with
  | zero => exact absurd h Run.throw_ok
  | succ d ih =>
    obtain ⟨_, s₁, -, h⟩ := Run.bind_ok.1 h
    cases o with
    | normal =>
      obtain ⟨v, s₂, hv, h⟩ := Run.bind_ok.1 h
      exact visit ih (ht.weakHead hv) h
    | applicative =>
      obtain ⟨v, s₂, hv, h⟩ := Run.bind_ok.1 h
      obtain ⟨rfl, -⟩ := Run.pure_ok.1 hv
      exact visit ih ht h

theorem hasNormal {o : Nat → Checker.Options} (ht : t.Legible) (h : t.HasNormal o u) :
    u.Legible := by
  obtain ⟨_, c, n, h⟩ := h
  exact ht.normalizeFrom h

end Legible

end Ty

/-! ## Elaboration -/

/-- The names and phrases of a declaration that may get into a type are legible. -/
def Decl.Legible (lets : Prop) : Decl → Prop
  | .exprDef _ e => e.phrase.Legible lets
  | .typeDef _ u => u.phrase.Legible lets
  | .typeVar x _ => Spells .upperName x.value
  | .exprVar _ _ | .kindDef _ _ => True

section

variable {lets : Prop} {place : Name → Telescope} {S : Telescope} {same : Checker.Comparison}
  {o : Checker.Options}

/-- The type that a legible phrase denotes is legible. -/
theorem TypeExpr.core_legible {ρ : Env} {σ : Name → Except Failure.Cause Ty} {u : TypeExpr} {t : Ty}
    (hu : u.phrase.Legible lets) (hσ : ∀ x t, σ x = .ok t → t.Legible)
    (h : u.core ρ σ = .ok t) : t.Legible := by
  induction u generalizing ρ σ t with
  | int =>
    obtain rfl := Except.ok.inj h
    trivial
  | var x => exact hσ x.name t h
  | arrow s t ihs iht =>
    obtain ⟨s', hs, -, h⟩ := Ty.requireKind_bind_ok.1 h
    obtain ⟨t', ht, -, h⟩ := Ty.requireKind_bind_ok.1 h
    obtain rfl := Except.ok.inj h
    exact ⟨ihs hu.1 hσ hs, iht hu.2 hσ ht⟩
  | bind b x k t ih =>
    obtain ⟨hx, -, -, hbody⟩ := hu
    have hσ' : ∀ y t, Function.update σ x.name (.ok (.var x.name (k.expand ρ))) y = .ok t →
        t.Legible := by
      intro y t ht
      by_cases hy : y = x.name
      · rw [hy, Function.update_self] at ht
        obtain rfl := Except.ok.inj ht
        exact hx
      · rw [Function.update_of_ne hy] at ht
        exact hσ y t ht
    cases b with
    | all =>
      obtain ⟨t', ht, -, h⟩ := Ty.requireKind_bind_ok.1 h
      obtain rfl := Except.ok.inj h
      exact ⟨hx, ih hbody hσ' ht⟩
    | lam =>
      obtain ⟨t', ht, h⟩ := Run.except_bind_ok.1 h
      obtain rfl := Except.ok.inj h
      exact ⟨hx, ih hbody hσ' ht⟩
  | app f a ihf iha =>
    obtain ⟨f', hf, h⟩ := Run.except_bind_ok.1 h
    split at h
    · cases h
    · obtain ⟨a', ha, -, h⟩ := Ty.requireKind_bind_ok.1 h
      obtain rfl := Except.ok.inj h
      exact ⟨ihf hu.1 hσ hf, iha hu.2 hσ ha⟩
  | kinded t k ih =>
    obtain ⟨t', ht, h⟩ := Run.except_bind_ok.1 h
    obtain ⟨-, rfl⟩ := Ty.requireKind_ok.1 h
    exact ih hu.1 hσ ht

theorem Telescope.cores_legible (hS : ∀ d ∈ S, d.Legible lets) :
    ∀ x t, S.cores x = .ok t → t.Legible := by
  induction S with
  | nil => exact fun x t h => by cases h
  | cons d S ih =>
    obtain ⟨hd, htail⟩ := List.forall_mem_cons.1 hS
    intro x t h
    by_cases hx : x = d.name
    · subst hx
      cases d with
      | typeVar y k =>
        rw [cores, Decl.name, Function.update_self] at h
        obtain rfl := Except.ok.inj h
        exact hd
      | typeDef y u =>
        rw [cores, Decl.name, Function.update_self] at h
        exact TypeExpr.core_legible hd (ih htail) h
      | _ => exact ih htail _ t h
    · rw [cores_cons_of_ne hx] at h
      exact ih htail x t h

/-! ## Inference and comparison -/

namespace Checker.Discipline

/-- Only legible expressions are looked at, and the names of all types are words. -/
def legible (lets : Prop) : Discipline where
  Fit S e := (∀ d ∈ S, d.Legible lets) ∧ e.phrase.Legible lets
  OfExpr _ _ t := t.Legible
  Expected _ _ t := t.Legible
  Stands _ _ _ t := t.Legible
  Fault _ := True

theorem legible_visit {S S' : Telescope} {e e' : Expr} (h : (legible lets).At place S e)
    (hv : e.Visits S S' e') : (legible lets).Fit S' e' := by
  obtain ⟨hS, he⟩ := h.fit
  cases hv with
  | value l hsuf =>
    exact ⟨fun d hd => hS d (hsuf.subset (.tail _ hd)), hS _ (hsuf.subset List.mem_cons_self)⟩
  | ann | function | operator => exact ⟨hS, he.1⟩
  | argument => exact ⟨hS, he.2⟩
  | letIn | typeIn => exact ⟨List.forall_mem_cons.2 ⟨he.2.2.1, hS⟩, he.2.2.2⟩
  | kindIn | lam => exact ⟨List.forall_mem_cons.2 ⟨trivial, hS⟩, he.2.2.2⟩
  | tlam => exact ⟨List.forall_mem_cons.2 ⟨he.1, hS⟩, he.2.2.2⟩

theorem legible_core {e : Expr} {u : TypeExpr} {t : Ty} (h : (legible lets).At place S e)
    (hu : e.Writes u) (hcore : u.coreAt S = .ok t) : t.Legible := by
  obtain ⟨hS, he⟩ := h.fit
  have hlegible : u.phrase.Legible lets := by
    cases hu with
    | ann | tapp => exact he.2
    | lam => exact he.2.2.1
  exact TypeExpr.core_legible hlegible (Telescope.cores_legible hS) hcore

/-- The rules make legible types of legible expressions. -/
theorem legible_typing : (legible lets).Typing place same fun _ => o where
  cache _ := rfl
  visit h hv := legible_visit h hv
  core h hu hcore := legible_core h hu hcore
  ofExpr_normal h hn := h.hasNormal hn
  ofExpr_of_normal h _ _ := h
  expected_normal h hn := h.hasNormal hn
  stands_normal h hn := h.hasNormal hn
  lit _ _ _ := trivial
  exprVar _ _ _ ht := ht
  exprDef _ _ _ ht := ht
  letIn h := h
  typeIn h := h
  kindIn h := h
  ann_expected _ ht := ht
  ann ht _ := ht
  lam ht h := ⟨ht, h⟩
  app_expected _ hf := hf.1
  app hf _ := hf.2
  tlam h he := ⟨h.fit.2.1, he⟩
  tapp c hf ha := hf.2.subst ha c
  tlam_expected {S _ _ _ _ x k _} c h ht := by
    have hx : (Ty.var x.name (k.expand S.env)).Legible := h.fit.2.1
    exact ht.2.subst hx c
  tlam_accepted _ _ ht _ := ht
  lam_agreed ht _ _ := ht.1
  lam_expected _ ht := ht.2
  lam_accepted ht _ _ := ht
  accepted _ ht _ := ht

end Checker.Discipline

/-- The type of a program whose names are words has names that are words. -/
theorem Expr.inferNormal_legible {r : Expr} {t : Ty} {c : Int} {tr : Trace} {s : Checker.State}
    (hr : r.Placed place []) (hwords : r.phrase.Legible lets)
    (h : r.inferNormal same o { supply := c, trace := tr } = .ok t s) : t.Legible := by
  have hD : (Checker.Discipline.legible lets).Typing place same fun _ => o :=
    Checker.Discipline.legible_typing
  exact (hD.of_inferNormal (fun _ => trivial) ⟨trivial, hr, List.forall_mem_nil _, hwords⟩ h).1

end

end SystemFOmega
