import SystemFOmega.Proofs.Skeleton.Standard
import SystemFOmega.Proofs.Surface.Replace
import SystemFOmega.Proofs.Surface.Step

/-!
# Contractions of expressions

A contraction does the replacement of one redex, or drops one annotation, at any position of an
expression (`Expr.Contracts`). Every step of every strategy is one (`Expr.contracts_of_step?`). From
a counter above all numbers of the expression, contractions are the steps of its skeleton: each
gives one (`Expr.Contracts.step`), and each comes from one (`Expr.exists_contracts`).

A strategy that reduces under binders stops at normal forms only (`Expr.normal_of_step?_eq_none`),
and normal order takes the leftmost step (`Expr.step?_of_leftmost`).
-/

namespace SystemFOmega

open Skeleton (Contract Step Normal Leftmost)

/-! ## Types and kinds -/

namespace Skeleton.Normal

variable {o : Pairing} {s : Scoping} {a b : Skeleton}

/-- Two normal phrases side by side are normal if they are no redex. -/
theorem pair (h : ∀ u, ¬ Contract (.pair o a b) u) (ha : a.Normal) (hb : b.Normal) :
    (Skeleton.pair o a b).Normal := by
  intro u hu
  cases hu with
  | root hu => exact h u hu
  | left _ _ hu => exact ha _ hu
  | right _ _ hu => exact hb _ hu

/-- A binder that defines nothing is normal with its parts. -/
theorem bind (h : s.defines = false) (ha : a.Normal) (hb : b.Normal) :
    (Skeleton.bind s a b).Normal := by
  intro u hu
  cases hu with
  | root hu =>
    cases hu with
    | inline hs => simp [h] at hs
  | outer _ _ hu => exact ha _ hu
  | body _ _ hu => exact hb _ hu

/-- Binding a name does not make a redex. -/
theorem close (h : a.Normal) (l : Level) (x : Name) : (a.close l x).Normal := by
  intro u hu
  obtain ⟨v, hv, -⟩ := hu.of_rename
  exact h v hv

theorem leaf (c : Leaf) : (Skeleton.leaf c).Normal := by
  intro u hu
  cases hu with
  | root hu => cases hu

theorem ref (r : Mark) : (Skeleton.ref r).Normal := by
  intro u hu
  cases hu with
  | root hu => cases hu

end Skeleton.Normal

/-- Pairs that are no applications of expressions and no annotations are never contracted. -/
theorem Skeleton.Contract.not_pair {o : Pairing} (ho : o.operator = none) (hann : o ≠ .ann)
    {a b : Skeleton} (u : Skeleton) : ¬ Contract (.pair o a b) u := by
  intro hu
  rcases hu.pair_inv with ⟨s, -, -, hs, -, -⟩ | ⟨h, -⟩
  · rw [ho] at hs
    cases hs
  · exact hann h

/-- Nothing is contracted in a kind. -/
theorem KindExpr.normal (k : KindExpr) : k.phrase.skeleton.Normal := by
  induction k with
  | star => exact .leaf _
  | var x => exact .ref _
  | arrow j k hj hk => exact .pair (Contract.not_pair rfl (by decide)) hj hk

/-- Nothing is contracted in a type. -/
theorem TypeExpr.normal (t : TypeExpr) : t.phrase.skeleton.Normal := by
  induction t with
  | int => exact .leaf _
  | var x => exact .ref _
  | arrow s t hs ht | app s t hs ht => exact .pair (Contract.not_pair rfl (by decide)) hs ht
  | bind b x k t ih => exact .bind rfl k.normal (ih.close _ _)
  | kinded t k ih => exact .pair (Contract.not_pair rfl (by decide)) ih k.normal

namespace Expr

/-! ## Contractions -/

/-- What a frame adds to the skeleton of the expression in its hole. -/
def Frame.around (a : Skeleton) : Frame → Skeleton
  | lam x t _ => .bind .lam t.phrase.skeleton (a.close .expr x.name)
  | fn b _ => .pair .app a b.skeleton
  | arg f _ => .pair .app f.skeleton a
  | tlam x k _ => .bind .tlam k.phrase.skeleton (a.close .type x.name)
  | tfn t _ => .pair .tapp a t.phrase.skeleton
  | ann t _ => .pair .ann a t.phrase.skeleton
  | value x b _ => .bind .letIn a (b.skeleton.close .expr x.name)
  | body x v _ => .bind .letIn v.skeleton (a.close .expr x.name)
  | typeBody x v _ => .bind .typeIn v.phrase.skeleton (a.close .type x.name)
  | kindBody x v _ => .bind .kindIn v.phrase.skeleton (a.close .kind x.name)

/-- Contracts one part of an expression, from one counter to another. The names in the list are made
for binders on the way. -/
inductive Contracts (c : Int) : List Name → Int → Expr → Expr → Prop
  | erase (e : Expr) (t : TypeExpr) (l : Option Location) : Contracts c [] c (.ann e t l) e
  | replace {e body e' : Expr} {σ : Replacement} {ms : List Name} {c' : Int} (h : Redex e σ body)
    (he' : body.replace σ c = (e', c')) (hms : σ.Puts c body.phrase ms e'.phrase c') :
    Contracts c ms c' e e'
  | within (F : Frame) {e e' : Expr} {ms : List Name} {c' : Int} : Contracts c ms c' e e' →
    Contracts c ms c' (F.plug e) (F.plug e')

/-- One contraction, at any position, from a counter above all numbers of the expression. -/
def Contraction (e e' : Expr) : Prop := ∃ c ms c', Below c e.names ∧ Contracts c ms c' e e'

/-! ## Contractions and steps of skeletons -/

namespace Redex

variable {e body : Expr} {σ : Replacement}

/-- The parts of a redex have only the names of the whole. -/
theorem names (h : Redex e σ body) : σ.name :: σ.phrase.names ++ body.names ⊆ e.names := by
  cases h <;> simp only [Replacement.name, Replacement.phrase, names_phrase, TypeExpr.names_phrase,
    KindExpr.names_phrase, Expr.names] <;> grind

/-- A redex is one of the tree without names too. -/
theorem contract (h : Redex e σ body) : Contract e.skeleton (body.skeleton.subst σ.put) := by
  rw [Replacement.put, ← Skeleton.inst_close]
  cases h with
  | beta => exact .beta rfl _ _ _
  | typeBeta => exact .beta rfl _ _ _
  | letIn | typeIn | kindIn => exact .inline rfl _ _

theorem contracts (h : Redex e σ body) (c : Int) :
    ∃ ms, Contracts c ms (body.replace σ c).2 e (body.replace σ c).1 := by
  obtain ⟨ms, hms⟩ := body.subst_does (σ := σ) (c := c)
  exact ⟨ms, .replace h rfl hms⟩

/-- What the replacement does to the text of a redex, it does to the tree without names. -/
theorem skeleton (h : Redex e σ body) {c c' : Int} {ms : List Name} {a : Phrase}
    (ha : σ.Puts c body.phrase ms a c') (hc : Below c e.names) :
    a.skeleton = body.skeleton.subst σ.put := by
  have hbelow := hc.mono (Int.le_refl c) h.names
  refine ha.skeleton (fun x hx => hbelow x (List.mem_append_right _ ?_))
    fun x hx => hbelow x (List.mem_append_left _ hx)
  rwa [names_phrase] at hx

end Redex

/-- Around the hole of a frame stand names that do not depend on what is put there. -/
theorem Frame.names_plug (F : Frame) :
    ∃ xs ys, ∀ e : Expr, (F.plug e).names = xs ++ e.names ++ ys := by
  cases F with
  | lam x t l | typeBody x t l => exact ⟨x.name :: t.names, [], by simp [plug, Expr.names]⟩
  | fn a l => exact ⟨[], a.names, by simp [plug, Expr.names]⟩
  | arg f l => exact ⟨f.names, [], by simp [plug, Expr.names]⟩
  | tlam x k l | kindBody x k l => exact ⟨x.name :: k.names, [], by simp [plug, Expr.names]⟩
  | tfn t l | ann t l => exact ⟨[], t.names, by simp [plug, Expr.names]⟩
  | value x b l => exact ⟨[x.name], b.names, by simp [plug, Expr.names]⟩
  | body x v l => exact ⟨x.name :: v.names, [], by simp [plug, Expr.names]⟩

theorem Frame.skeleton_plug (F : Frame) (e : Expr) :
    (F.plug e).skeleton = F.around e.skeleton := by
  cases F <;> rfl

theorem Frame.step_around (F : Frame) {a b : Skeleton} (h : Step a b) :
    Step (F.around a) (F.around b) := by
  cases F with
  | fn | tfn | ann => exact .left _ _ h
  | arg => exact .right _ _ h
  | value => exact .outer _ _ h
  | lam | tlam | body | typeBody | kindBody => exact .body _ _ (h.rename _)

theorem Frame.below {F : Frame} {e : Expr} {c : Int} (h : Below c (F.plug e).names) :
    Below c e.names := by
  obtain ⟨xs, ys, hF⟩ := F.names_plug
  rw [hF] at h
  exact h.mono (Int.le_refl c) (by simp)

namespace Contracts

variable {e e' : Expr} {c c' : Int} {ms : List Name}

/-- The names that are made have the numbers through which the counter goes. -/
theorem numbered (h : Contracts c ms c' e e') : Numbered c c' ms := by
  induction h with
  | erase => rfl
  | replace _ _ hms => exact hms.numbered
  | within _ _ ih => exact ih

/-- A step brings in no names but the new ones of binders. -/
theorem names (h : Contracts c ms c' e e') : e'.names ⊆ e.names ++ ms := by
  induction h with
  | erase e t l => simp [Expr.names]
  | replace h _ hms =>
    have hnames := hms.names
    have hredex := h.names
    rw [names_phrase, names_phrase] at hnames
    grind
  | within F _ ih =>
    obtain ⟨xs, ys, hF⟩ := F.names_plug
    rw [hF, hF]
    grind

/-- The names of an expression stay below the counter. -/
theorem names_below (h : Contracts c ms c' e e') (hc : Below c e.names) : Below c' e'.names := by
  intro x hx
  rcases List.mem_append.1 (h.names hx) with hx | hx
  · have hlt := hc x hx
    have hle := h.numbered.le
    omega
  · exact h.numbered.lt_of_mem hx

/-- A contraction takes one step in the skeleton. -/
theorem step (h : Contracts c ms c' e e') (hc : Below c e.names) :
    Step e.skeleton e'.skeleton := by
  induction h with
  | erase e t l => exact .root (.erase _ _)
  | @replace e body e' σ ms c' h _ hms =>
    have hskel : e'.skeleton = body.skeleton.subst σ.put := h.skeleton hms hc
    rw [hskel]
    exact .root h.contract
  | within F _ ih =>
    rw [F.skeleton_plug, F.skeleton_plug]
    exact F.step_around (ih (Frame.below hc))

end Contracts

/-- What can be contracted in the skeleton is a redex or an annotation. -/
theorem exists_redex {e : Expr} {u : Skeleton} (h : Contract e.skeleton u) :
    (∃ e₀ t l, e = .ann e₀ t l) ∨ ∃ σ body, Redex e σ body := by
  cases e with
  | lit | var => cases h
  | lam | tlam =>
    cases h with
    | inline h => cases h
  | app f a l =>
    rcases h.pair_inv with ⟨s, t, b, hs, hf, -⟩ | ⟨ho, -⟩
    · cases hs
      cases f with
      | lam x t body m => exact .inr ⟨_, _, .beta x t body a m l⟩
      | _ => simp [phrase, Phrase.skeleton] at hf
    · cases ho
  | tapp f a l =>
    rcases h.pair_inv with ⟨s, t, b, hs, hf, -⟩ | ⟨ho, -⟩
    · cases hs
      cases f with
      | tlam x k body m => exact .inr ⟨_, _, .typeBeta x k body a m l⟩
      | _ => simp [phrase, Phrase.skeleton] at hf
    · cases ho
  | ann e t l => exact .inl ⟨e, t, l, rfl⟩
  | letIn x v e l => exact .inr ⟨_, _, .letIn x v e l⟩
  | typeIn x v e l => exact .inr ⟨_, _, .typeIn x v e l⟩
  | kindIn x v e l => exact .inr ⟨_, _, .kindIn x v e l⟩

/-- A contraction of the tree without names is one of the expression. -/
theorem exists_contracts_root {e : Expr} {u : Skeleton} {c : Int} (h : Contract e.skeleton u)
    (hc : Below c e.names) : ∃ e' ms c', Contracts c ms c' e e' ∧ e'.skeleton = u := by
  rcases exists_redex h with ⟨e₀, t, l, rfl⟩ | ⟨σ, body, hr⟩
  · exact ⟨e₀, [], c, .erase e₀ t l, Contract.unique (.erase _ _) h⟩
  · obtain ⟨ms, hms⟩ := body.subst_does (σ := σ) (c := c)
    refine ⟨_, ms, _, .replace hr rfl hms, ?_⟩
    exact (hr.skeleton hms hc).trans (hr.contract.unique h)

/-- Every step of the skeleton is a contraction of the expression. -/
theorem exists_contracts {e : Expr} {u : Skeleton} {c : Int} (h : Step e.skeleton u)
    (hc : Below c e.names) : ∃ e' ms c', Contracts c ms c' e e' ∧ e'.skeleton = u := by
  -- in the hole of a frame
  have hwithin (F : Frame) {e : Expr} {u : Skeleton} (hc : Below c (F.plug e).names)
      (ih : Below c e.names → ∃ e' ms c', Contracts c ms c' e e' ∧ e'.skeleton = u) :
      ∃ e' ms c', Contracts c ms c' (F.plug e) e' ∧ e'.skeleton = F.around u := by
    obtain ⟨e', ms, c', h, rfl⟩ := ih (Frame.below hc)
    exact ⟨F.plug e', ms, c', .within F h, F.skeleton_plug e'⟩
  induction e generalizing u with
  | lit | var =>
    cases h with
    | root h => exact exists_contracts_root h hc
  | lam x t e l ih =>
    cases h with
    | root h => exact exists_contracts_root h hc
    | outer _ _ h => exact absurd h (t.normal _)
    | body _ _ h =>
      obtain ⟨v, hv, rfl⟩ := h.of_rename
      exact hwithin (.lam x t l) hc (ih hv)
  | app f a l hf ha =>
    cases h with
    | root h => exact exists_contracts_root h hc
    | left _ _ h => exact hwithin (.fn a l) hc (hf h)
    | right _ _ h => exact hwithin (.arg f l) hc (ha h)
  | tlam x k e l ih =>
    cases h with
    | root h => exact exists_contracts_root h hc
    | outer _ _ h => exact absurd h (k.normal _)
    | body _ _ h =>
      obtain ⟨v, hv, rfl⟩ := h.of_rename
      exact hwithin (.tlam x k l) hc (ih hv)
  | tapp f t l hf =>
    cases h with
    | root h => exact exists_contracts_root h hc
    | left _ _ h => exact hwithin (.tfn t l) hc (hf h)
    | right _ _ h => exact absurd h (t.normal _)
  | ann e t l ih =>
    cases h with
    | root h => exact exists_contracts_root h hc
    | left _ _ h => exact hwithin (.ann t l) hc (ih h)
    | right _ _ h => exact absurd h (t.normal _)
  | letIn x v e l hv he =>
    cases h with
    | root h => exact exists_contracts_root h hc
    | outer _ _ h => exact hwithin (.value x e l) hc (hv h)
    | body _ _ h =>
      obtain ⟨w, hw, rfl⟩ := h.of_rename
      exact hwithin (.body x v l) hc (he hw)
  | typeIn x v e l ih =>
    cases h with
    | root h => exact exists_contracts_root h hc
    | outer _ _ h => exact absurd h (v.normal _)
    | body _ _ h =>
      obtain ⟨w, hw, rfl⟩ := h.of_rename
      exact hwithin (.typeBody x v l) hc (ih hw)
  | kindIn x v e l ih =>
    cases h with
    | root h => exact exists_contracts_root h hc
    | outer _ _ h => exact absurd h (v.normal _)
    | body _ _ h =>
      obtain ⟨w, hw, rfl⟩ := h.of_rename
      exact hwithin (.kindBody x v l) hc (ih hw)

/-! ## The steps of strategies -/

section

variable {s : Strategy} {e e' f a : Expr} {t : TypeExpr} {c c' : Int}

/-- Each step of a strategy is a step of the calculus. -/
theorem Reduces.contracts (h : Reduces s c e e' c') : ∃ ms, Contracts c ms c' e e' := by
  induction h with
  | root h =>
    cases h with
    | erase _ t l => exact ⟨[], .erase _ t l⟩
    | replace h => exact h.contracts c
  | @within F _ _ _ _ _ ih =>
    obtain ⟨ms, hms⟩ := ih
    exact ⟨ms, .within F hms⟩

/-- Every strategy contracts one part of the expression in a step. -/
theorem contracts_of_step? (h : e.step? s c = some (e', c')) : ∃ ms, Contracts c ms c' e e' :=
  (reduces_of_step? h).contracts

theorem beta?_eq_none (l : Option Location)
    (h : ∀ u, ¬ Contract (.pair .app f.skeleton a.skeleton) u) (c : Int) : f.beta? a c = none := by
  cases f with
  | lam x t body m => exact absurd (Redex.beta x t body a m l).contract (h _)
  | _ => rfl

theorem typeBeta?_eq_none (l : Option Location)
    (h : ∀ u, ¬ Contract (.pair .tapp f.skeleton t.phrase.skeleton) u) (c : Int) :
    f.typeBeta? t c = none := by
  cases f with
  | tlam x k body m => exact absurd (Redex.typeBeta x k body t m l).contract (h _)
  | _ => rfl

/-- Where nothing can be contracted, no strategy takes a step. -/
theorem step?_eq_none_of_normal (hn : e.skeleton.Normal) (hc : Below c e.names) :
    e.step? s c = none := by
  cases h : e.step? s c with
  | none => rfl
  | some r =>
    obtain ⟨ms, hms⟩ := contracts_of_step? h
    exact absurd (hms.step hc) (hn _)

/-- A strategy that reduces under binders goes on as long as something can be contracted. -/
theorem normal_of_step?_eq_none (hs : s.strong) (h : e.step? s c = none) : e.skeleton.Normal := by
  induction e with
  | lit => exact .leaf _
  | var => exact .ref _
  | ann | letIn | typeIn | kindIn =>
    have hredex := isRedex_of_step?_eq_none h
    cases hredex
  | lam x t e l ih => exact .bind rfl t.normal ((ih (step?_lam_eq_none.1 h hs)).close _ _)
  | tlam x k e l ih => exact .bind rfl k.normal ((ih (step?_tlam_eq_none.1 h hs)).close _ _)
  | app f a l hf ha =>
    obtain ⟨hlam, hf', ha'⟩ := step?_app_eq_none.1 h
    refine .pair (fun u hu => ?_) (hf hf') (ha (ha' (.inr hs)))
    rcases exists_redex (e := .app f a l) hu with ⟨_, _, _, he⟩ | ⟨σ, body, hr⟩
    · cases he
    · cases hr
      cases hlam
  | tapp f t l hf =>
    obtain ⟨hlam, hf'⟩ := step?_tapp_eq_none.1 h
    refine .pair (fun u hu => ?_) (hf hf') t.normal
    rcases exists_redex (e := .tapp f t l) hu with ⟨_, _, _, he⟩ | ⟨σ, body, hr⟩
    · cases he
    · cases hr
      cases hlam

/-- Normal order contracts the whole expression first. -/
theorem step?_of_contract {u : Skeleton} (h : Contract e.skeleton u) (hc : Below c e.names) :
    ∃ e' c', e.step? .normal c = some (e', c') ∧ e'.skeleton = u := by
  rcases exists_redex h with ⟨e₀, t, l, rfl⟩ | ⟨σ, body, hr⟩
  · exact ⟨e₀, c, rfl, Contract.unique (.erase _ _) h⟩
  · obtain ⟨ms, hms⟩ := body.subst_does (σ := σ) (c := c)
    refine ⟨_, (body.replace σ c).2, ?_, (hr.skeleton hms hc).trans (hr.contract.unique h)⟩
    cases hr <;> rfl

/-- Normal order contracts the leftmost redex. -/
theorem step?_of_leftmost {u : Skeleton} (h : Leftmost e.skeleton u) (hc : Below c e.names) :
    ∃ e' c', e.step? .normal c = some (e', c') ∧ e'.skeleton = u := by
  induction e generalizing u with
  | lit | var =>
    cases h with
    | root h => exact step?_of_contract h hc
  | lam x t e l ih =>
    cases h with
    | root h => exact step?_of_contract h hc
    | outer _ h => exact absurd h.step (t.normal _)
    | body _ _ h =>
      obtain ⟨v, hv, rfl⟩ := h.of_rename
      obtain ⟨e', c', he', rfl⟩ := ih hv (hc.mono (Int.le_refl c) (by simp [names]))
      exact ⟨.lam x t e' l, c', by simp [step?, Strategy.strong, he'], rfl⟩
  | tlam x k e l ih =>
    cases h with
    | root h => exact step?_of_contract h hc
    | outer _ h => exact absurd h.step (k.normal _)
    | body _ _ h =>
      obtain ⟨v, hv, rfl⟩ := h.of_rename
      obtain ⟨e', c', he', rfl⟩ := ih hv (hc.mono (Int.le_refl c) (by simp [names]))
      exact ⟨.tlam x k e' l, c', by simp [step?, Strategy.strong, he'], rfl⟩
  | app f a l hf ha =>
    have hcf : Below c f.names := hc.mono (Int.le_refl c) (by simp [names])
    have hca : Below c a.names := hc.mono (Int.le_refl c) (by simp [names])
    cases h with
    | root h => exact step?_of_contract h hc
    | left hn h =>
      have hbeta := beta?_eq_none l hn c
      obtain ⟨f', c', hf', rfl⟩ := hf h hcf
      exact ⟨.app f' a l, c', by simp [step?, Strategy.eager, hbeta, hf'], rfl⟩
    | right hn hfn h =>
      have hbeta := beta?_eq_none l hn c
      have hnone : f.step? .normal c = none := step?_eq_none_of_normal hfn hcf
      obtain ⟨a', c', ha', rfl⟩ := ha h hca
      refine ⟨.app f a' l, c', ?_, rfl⟩
      simp [step?, Strategy.eager, Strategy.strong, hbeta, hnone, ha']
  | tapp f t l hf =>
    cases h with
    | root h => exact step?_of_contract h hc
    | left hn h =>
      have hbeta := typeBeta?_eq_none l hn c
      obtain ⟨f', c', hf', rfl⟩ := hf h (hc.mono (Int.le_refl c) (by simp [names]))
      exact ⟨.tapp f' t l, c', by simp [step?, Strategy.eager, hbeta, hf'], rfl⟩
    | right _ _ h => exact absurd h.step (t.normal _)
  | ann =>
    cases h with
    | root h => exact step?_of_contract h hc
    | left hn => exact absurd (.erase _ _) (hn _)
    | right hn => exact absurd (.erase _ _) (hn _)
  | letIn | typeIn | kindIn =>
    cases h with
    | root h => exact step?_of_contract h hc
    | outer hn => exact absurd (.inline rfl _ _) (hn _)
    | body hn => exact absurd (.inline rfl _ _) (hn _)

end

end Expr

end SystemFOmega
