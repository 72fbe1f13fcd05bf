import SystemFOmega.Proofs.Checker.Discipline
import SystemFOmega.Proofs.Checker.InStep
import SystemFOmega.Proofs.Checker.Simulation

/-!
# Keeping the types of definitions

The checker keeps the first type that it finds for a name that a `let` has defined, and gives it
again wherever the name is used. Without this it would infer the type of the definition at every
use, in the context of the use and from another counter. Nobody can tell the difference
(`Expr.typeOf_cache_irrelevant`): both checkers give types that are alpha-equivalent and print
alike, or both fail and report the same.

The two checkers are a simulation (`Memo.simulation`), whose worlds are the states of both. The
second has a bound of its own, because it may be further inside of definitions where the first one
looks into its table.
-/

namespace SystemFOmega

open Run

/-- Two runs with one known outcome. -/
theorem Check.Gives.pairs {α : Type} {m m' : Check α} {s s' : Checker.State}
    {r : Except Failure.Cause α} {P P' : Checker.State → Prop} (h : Gives m s r P)
    (h' : Gives m' s' r P') :
    Pairs m s m' s' (fun a s₁ a' s₁' => r = .ok a ∧ a' = a ∧ P s₁ ∧ P' s₁') Failure.Alike := by
  cases r with
  | ok a =>
    obtain ⟨s₁, hm, hP⟩ := h.exists_ok
    obtain ⟨s₁', hm', hP'⟩ := h'.exists_ok
    exact .ok hm hm' ⟨rfl, rfl, hP, hP'⟩
  | error c =>
    obtain ⟨f, s₁, hm, hf⟩ := h.exists_error
    obtain ⟨f', s₁', hm', hf'⟩ := h'.exists_error
    exact .error hm hm' (.of_cause (hf.trans hf'.symm))

namespace Memo

/-! ## The simulation -/

/-- A place, with the contexts of the two checkers there. -/
structure Scope where
  telescope : Telescope
  left : Context
  right : Context

/-- A bound is large enough for what weighs `m`. A comparison may be followed by an inference for
the same expression. -/
def Fits : Checker.Mode → Nat → Nat → Prop
  | .infer, m, n => m ≤ n
  | .check, m, n => m < n

theorem Fits.pos {m : Checker.Mode} {p n : Nat} (h : Fits m (2 * p) n) (hp : 0 < p) : 0 < n := by
  cases m <;> unfold Fits at h <;> omega

theorem Fits.smaller {m : Checker.Mode} {p q n : Nat} (h : Fits m (2 * p) (n + 1)) (hq : q < p)
    (m' : Checker.Mode) : Fits m' (2 * q) n := by
  cases m <;> cases m' <;> unfold Fits at * <;> omega

section

variable (place : Name → Telescope) (b : Int) (o : Checker.Options)

/-- Both checkers look at the same expression. -/
structure Looks (m : Checker.Mode) (c : Scope) (w : Checker.State × Checker.State) (e e' : Expr)
    (n n' : Nat) : Prop where
  same : e' = e
  scope : c.telescope.Placed place
  placed : e.Placed place c.telescope
  inStep : InStep place b o c.telescope c.left c.right w.1 w.2
  fresh : Fresh c.telescope e w.1
  left : Fits m (2 * (e.size + c.telescope.weight)) n
  right : Fits m (2 * (e.size + c.telescope.weight)) n'

/-- A checker that keeps types beside one that does not. -/
def simulation : Checker.Simulation where
  Scope := Scope
  left := Scope.left
  right := Scope.right
  World := Checker.State × Checker.State
  States w s s' := w = (s, s')
  In c w := InStep place b o c.telescope c.left c.right w.1 w.2
  Ran c xs w w₁ := After place b o c.telescope c.left c.right xs w.1 w.2 w₁.1 w₁.2
  Types w t t' := Ty.TwinAt b w.1.supply w.2.supply t t'
  Written _ t t' := t' = t ∧ t.Below b
  At := Looks place b o

end

section

variable {place : Name → Telescope} {b : Int} {o : Checker.Options} {c : Scope}
  {w w₁ : Checker.State × Checker.State} {n n' : Nat} {t t' : Ty} {e e' : Expr} {m : Checker.Mode}
  {xs : List Name}

/-- The worlds are pairs of states, so that it is enough to look at the two states of `w`. -/
theorem follows {α : Type} {m m' : Check α}
    {P : Checker.State × Checker.State → α → α → Prop}
    (h : Pairs m w.1 m' w.2 (fun a s₁ a' s₁' => P (s₁, s₁') a a') Failure.Alike) :
    (simulation place b o).Follows w m m' P := by
  rintro s s' rfl
  exact h.mono (fun _ s₁ _ s₁' hP => ⟨(s₁, s₁'), rfl, hP⟩) fun _ _ h => h

/-! ## Steps of both checkers -/

/-- Steps that leave the tables as they are. -/
theorem grows_follows {m m' : Check Unit}
    (h : InStep place b o c.telescope c.left c.right w.1 w.2)
    (hm : Ends m w.1 (fun _ s₁ => w.1.Grows place s₁) False)
    (hm' : Ends m' w.2 (fun _ s₁ => w.2.Grows place s₁) False) :
    (simulation place b o).Follows w m m'
      (fun w₁ _ _ => (simulation place b o).Ran c [] w w₁) :=
  follows ((Pairs.of_ends hm hm').mono (fun _ _ _ _ hs => (After.refl h).step hs.1 hs.2)
    fun _ _ h => h)

theorem normalize_follows (h : InStep place b o c.telescope c.left c.right w.1 w.2)
    (ht : Ty.TwinAt b w.1.supply w.2.supply t t') :
    (simulation place b o).Follows w (Check.normalize { o with cache := true } t)
      (Check.normalize { o with cache := false } t') ((simulation place b o).Found c [] w) := by
  have hrun := ht.normalize h.ready.le h.partner.le o.order o.fuel o.depth
  refine follows ((Check.normalize_pairs rfl hrun).mono (fun u s₁ u' s₁' h₁ => ?_) fun _ _ h => h)
  obtain ⟨k, k', rfl, rfl, hle, hle', hu⟩ := h₁
  exact ⟨(After.refl h).step ⟨⟨h.ready.keeps.kinds, h.ready.keeps.types⟩, rfl, hle⟩
    ⟨⟨h.partner.keeps.kinds, h.partner.keeps.types⟩, rfl, hle'⟩, hu⟩

/-- A type of the program is put for the bound name. -/
theorem subst_follows {β : Binder} {x x' : Name} {k k' j j' : Kind} {a : Ty}
    (h : InStep place b o c.telescope c.left c.right w.1 w.2)
    (ht : Ty.TwinAt b w.1.supply w.2.supply (.bind β x k t j) (.bind β x' k' t' j'))
    (ha : a.Below b) :
    (simulation place b o).Follows w (Check.subst x a t) (Check.subst x' a t')
      ((simulation place b o).Found c [] w) := by
  obtain ⟨_, _, heq, hle, hle', hu⟩ := ht.inst ha h.ready.le h.partner.le
  obtain ⟨-, rfl, -, rfl, -⟩ := Ty.bind.inj heq
  refine follows (.ok rfl rfl ⟨(After.refl h).step ⟨?_, rfl, hle⟩ ⟨?_, rfl, hle'⟩, hu⟩)
  · exact ⟨h.ready.keeps.kinds, h.ready.keeps.types⟩
  · exact ⟨h.partner.keeps.kinds, h.partner.keeps.types⟩

/-- A surface type of the program is elaborated by both checkers alike. -/
theorem type_follows (hb : ∀ x : Name, place x ≠ [] → x.id < b) {u : TypeExpr} (k : Kind)
    (hat : Looks place b o m c w e e' (n + 1) (n' + 1)) (hu : e.Writes u)
    (h : InStep place b o c.telescope c.left c.right w₁.1 w₁.2) :
    (simulation place b o).Follows w₁
      (u.elaborate { o with cache := true } n c.left >>= Check.ofKind k)
      (u.elaborate { o with cache := false } n' c.right >>= Check.ofKind k)
      (fun w₂ t t' => (simulation place b o).Ran c [] w₁ w₂ ∧ t' = t ∧ t.Below b) := by
  have hpl := hu.placed hat.placed
  have hfits {m : Checker.Mode} {p : Nat}
      (hp : Fits m (2 * (e.size + c.telescope.weight)) (p + 1)) :
      u.size + c.telescope.weight ≤ p := by
    have hlt := hu.size_lt
    cases m <;> unfold Fits at hp <;> omega
  have hrun {Γ : Context} {s : Checker.State} {p : Nat} (o : Checker.Options)
      (hΓ : Γ.Covers c.telescope) (hs : s.Keeps place) (hp : u.size + c.telescope.weight ≤ p) :
      Check.Gives (u.elaborate o p Γ >>= Check.ofKind k) s
        (u.coreAt c.telescope >>= fun t => t.requireKind k) (s.Extends place) :=
    (u.elaborate_gives o hat.scope hpl hΓ (.refl hs) hp).bind
      fun t _ _ hs₁ => Check.ofKind_gives k t hs₁
  refine follows (((hrun _ h.ready.covers h.ready.keeps (hfits hat.left)).pairs
    (hrun _ h.partner.covers h.partner.keeps (hfits hat.right))).mono
    (fun t s₁ t' s₁' h₁ => ?_) fun _ _ h => h)
  obtain ⟨ht, rfl, hs, hs'⟩ := h₁
  refine ⟨(After.refl h).step hs.grows hs'.grows, rfl, fun x hx => hb x ?_⟩
  obtain ⟨v, hv, hk⟩ := except_bind_ok.1 ht
  obtain ⟨-, rfl⟩ := Ty.requireKind_ok.1 hk
  exact (hpl.elaborated hat.scope hv).placed x hx

/-! ## What both checkers look at -/

namespace Looks

theorem after (h : Looks place b o m c w e e' n n')
    (h₁ : After place b o c.telescope c.left c.right [] w.1 w.2 w₁.1 w₁.2) :
    Looks place b o m c w₁ e e' n n' :=
  { h with inStep := h₁.toInStep, fresh := h.fresh.after h₁ fun _ _ => List.not_mem_nil }

theorem bounds_pos (h : Looks place b o m c w e e' n n') : 0 < n ∧ 0 < n' :=
  have hpos : 0 < e.size + c.telescope.weight :=
    Nat.lt_of_lt_of_le e.size_pos (Nat.le_add_right _ _)
  ⟨h.left.pos hpos, h.right.pos hpos⟩

/-- To look at an expression, both checkers look at a part of it, maybe after some time. -/
theorem visit {S : Telescope} {Γ Γ' : Context} {v : Expr}
    (h : Looks place b o m c w e e' (n + 1) (n' + 1)) (hv : e.Visits c.telescope S v)
    (hin : InStep place b o S Γ Γ' w₁.1 w₁.2) (hf : Fresh S v w₁.1) (m' : Checker.Mode) :
    Looks place b o m' ⟨S, Γ, Γ'⟩ w₁ v v n n' :=
  have hp := hv.placed h.scope h.placed
  ⟨rfl, hp.1, hp.2, hin, hf, h.left.smaller hv.weight_lt m', h.right.smaller hv.weight_lt m'⟩

/-- Both checkers go into the scope of a declaration and come out again. -/
theorem opens {d : Decl} {Γ Γ' : Context} {v : Expr}
    (h : Looks place b o m c w e e' (n + 1) (n' + 1))
    (hv : e.Visits c.telescope (d :: c.telescope) v)
    (hin : InStep place b o (d :: c.telescope) Γ Γ' w.1 w.2)
    (hΓ : ∀ x ∈ Telescope.names c.telescope, Γ.exprs.get? x = c.left.exprs.get? x)
    (hf : Fresh (d :: c.telescope) v w.1)
    (hxs : v.lets ++ Telescope.lets (d :: c.telescope) ⊆ xs ++ c.telescope.lets) :
    (simulation place b o).Opens c xs w Γ Γ' v v n n' :=
  ⟨⟨d :: c.telescope, Γ, Γ'⟩, rfl, rfl, fun m' => h.visit hv hin hf m',
    fun _ h₁ => .leave h.inStep h₁ hΓ hxs⟩

theorem first {f f' : Expr} (h : Looks place b o m c w e e' (n + 1) (n' + 1)) (hf : e.Applies f)
    (hf' : e'.Applies f') : Looks place b o .infer c w f f' n n' := by
  obtain rfl := h.same
  cases hf with
  | app f a l =>
    cases hf'
    exact h.visit (.function _ f a l) h.inStep h.fresh.app_left .infer
  | tapp f u l =>
    cases hf'
    exact h.visit (.operator _ f u l) h.inStep ⟨h.fresh.nodup, h.fresh.uncached⟩ .infer

theorem letIn {x : Ident} {v : Expr} {l : Option Location}
    (h : Looks place b o m c w (.letIn x v e l) e' (n + 1) (n' + 1)) :
    (simulation place b o).Opens c (Expr.letIn x v e l).lets w (c.left.defineExpr x.name v)
      (c.right.defineExpr x.name v) e e n n' := by
  have hx := h.scope.not_mem h.placed.2.1
  have hv : w.1.exprs.get? x.name = none ∧ ∀ y ∈ v.lets, w.1.exprs.get? y = none :=
    ⟨h.fresh.uncached _ (List.mem_append_right _ List.mem_cons_self),
      fun y hy => h.fresh.uncached y (List.mem_append_left _ hy)⟩
  refine h.opens (.letIn _ x v e l) (h.inStep.defineExpr hx hv) (Table.get?_insert_of_not_mem hx)
    h.fresh.letIn ?_
  simp only [Expr.lets, Telescope.lets]
  grind

theorem lam {x : Ident} {u : TypeExpr} {l : Option Location}
    (h : Looks place b o m c w (.lam x u e l) e' (n + 1) (n' + 1))
    (ht : Ty.TwinAt b w.1.supply w.2.supply t t') :
    (simulation place b o).Opens c e.lets w (c.left.bindExpr x.name t) (c.right.bindExpr x.name t')
      e e n n' := by
  have hx := h.scope.not_mem h.placed.2.1
  exact h.opens (.lam _ x u e l) (h.inStep.bindExpr hx u ht) (Table.get?_insert_of_not_mem hx)
    ⟨h.fresh.nodup, h.fresh.uncached⟩ (List.Subset.refl _)

/-- A surface kind stands for the same kind in both checkers. -/
theorem kind {x : Ident} {k : KindExpr} {l : Option Location}
    (h : Looks place b o m c w (.tlam x k e l) e' (n + 1) (n' + 1)) :
    (simulation place b o).Follows w (k.elaborate { o with cache := true } n c.left)
      (k.elaborate { o with cache := false } n' c.right)
      (fun w₁ j j' => (simulation place b o).Ran c [] w w₁ ∧ j' = j ∧
        ∀ w₂, (simulation place b o).Ran c [] w₁ w₂ →
          (simulation place b o).Opens c e.lets w₂ (c.left.bindType x.name j)
            (c.right.bindType x.name j) e e n n') := by
  have hin := h.inStep
  have hfits {m : Checker.Mode} {p : Nat}
      (hp : Fits m (2 * ((Expr.tlam x k e l).size + c.telescope.weight)) (p + 1)) :
      k.size + c.telescope.weight ≤ p := by
    cases m <;> simp only [Fits, Expr.size] at hp <;> omega
  refine follows ((Pairs.of_ends
    (k.elaborate_gives _ h.scope h.placed.1 hin.ready.covers (.refl hin.ready.keeps) (hfits h.left))
    (k.elaborate_gives _ h.scope h.placed.1 hin.partner.covers (.refl hin.partner.keeps)
      (hfits h.right))).mono (fun j s₁ j' s₁' hj => ?_) fun _ _ h => h)
  obtain ⟨⟨rfl, hs⟩, rfl, hs'⟩ := hj
  have h₁ := (After.refl hin).step hs.grows hs'.grows
  refine ⟨h₁, rfl, fun w₂ h₂ => ?_⟩
  have hlook := (h.after h₁).after h₂
  exact hlook.opens (.tlam _ x k e l) (hlook.inStep.bindType (h.scope.not_mem h.placed.2.1) k)
    (fun _ _ => rfl) ⟨hlook.fresh.nodup, hlook.fresh.uncached⟩ (List.Subset.refl _)

end Looks

/-! ## Names -/

section

variable {S' : Telescope} {x : Name} {v : Expr}

/-- A name whose type the first checker has in its table. -/
theorem cached_pairs (h : InStep place b o c.telescope c.left c.right w.1 w.2)
    (hsuf : .exprDef x v :: S' <:+ c.telescope) (ht : w.1.exprs.get? x = some t)
    (hn' : 2 * (v.size + Telescope.weight S') ≤ n') :
    Pairs (pure t : Check Ty) w.1
      (do
        let t ← v.inferBy Ty.conform { o with cache := false } n' c.right
        Check.keepExpr { o with cache := false } x t
        pure t) w.2
      (fun t s₁ t' s₁' => (simulation place b o).Found c [] w (s₁, s₁') t t') Failure.Alike := by
  have hS' : S' <:+ c.telescope := (List.suffix_cons _ _).trans hsuf
  obtain ⟨hbelow, hconf⟩ := h.ready.cached hsuf ht
  have hrun := hconf (h.partner.suffix hS') hn'
  obtain ⟨t', s₁', hm', htwin, hbelow', hp, hle⟩ := hrun.exists_ok id
  refine .ok rfl (bind_of_ok _ hm') ⟨⟨⟨h.ready, ?_⟩, Int.le_refl _, hle, fun _ _ => rfl⟩, ?_⟩
  · exact h.partner.later hp hle
  · exact ⟨htwin, hbelow, hbelow'⟩

/-- A name whose type the first checker infers and puts into its table. -/
theorem uncached_pairs
    (infer : (simulation place b o).Infers { o with cache := true } { o with cache := false } n)
    (hS : c.telescope.Placed place) (h : InStep place b o c.telescope c.left c.right w.1 w.2)
    (hsuf : .exprDef x v :: S' <:+ c.telescope) (hnodup : (Telescope.lets c.telescope).Nodup)
    (hx : w.1.exprs.get? x = none) (hn : 2 * (v.size + Telescope.weight S') ≤ n)
    (hn' : 2 * (v.size + Telescope.weight S') ≤ n') :
    Pairs
      (do
        let t ← v.inferBy Ty.conform { o with cache := true } n c.left
        Check.keepExpr { o with cache := true } x t
        pure t) w.1
      (do
        let t ← v.inferBy Ty.conform { o with cache := false } n' c.right
        Check.keepExpr { o with cache := false } x t
        pure t) w.2
      (fun t s₁ t' s₁' => (simulation place b o).Found c [] w (s₁, s₁') t t') Failure.Alike := by
  have hS' : S' <:+ c.telescope := (List.suffix_cons _ _).trans hsuf
  have hpl := hS.suffix hsuf
  have hfresh := Fresh.value h.ready hsuf hnodup hx
  have hrun {Γ' : Context} {s' : Checker.State} {p : Nat} (hp : Partner place b S' c.left Γ' s')
      (hm : 2 * (v.size + Telescope.weight S') ≤ p) :
      Pairs (v.inferBy Ty.conform { o with cache := true } n c.left) w.1
        (v.inferBy Ty.conform { o with cache := false } p Γ') s'
        (fun t s₁ t' s₁' => After place b o S' c.left Γ' v.lets w.1 s' s₁ s₁' ∧
          Ty.TwinAt b s₁.supply s₁'.supply t t') Failure.Alike := by
    have hlook : Looks place b o .infer ⟨S', c.left, Γ'⟩ (w.1, s') v v n p :=
      ⟨rfl, hpl.2.2, hpl.1, ⟨h.ready.suffix hS', hp⟩, hfresh, hn, hm⟩
    refine (infer hlook w.1 s' rfl).mono (fun _ _ _ _ h₁ => ?_) fun _ _ h => h
    obtain ⟨_, rfl, h₁⟩ := h₁
    exact ⟨h₁.ran, h₁.types⟩
  refine (hrun (h.partner.suffix hS') hn').with_left.bind fun t s₁ t' s₁' h₁ => ?_
  obtain ⟨hleft, hafter, htwin⟩ := h₁
  -- any other run of the second checker goes along with the same run of the first
  have hconf : Confirms place b o S' c.left v t := by
    intro Γ'' s'' p hp hm
    refine ((hrun hp hm).ends_of_ok hleft).mono (fun t'' s₁'' h₂ => ?_) id
    exact ⟨h₂.2.twin, h₂.2.below', h₂.1.partner, h₂.1.right⟩
  exact .ok rfl rfl ⟨.keep h hsuf hnodup hafter htwin.below hconf, htwin⟩

end

/-- A name: its type is in the context, in the table, or is that of its definition. -/
theorem var_follows {x : Ident} {l : Option Location}
    (infer : (simulation place b o).Infers { o with cache := true } { o with cache := false } n)
    (hat : Looks place b o .infer c w (.var x l) e' (n + 1) (n' + 1)) :
    (simulation place b o).Follows w
      ((Expr.var x l).inferRule (.within Ty.conform { o with cache := true } n) c.left)
      ((Expr.var x l).inferRule (.within Ty.conform { o with cache := false } n') c.right)
      ((simulation place b o).Found c [] w) := by
  have h := hat.inStep
  obtain ⟨d, S', hl, hd, hsuf⟩ := hat.placed
  refine follows ?_
  cases d with
  | exprVar y u =>
    obtain rfl : y = x.name := hd
    obtain ⟨t, ht⟩ := h.ready.covers _ _ hsuf
    obtain ⟨t', ht', htwin, hbelow⟩ := h.partner.twin hsuf ht
    refine .bind (.of_ends (Check.found_ends (Context.find_eq ht))
      (Check.found_ends (Context.find_eq ht'))) fun _ _ _ _ hfound => ?_
    obtain ⟨⟨rfl, rfl⟩, rfl, rfl⟩ := hfound
    exact .pure ⟨.refl h, htwin, h.ready.below hsuf ht, hbelow⟩
  | exprDef y v =>
    obtain rfl : y = x.name := hd
    have hw := (Expr.Visits.value l hsuf).weight_lt
    refine .bind (.of_ends (Check.found_ends (Context.find_eq (h.ready.covers _ _ hsuf)))
      (Check.found_ends (Context.find_eq (h.partner.covers _ _ hsuf)))) fun _ _ _ _ hfound => ?_
    obtain ⟨⟨rfl, rfl⟩, rfl, rfl⟩ := hfound
    refine .bind (.of_ends .get .get) fun _ _ _ _ hget => ?_
    obtain ⟨⟨rfl, rfl⟩, rfl, rfl⟩ := hget
    -- the second checker keeps nothing, so that it always infers the type again
    rw [h.partner.blank]
    cases ht : w.1.exprs.get? x.name with
    | some t => exact cached_pairs h hsuf ht (hat.right.smaller hw .infer)
    | none =>
      exact uncached_pairs infer hat.scope h hsuf hat.fresh.nodup ht (hat.left.smaller hw .infer)
        (hat.right.smaller hw .infer)
  | _ => cases hl

/-! ## The laws -/

/-- A checker that keeps types and one that does not go through a program side by side. -/
theorem lawful (hb : ∀ x : Name, place x ≠ [] → x.id < b) :
    (simulation place b o).Lawful { o with cache := true } { o with cache := false } where
  refl h := After.refl h
  trans h h₁ hx hy := After.trans h h₁ hx hy
  ran_in h := After.toInStep h
  types_ran h ht := Ty.TwinAt.mono ht (After.left h) (After.right h)
  written_ran _ ht := ht
  at_in h := Looks.inStep h
  at_ran h h₁ := Looks.after h h₁
  form h := Looks.same h ▸ .refl _
  zero h := absurd (Looks.bounds_pos h).1 (Nat.lt_irrefl 0)
  succ h := Nat.exists_eq_succ_of_ne_zero (Nat.ne_of_gt (Looks.bounds_pos h).2)
  inferred h := { h with left := Nat.le_of_lt_succ h.left, right := Nat.le_of_lt_succ h.right }
  ann h := by
    cases Looks.same h
    exact Looks.visit h (.ann _ _ _ _) h.inStep ⟨h.fresh.nodup, h.fresh.uncached⟩ .check
  first h hf hf' := Looks.first h hf hf'
  argument h h₁ := by
    cases Looks.same h
    exact Looks.visit h (.argument _ _ _ _) (After.toInStep h₁) (h.fresh.app_right h₁) .check
  letIn h := by
    cases Looks.same h
    exact Looks.letIn h
  typeIn h := by
    cases Looks.same h
    exact Looks.opens h (.typeIn _ _ _ _ _)
      (h.inStep.defineType (h.scope.not_mem h.placed.2.1) _) (fun _ _ => rfl)
      ⟨h.fresh.nodup, h.fresh.uncached⟩ (List.Subset.refl _)
  kindIn h := by
    cases Looks.same h
    exact Looks.opens h (.kindIn _ _ _ _ _)
      (h.inStep.defineKind (h.scope.not_mem h.placed.2.1) _) (fun _ _ => rfl)
      ⟨h.fresh.nodup, h.fresh.uncached⟩ (List.Subset.refl _)
  lam h ht := by
    cases Looks.same h
    exact Looks.lam h ht
  relabeled ht := by
    obtain ⟨ρ, rfl⟩ := (Ty.TwinAt.twin ht).relabeled
    exact ⟨ρ.perm, ρ.value, rfl⟩
  conform_iff ht hu := (Ty.TwinAt.twin ht).conform_iff (Ty.TwinAt.twin hu)
  written h ht := by
    obtain ⟨rfl, ht⟩ := ht
    exact .refl ht h.ready.le h.partner.le
  int _ := ⟨rfl, fun x hx => by cases hx⟩
  bound j h _ := by
    cases Looks.same h
    refine ⟨rfl, fun y hy => ?_⟩
    rw [List.mem_singleton.1 hy]
    refine hb _ ?_
    rw [h.placed.2.1]
    exact List.cons_ne_nil _ _
  arrow h ht hu := by
    obtain ⟨rfl, ht⟩ := ht
    exact .arrow ht h.ready.le h.partner.le hu .star
  arrow_inv h := by
    obtain ⟨_, _, heq, ht, hu⟩ := Ty.TwinAt.arrow_inv h
    obtain ⟨rfl, rfl, -⟩ := Ty.arrow.inj heq
    exact ⟨ht, hu⟩
  all h hx ht := by
    obtain ⟨heq, hx⟩ := hx
    cases heq
    exact .bind (hx _ List.mem_cons_self) h.ready.le h.partner.le ht .all _ .star
  enter e e' h := grows_follows h (Check.enter_grows h.ready.keeps e)
    (Check.enter_grows h.partner.keeps e')
  note step step' h := grows_follows h (Check.note_grows h.ready.keeps step)
    (Check.note_grows h.partner.keeps step')
  normalize h ht := normalize_follows h ht
  subst h ht ha := by
    obtain ⟨rfl, ha⟩ := ha
    exact subst_follows h ht ha
  type k hat hu hu' h := by
    cases Looks.same hat
    cases hu.unique hu'
    exact type_follows hb k hat hu h
  kind h := by
    cases Looks.same h
    exact Looks.kind h
  var infer h := by
    cases Looks.same h
    exact var_follows infer h

end

end Memo

/-! ## Whole programs -/

namespace Expr

theorem inferNormal_pairs {e r : Expr} {c : Int} (h : e.rename {} 1 = .ok r c)
    (o : Checker.Options) (tr tr' : Trace) :
    Pairs (r.inferNormal Ty.conform { o with cache := true }) { supply := c, trace := tr }
      (r.inferNormal Ty.conform { o with cache := false }) { supply := c, trace := tr' }
      (fun t _ t' _ => t.AlphaEq t' ∧ t.print = t'.print) Failure.Alike := by
  obtain ⟨place, hplace, hb⟩ := exists_placed_below h
  have hno {d : Decl} {S : Telescope} (hd : d :: S <:+ []) : False := by simp at hd
  have hstart : Memo.InStep place c o [] {} {} { supply := c, trace := tr }
      { supply := c, trace := tr' } :=
    ⟨⟨.nil _, .start c tr, Int.le_refl _, fun hd => (hno hd).elim, fun hd => (hno hd).elim,
      fun hd => (hno hd).elim⟩,
      ⟨.nil _, .start c tr', Int.le_refl _, fun _ => rfl, fun hd => (hno hd).elim⟩⟩
  have hfresh : Memo.Fresh [] r { supply := c, trace := tr } :=
    ⟨by simpa [Telescope.lets] using nodup_lets h, fun _ _ => rfl⟩
  have hn : 2 * (r.size + Telescope.weight []) ≤ Context.reach {} r.size := by
    unfold Context.reach Telescope.weight
    omega
  have hlook : Memo.Looks place c o .infer ⟨[], {}, {}⟩
      ({ supply := c, trace := tr }, { supply := c, trace := tr' }) r r (Context.reach {} r.size)
      (Context.reach {} r.size) :=
    ⟨rfl, trivial, hplace, hstart, hfresh, hn, hn⟩
  refine ((Memo.lawful hb).inferNormal hlook _ _ rfl).mono (fun t _ t' _ h₁ => ?_) fun _ _ h => h
  obtain ⟨_, -, h₁⟩ := h₁
  have htwin : Ty.Twin c t t' := (Ty.TwinAt.twin h₁.types)
  exact ⟨htwin.alphaEq, htwin.print_eq.symm⟩

end Expr

/-- Whether the checker keeps what it has found for definitions does not matter: it has the same
outcome for every program, with every fuel, depth and order of normalization, traced or not. -/
theorem Expr.typeOf_cache_irrelevant (o : Checker.Options) (e : Expr) (tr tr' : Trace) :
    Checker.SameOutcome (e.typeOf { o with cache := true } tr).1
      (e.typeOf { o with cache := false } tr').1 := by
  cases h : e.rename {} 1 with
  | error u c =>
    have hfail (o : Checker.Options) (tr : Trace) : (e.typeOf o tr).1 = .error u.failure := by
      rw [typeOf, typeOfBy, EStateM.run, h]
    rw [hfail, hfail]
    exact .of_cause rfl
  | ok r c => exact .of_pairs h h (inferNormal_pairs h o tr tr')

end SystemFOmega
