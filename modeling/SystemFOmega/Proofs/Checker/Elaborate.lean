import SystemFOmega.Proofs.Checker.Core
import SystemFOmega.Proofs.Core.Equiv

/-!
# Elaboration decides kinding

At a place of a program, the core type of a surface type stands for it: it is convertible to the
expansion of the surface type and has the same kind (`Ty.Stands`). If there is no core type, then
the expansion has no kind (`TypeExpr.Placed.decided`).

* `Ty.Stands`: a core type stands for a surface type.
* `Ty.OfExpr`: a core type is a type of an expression.
-/

namespace SystemFOmega

open Run
open Nameless (Kinded Conv)
open Term (HasType)

/-- At the place `S`, the core type `t` stands for the surface type `u`: it is convertible to the
expansion of `u`, and both have the kind `k`. -/
structure Ty.Stands (S : Telescope) (u : TypeExpr) (k : Kind) (t : Ty) : Prop where
  conv : Conv (t.within S) (u.expand S.env)
  kinded : Kinded S.kinds (t.within S) k
  expanded : Kinded S.kinds (u.expand S.env) k

/-- At the place `S`, the core type `t` is a type of the expansion of `e`. -/
def Ty.OfExpr (S : Telescope) (e : Expr) (t : Ty) : Prop :=
  HasType S.kinds S.types (e.expand S.env) (t.within S)

section

variable {place : Name → Telescope} {S S' : Telescope}

/-- What stands for a type at a place does so in every scope inside of it. -/
theorem Ty.Stands.weaken {u : TypeExpr} {k : Kind} {t : Ty} (h : t.Stands S' u k)
    (hu : u.Placed place S') (hS : S.Placed place) (hS' : S' <:+ S) : t.Stands S u k := by
  obtain ⟨ξ, ζ, he⟩ := hS.embeds hS'
  refine ⟨?_, ?_, ?_⟩
  · rw [he.within h.kinded, he.expand_type hu]
    exact h.conv.rename ξ
  · rw [he.within h.kinded]
    exact he.kinded_iff.2 h.kinded
  · rw [he.expand_type hu]
    exact he.kinded_iff.2 h.expanded

theorem Ty.OfExpr.weaken {e : Expr} {t : Ty} (h : t.OfExpr S' e) (hp : e.Placed place S')
    (hS : S.Placed place) (hS' : S' <:+ S) : t.OfExpr S e := by
  obtain ⟨ξ, ζ, he⟩ := hS.embeds hS'
  rw [Ty.OfExpr, he.within h.kinded, he.expand_expr hp]
  exact he.hasType h

end

section

variable {place : Name → Telescope} {S S' : Telescope} {x : Name}

/-! ## What names in scope stand for -/

/-- A type variable stands for itself. -/
theorem Telescope.Placed.typeVar_stands (hS : S.Placed place) {x : Ident} {k : KindExpr}
    (h : .typeVar x.name k :: S' <:+ S) :
    (Ty.var x.name (k.expand S'.env)).Stands S (.var x) (k.expand S'.env) := by
  have hx : (TypeExpr.var x).Placed place (.typeVar x.name k :: S') := .refl (.typeVar x.name k) S'
  refine .weaken ?_ hx hS h
  have henv : (TypeExpr.var x).expand (Telescope.env (.typeVar x.name k :: S')) =
      .var (.bound 0) := by
    simp [TypeExpr.expand, Telescope.env, Env.extend, Env.bindType]
  have hvar : (Ty.var x.name (k.expand S'.env)).within (.typeVar x.name k :: S') =
      .var (.bound 0) := by
    simp [Ty.within, Ty.nameless, Nameless.rename, Telescope.ref]
  refine ⟨?_, ?_, ?_⟩
  · rw [hvar, henv]
    exact .refl _
  · rw [hvar]
    exact .var rfl
  · rw [henv]
    exact .var rfl

/-- A defined type stands for what its definition stands for. -/
theorem Telescope.Placed.typeDef_stands (hS : S.Placed place) {x : Ident} {u : TypeExpr} {k : Kind}
    {t : Ty} (h : .typeDef x.name u :: S' <:+ S) (ht : t.Stands S' u k) :
    t.Stands S (.var x) k := by
  have hx : (TypeExpr.var x).Placed place (.typeDef x.name u :: S') := .refl (.typeDef x.name u) S'
  refine .weaken ?_ hx hS h
  have henv : (TypeExpr.var x).expand (Telescope.env (.typeDef x.name u :: S')) =
      u.expand S'.env := Function.update_self ..
  refine ⟨?_, ht.kinded, ?_⟩
  · rw [henv]
    exact ht.conv
  · rw [henv]
    exact ht.expanded

/-- A defined type has a kind where its definition has one. -/
theorem Telescope.Placed.kinded_of_typeDef (hS : S.Placed place) {x : Ident} {u : TypeExpr}
    {k : Kind} (h : .typeDef x.name u :: S' <:+ S)
    (hk : Kinded S.kinds ((TypeExpr.var x).expand S.env) k) :
    Kinded S'.kinds (u.expand S'.env) k := by
  obtain ⟨ξ, ζ, he⟩ := hS.embeds h
  have hx : (TypeExpr.var x).Placed place (.typeDef x.name u :: S') := .refl (.typeDef x.name u) S'
  have henv : (TypeExpr.var x).expand (Telescope.env (.typeDef x.name u :: S')) =
      u.expand S'.env := Function.update_self ..
  rw [he.expand_type hx, henv] at hk
  exact he.kinded_iff.1 hk

/-! ## What types stand for -/

theorem Ty.Stands.arrow {t u : TypeExpr} {t' u' : Ty} (ht : t'.Stands S t .star)
    (hu : u'.Stands S u .star) : (Ty.arrow t' u' .star).Stands S (.arrow t u) .star :=
  ⟨ht.conv.arrow hu.conv, .arrow ht.kinded hu.kinded, .arrow ht.expanded hu.expanded⟩

theorem Ty.Stands.all {x : Ident} {k : KindExpr} {t : TypeExpr} {t' : Ty}
    (ht : t'.Stands (.typeVar x.name k :: S) t .star) :
    (Ty.bind .all x.name (k.expand S.env) t' .star).Stands S (.bind .all x k t) .star := by
  refine ⟨?_, ?_, .all ht.expanded⟩
  · rw [Ty.within_bind _ _ _ _ _ _ k]
    exact .bind _ _ ht.conv
  · rw [Ty.within_bind _ _ _ _ _ _ k]
    exact .all ht.kinded

theorem Ty.Stands.lam {x : Ident} {k : KindExpr} {l : Kind} {t : TypeExpr} {t' : Ty}
    (ht : t'.Stands (.typeVar x.name k :: S) t l) :
    (Ty.bind .lam x.name (k.expand S.env) t' (.arrow (k.expand S.env) l)).Stands S
      (.bind .lam x k t) (.arrow (k.expand S.env) l) := by
  refine ⟨?_, ?_, .lam ht.expanded⟩
  · rw [Ty.within_bind _ _ _ _ _ _ k]
    exact .bind _ _ ht.conv
  · rw [Ty.within_bind _ _ _ _ _ _ k]
    exact .lam ht.kinded

theorem Ty.Stands.app {f a : TypeExpr} {j k : Kind} {f' a' : Ty} (hf : f'.Stands S f (.arrow j k))
    (ha : a'.Stands S a j) : (Ty.app f' a' k).Stands S (.app f a) k :=
  ⟨hf.conv.app ha.conv, .app hf.kinded ha.kinded, .app hf.expanded ha.expanded⟩

theorem Ty.Stands.ascribe {t : TypeExpr} {k : KindExpr} {t' : Ty}
    (ht : t'.Stands S t (k.expand S.env)) : t'.Stands S (.kinded t k) (k.expand S.env) :=
  ⟨ht.conv.trans (Nameless.ascribe_conv _ _).symm, ht.kinded,
    Nameless.kinded_ascribe_iff.2 ⟨rfl, ht.expanded⟩⟩

/-! ## Types with and without a kind -/

/-- The outcome of an elaboration is right for the surface type at the place `S`: a core type stands
for it, and if there is none, then it has no kind. -/
def TypeExpr.Decided (S : Telescope) (u : TypeExpr) : Except Failure.Cause Ty → Prop
  | .ok t => t.Stands S u t.kind
  | .error _ => ¬ ∃ k, Kinded S.kinds (u.expand S.env) k

/-- A core type that stands for a surface type carries the kind `k`, or the surface type does not
have it. -/
theorem Ty.Stands.requireKind_cases {u : TypeExpr} {t : Ty} (h : t.Stands S u t.kind) (k : Kind) :
    (t.requireKind k = .ok t ∧ t.Stands S u k ∧ t.kind = k) ∨
      ∃ c, t.requireKind k = .error c ∧ ¬ Kinded S.kinds (u.expand S.env) k := by
  cases hreq : t.requireKind k with
  | ok t' =>
    obtain ⟨rfl, rfl⟩ := Ty.requireKind_ok.1 hreq
    exact .inl ⟨rfl, h, rfl⟩
  | error c =>
    refine .inr ⟨c, rfl, fun hk => ?_⟩
    rw [Ty.requireKind_ok.2 ⟨h.expanded.unique hk, rfl⟩] at hreq
    cases hreq

namespace TypeExpr.Decided

variable {u w : TypeExpr} {r : Except Failure.Cause Ty} {g : Ty → Except Failure.Cause Ty}

theorem weaken (h : u.Decided S' r) (hu : u.Placed place S') (hS : S.Placed place)
    (hS' : S' <:+ S) : u.Decided S r := by
  cases r with
  | ok t => exact Ty.Stands.weaken h hu hS hS'
  | error c =>
    rintro ⟨k, hk⟩
    obtain ⟨ξ, ζ, he⟩ := hS.embeds hS'
    rw [he.expand_type hu] at hk
    exact h ⟨k, he.kinded_iff.1 hk⟩

/-- The core type of a part is used in a type. -/
theorem bind (h : u.Decided S r) (hg : ∀ t, t.Stands S u t.kind → w.Decided S' (g t))
    (hno : (¬ ∃ k, Kinded S.kinds (u.expand S.env) k) →
      ¬ ∃ k, Kinded S'.kinds (w.expand S'.env) k) : w.Decided S' (r >>= g) := by
  cases r with
  | ok t => exact hg t h
  | error c => exact hno h

/-- The core type of a part, which must have the kind `k`, is used in a type. -/
theorem bind_requireKind {k : Kind} (h : u.Decided S r)
    (hg : ∀ t, t.Stands S u k → t.kind = k → w.Decided S' (g t))
    (hno : ¬ Kinded S.kinds (u.expand S.env) k → ¬ ∃ k, Kinded S'.kinds (w.expand S'.env) k) :
    w.Decided S' (r >>= fun t => t.requireKind k >>= g) := by
  refine h.bind (fun t ht => ?_) fun hu => hno fun hk => hu ⟨k, hk⟩
  obtain ⟨hok, hst, hk⟩ | ⟨c, herr, hnk⟩ := ht.requireKind_cases k
  · rw [hok]
    exact hg t hst hk
  · rw [herr]
    exact hno hnk

/-- A surface type without a core type of the kind `k` does not have it. -/
theorem coreOf_error {k : Kind} {c : Failure.Cause} (h : u.Decided S (u.coreAt S))
    (hc : u.coreOf S k = .error c) : ¬ Kinded S.kinds (u.expand S.env) k := by
  rcases except_bind_error.1 hc with hc | ⟨t, ht, hc⟩
  · rw [hc] at h
    exact fun hk => h ⟨k, hk⟩
  · rw [ht] at h
    obtain ⟨hok, -⟩ | ⟨-, -, hnk⟩ := Ty.Stands.requireKind_cases h k
    · cases hok.symm.trans hc
    · exact hnk

end TypeExpr.Decided

/-- The core types of the names in scope are right. -/
def Telescope.Decided (S : Telescope) : Prop :=
  ∀ x : Ident, S.Has .type x.name → (TypeExpr.var x).Decided S (S.cores x.name)

/-- Into the scope of a declaration. -/
theorem Telescope.Decided.cons (h : S.Decided) {d : Decl} (hS : Telescope.Placed place (d :: S))
    (hd : ∀ x : Ident, d.level = .type → d.name = x.name →
      (TypeExpr.var x).Decided (d :: S) (cores (d :: S) x.name)) : Telescope.Decided (d :: S) := by
  intro x hx
  rcases hx.cons_inv with ⟨hl, hname⟩ | hx
  · exact hd x hl.symm hname.symm
  · have hne : x.name ≠ d.name := by
      intro hname
      exact hS.2.2.not_mem hS.2.1 (hname ▸ hx.mem)
    rw [cores_cons_of_ne hne]
    have hplaced : (TypeExpr.var x).Placed place S := hx
    exact (h x hx).weaken hplaced hS (List.suffix_cons _ _)

theorem Telescope.Decided.bindType (h : S.Decided) {k : KindExpr}
    (hS : Telescope.Placed place (.typeVar x k :: S)) :
    Telescope.Decided (.typeVar x k :: S) := by
  refine h.cons hS fun y _ hy => ?_
  obtain rfl : x = y.name := hy
  rw [cores, Function.update_self]
  exact hS.typeVar_stands List.suffix_rfl

theorem TypeExpr.core_decided {u : TypeExpr} (hS : S.Placed place) (hcores : S.Decided)
    (hu : u.Placed place S) : u.Decided S (u.coreAt S) := by
  induction u generalizing S with
  | int => exact ⟨.refl _, .int, .int⟩
  | var x => exact hcores x hu
  | arrow t u iht ihu =>
    refine (iht hS hcores hu.1).bind_requireKind (fun t' ht _ => ?_)
      fun hno ⟨_, hk⟩ => hno hk.arrow_inv.1
    refine (ihu hS hcores hu.2).bind_requireKind (fun u' hu' _ => ?_)
      fun hno ⟨_, hk⟩ => hno hk.arrow_inv.2
    exact ht.arrow hu'
  | bind b x k t ih =>
    have hS' : Telescope.Placed place (.typeVar x.name k :: S) := ⟨hu.1, hu.2.1, hS⟩
    have hbody := ih hS' (hcores.bindType hS') hu.2.2
    cases b with
    | all =>
      refine hbody.bind_requireKind (fun t' ht _ => ?_) fun hno ⟨_, hk⟩ => hno hk.all_inv
      exact ht.all
    | lam =>
      refine hbody.bind (fun t' ht => ?_) fun hno ⟨_, hk⟩ => hno hk.lam_inv
      exact ht.lam
  | app f a ihf iha =>
    refine (ihf hS hcores hu.1).bind (fun f' hf => ?_) ?_
    · -- the kind of the function is the only one that it has in the declarative rules
      cases hk : f'.kind with
      | star =>
        rintro ⟨_, hk'⟩
        obtain ⟨_, hf', -⟩ := hk'.app_inv
        cases hk.symm.trans (hf.expanded.unique hf')
      | arrow j k =>
        rw [hk] at hf
        refine (iha hS hcores hu.2).bind_requireKind (fun a' ha _ => hf.app ha) ?_
        rintro hno ⟨_, hk'⟩
        obtain ⟨_, hf', ha'⟩ := hk'.app_inv
        obtain ⟨rfl, -⟩ := Kind.arrow.inj (hf.expanded.unique hf')
        exact hno ha'
    · rintro hno ⟨_, hk⟩
      obtain ⟨_, hf, -⟩ := hk.app_inv
      exact hno ⟨_, hf⟩
  | kinded t k ih =>
    refine (ih hS hcores hu.1).bind (fun t' ht => ?_) fun hno ⟨_, hk⟩ => ?_
    · obtain ⟨hok, hst, hk⟩ | ⟨c, herr, hnk⟩ := ht.requireKind_cases (k.expand S.env)
      · rw [hok, Decided, hk]
        exact hst.ascribe
      · rw [herr]
        exact fun ⟨_, hk⟩ => hnk (Nameless.kinded_ascribe_iff.1 hk).2
    · exact hno ⟨_, (Nameless.kinded_ascribe_iff.1 hk).2⟩

theorem Telescope.Placed.decided (hS : S.Placed place) : S.Decided := by
  induction S with
  | nil =>
    intro x hx
    obtain ⟨d, S', -, -, hsuf⟩ := hx
    exact absurd hsuf.length_le (by simp)
  | cons d S ih =>
    have hcores := ih hS.2.2
    refine hcores.cons hS fun x hl hx => ?_
    cases d with
    | typeVar y k =>
      obtain rfl : y = x.name := hx
      exact hcores.bindType hS x (.refl _ _)
    | typeDef y u =>
      obtain rfl : y = x.name := hx
      rw [cores, Function.update_self]
      have hdef : u.Decided S (u.core (env S) (cores S)) := u.core_decided hS.2.2 hcores hS.1
      cases hr : u.core (env S) (cores S) with
      | ok t =>
        rw [hr] at hdef
        exact hS.typeDef_stands List.suffix_rfl hdef
      | error c =>
        rw [hr] at hdef
        rintro ⟨k, hk⟩
        exact hdef ⟨k, hS.kinded_of_typeDef List.suffix_rfl hk⟩
    | _ => cases hl

/-- At a place of a program, the core type of a surface type stands for it, and if there is none,
then the expansion has no kind. -/
theorem TypeExpr.Placed.decided {u : TypeExpr} (hu : u.Placed place S) (hS : S.Placed place) :
    u.Decided S (u.coreAt S) := u.core_decided hS hS.decided hu

theorem TypeExpr.Placed.stands {u : TypeExpr} {t : Ty} (hu : u.Placed place S) (hS : S.Placed place)
    (h : u.coreAt S = .ok t) : t.Stands S u t.kind := by
  have hdec := hu.decided hS
  rw [h] at hdec
  exact hdec

end

end SystemFOmega
