import SystemFOmega.Checker.Typing
import SystemFOmega.Proofs.Checker.Elaborate
import SystemFOmega.Proofs.Checker.Steps
import SystemFOmega.Proofs.Core.Normalize

/-!
# The checker's rules and the typing rules

What each rule of the checker puts together is a type of the expansion (`Ty.OfExpr.app`,
`Ty.OfExpr.tapp` and so on). A bound variable has a type that stands for the written one, a defined
name has the type of its definition, and the body of a type abstraction may be looked at under
another name (`Ty.within_rebind`). What the steps of the checker do to types and tables is said here
as well, for runs that end well.
-/

namespace SystemFOmega

open Run
open Nameless (Kinded Conv)
open Term (HasType)

/-! ## Normal forms at a place -/

/-- The type `t'` is the normal form of `t`. -/
structure Ty.Normalizes (t t' : Ty) : Prop where
  steps : Nameless.Steps t.nameless t'.nameless
  normal : Nameless.Normal t'.nameless

theorem Ty.Normalizes.of_normalizesBy {o : Checker.Options} {t t' : Ty} (h : t.NormalizesBy o t') :
    t.Normalizes t' := by
  obtain ⟨c, n, h⟩ := h
  exact ⟨(normalize_sound h).1, (normalize_sound h).2⟩

theorem Ty.Normalizes.conv {t t' : Ty} (h : t.Normalizes t') (S : Telescope) :
    Conv (t.within S) (t'.within S) := .of_steps (h.steps.rename S.ref)

theorem Ty.Normalizes.kinded {t t' : Ty} {S : Telescope} {k : Kind} (h : t.Normalizes t')
    (hk : Kinded S.kinds (t.within S) k) : Kinded S.kinds (t'.within S) k :=
  hk.steps (h.steps.rename S.ref)

theorem Ty.AlphaEq.within_eq {s t : Ty} (h : s.AlphaEq t) (S : Telescope) :
    s.within S = t.within S := congrArg (Nameless.rename S.ref) h

/-- A type in a substitution instance of a body is put for the binder. -/
theorem Ty.within_subst (S : Telescope) (t : Ty) (x : Name) (a : Ty) (c : Int) (j : KindExpr) :
    (t.subst x a c).1.within S = (t.within (.typeVar x j :: S)).inst (a.within S) := by
  rw [Ty.within, Ty.nameless_subst_eq_inst, Nameless.rename_inst, Nameless.rename_rename]
  rfl

/-- A body may be looked at under another name that is not in scope. -/
theorem Ty.within_rebind {S : Telescope} {b : Binder} {x y : Name} {k yk l l' : Kind} {t : Ty}
    (hx : x ∉ S.names) (h : Kinded S.kinds ((Ty.bind b y yk t l).within S) l') (c : Int)
    (j : KindExpr) :
    (t.subst y (.var x k) c).1.within (.typeVar x j :: S) = t.within (.typeVar y j :: S) := by
  have hclose : (t.nameless.subst (Nameless.put y (.var (.free x)))).rename (Ref.close x) =
      t.nameless.rename (Ref.close y) := by
    by_cases hxy : x = y
    · subst hxy
      congr 1
      refine Eq.trans (Nameless.subst_congr fun r _ => ?_) (Nameless.subst_var _)
      by_cases hr : r = .free x
      · rw [hr, Nameless.put_self]
      · exact Nameless.put_of_ne hr
    · refine Nameless.close_put_var fun hu => hx (Ty.freeVars_subset h ?_)
      exact List.mem_filter.2 ⟨Ty.uses_nameless_free.1 hu, by simpa using hxy⟩
  rw [Ty.within, Ty.nameless_subst, Telescope.ref, ← Nameless.rename_rename]
  exact (congrArg _ hclose).trans (Nameless.rename_rename ..)

/-- The body of a universal type has its kind when the bound name is replaced by a new one. -/
theorem Ty.kinded_rebind {S : Telescope} {x y : Name} {k : KindExpr} {j l : Kind} {t : Ty}
    (hx : x ∉ S.names)
    (h : Kinded S.kinds ((Ty.bind .all y (k.expand S.env) t l).within S) .star) (c : Int) :
    Kinded (Telescope.kinds (.typeVar x k :: S))
      ((t.subst y (.var x j) c).1.within (.typeVar x k :: S)) .star := by
  rw [Ty.within_rebind hx h]
  rw [Ty.within_bind _ _ _ _ _ _ k] at h
  exact h.all_inv

section

variable {place : Name → Telescope} {S S' : Telescope}

/-! ## Types that stand for types -/

theorem Ty.Stands.normalizes {u : TypeExpr} {k : Kind} {t t' : Ty} (h : t.Stands S u k)
    (hn : t.Normalizes t') : t'.Stands S u k :=
  ⟨(hn.conv S).symm.trans h.conv, hn.kinded h.kinded, h.expanded⟩

theorem Ty.Stands.alphaEq {u : TypeExpr} {k : Kind} {t t' : Ty} (h : t.Stands S u k)
    (he : t.AlphaEq t') : t'.Stands S u k := by
  refine ⟨?_, ?_, h.expanded⟩
  · rw [← he.within_eq S]
    exact h.conv
  · rw [← he.within_eq S]
    exact h.kinded

/-! ## Types of expressions -/

namespace Ty.OfExpr

/-- An expression has each well-kinded type that is convertible to one of its own. -/
theorem conv {e : Expr} {t t' : Ty} (h : t.OfExpr S e) (hc : Conv (t.within S) (t'.within S))
    (hk : Kinded S.kinds (t'.within S) .star) : t'.OfExpr S e := HasType.conv h hc hk

theorem normalizes {e : Expr} {t t' : Ty} (h : t.OfExpr S e) (hn : t.Normalizes t') :
    t'.OfExpr S e := h.conv (hn.conv S) (hn.kinded h.kinded)

/-- An expression of the normal form of a type is one of the type. -/
theorem of_normalizes {e : Expr} {t t' : Ty} (h : t'.OfExpr S e) (hn : t.Normalizes t')
    (hk : Kinded S.kinds (t.within S) .star) : t.OfExpr S e := h.conv (hn.conv S).symm hk

theorem alphaEq {e : Expr} {t t' : Ty} (h : t.OfExpr S e) (he : t.AlphaEq t') :
    t'.OfExpr S e := by
  rw [OfExpr, ← he.within_eq S]
  exact h

theorem ann {e : Expr} {u : TypeExpr} {t : Ty} {l : Option Location} (ht : t.Stands S u .star)
    (h : t.OfExpr S e) : t.OfExpr S (.ann e u l) :=
  HasType.conv (.ann (.conv h ht.conv ht.expanded)) ht.conv.symm ht.kinded

theorem lam {x : Ident} {u : TypeExpr} {e : Expr} {t t' : Ty} {k : Kind} {l : Option Location}
    (ht : t.Stands S u .star) (h : t'.OfExpr (.exprVar x.name u :: S) e) :
    (Ty.arrow t t' k).OfExpr S (.lam x u e l) :=
  HasType.conv (.lam ht.expanded h) (ht.conv.symm.arrow (.refl _)) (.arrow ht.kinded h.kinded)

theorem app {f a : Expr} {t t' : Ty} {k : Kind} {l : Option Location}
    (hf : (Ty.arrow t t' k).OfExpr S f) (ha : t.OfExpr S a) : t'.OfExpr S (.app f a l) :=
  HasType.app hf ha

theorem tlam {x : Ident} {k : KindExpr} {e : Expr} {t : Ty} {l : Kind} {loc : Option Location}
    (h : t.OfExpr (.typeVar x.name k :: S) e) :
    (Ty.bind .all x.name (k.expand S.env) t l).OfExpr S (.tlam x k e loc) := by
  rw [OfExpr, Ty.within_bind _ _ _ _ _ _ k]
  exact .tlam h

/-- A type abstraction with a type that is written with another name. -/
theorem tlam_rebind {x : Ident} {y : Name} {k : KindExpr} {j : Kind} {e : Expr} {t : Ty} {l : Kind}
    {loc : Option Location} {c : Int} (hx : x.name ∉ S.names)
    (hk : Kinded S.kinds ((Ty.bind .all y (k.expand S.env) t l).within S) .star)
    (h : (t.subst y (.var x.name j) c).1.OfExpr (.typeVar x.name k :: S) e) :
    (Ty.bind .all y (k.expand S.env) t l).OfExpr S (.tlam x k e loc) := by
  rw [OfExpr, Ty.within_rebind hx hk] at h
  rw [OfExpr, Ty.within_bind _ _ _ _ _ _ k]
  exact .tlam h

/-- An instance of a universal type, with the argument put in for the bound name. -/
theorem tapp {f : Expr} {u : TypeExpr} {x : Name} {k l : Kind} {t a : Ty} {loc : Option Location}
    (c : Int) (hf : (Ty.bind .all x k t l).OfExpr S f) (ha : a.Stands S u k) :
    (t.subst x a c).1.OfExpr S (.tapp f u loc) := by
  -- the kind of the binder plays no part in where its body is
  rw [OfExpr, Ty.within_bind _ _ _ _ _ _ .star] at hf
  rw [OfExpr, Ty.within_subst _ _ _ _ _ .star]
  have hbody := hf.kinded.all_inv
  exact .conv (.tapp hf ha.expanded) ((Conv.refl _).inst ha.conv.symm) (hbody.inst ha.kinded)

end Ty.OfExpr

/-! ## Names in scope -/

/-- A bound variable has every type that stands for the written one. -/
theorem Telescope.Placed.exprVar_ofExpr (hS : S.Placed place) {x : Ident} {u : TypeExpr} {t : Ty}
    (l : Option Location) (h : .exprVar x.name u :: S' <:+ S) (ht : t.Stands S' u .star) :
    t.OfExpr S (.var x l) := by
  have hx : (Expr.var x l).Placed place (.exprVar x.name u :: S') := .refl (.exprVar x.name u) S'
  refine .weaken ?_ hx hS h
  have henv : (Expr.var x l).expand (Telescope.env (.exprVar x.name u :: S')) =
      .var (.bound 0) := by
    simp [Expr.expand, Telescope.env, Env.extend, Env.bindExpr]
  rw [Ty.OfExpr, henv]
  exact .conv (.var rfl ht.expanded) ht.conv.symm ht.kinded

/-- A defined name has the types of its definition. -/
theorem Telescope.Placed.exprDef_ofExpr (hS : S.Placed place) {x : Ident} {v : Expr} {t : Ty}
    (l : Option Location) (h : .exprDef x.name v :: S' <:+ S) (ht : t.OfExpr S' v) :
    t.OfExpr S (.var x l) := by
  have hx : (Expr.var x l).Placed place (.exprDef x.name v :: S') := .refl (.exprDef x.name v) S'
  refine .weaken ?_ hx hS h
  have henv : (Expr.var x l).expand (Telescope.env (.exprDef x.name v :: S')) =
      v.expand S'.env := Function.update_self ..
  rw [Ty.OfExpr, henv]
  exact ht

/-- A definition has a type where its name is used and has one. -/
theorem Telescope.Placed.hasType_of_exprDef (hS : S.Placed place) {x : Ident} {v : Expr}
    {l : Option Location} {t : Nameless} (h : .exprDef x.name v :: S' <:+ S)
    (ht : HasType S.kinds S.types ((Expr.var x l).expand S.env) t) :
    ∃ u, HasType S'.kinds S'.types (v.expand S'.env) u := by
  obtain ⟨ξ, ζ, he⟩ := hS.embeds h
  have hx : (Expr.var x l).Placed place (.exprDef x.name v :: S') := .refl (.exprDef x.name v) S'
  have henv : (Expr.var x l).expand (Telescope.env (.exprDef x.name v :: S')) =
      v.expand S'.env := Function.update_self ..
  rw [he.expand_expr hx, henv] at ht
  obtain ⟨u, hu, -⟩ := he.of_hasType ht
  exact ⟨u, hu⟩

end

end SystemFOmega
