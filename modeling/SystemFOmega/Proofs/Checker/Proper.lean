import SystemFOmega.Proofs.Checker.Sound
import SystemFOmega.Proofs.Core.NormalForm
import SystemFOmega.Proofs.Surface.Rename

/-!
# The checker gives proper types

A type that the checker gives for a program is closed, of kind `*`, well-kinded at every node and
without redexes (`Expr.typeOf_proper`).

The reason is an invariant of the checker: wherever it is in a program, every type in the context,
in the table of definitions and in its hands is well-kinded in the telescope of that place, and of
kind `*` where it is the type of an expression (`Checker.Discipline.proper`). How types are compared
plays no part in this, for a comparison only decides whether the checker goes on.
-/

namespace SystemFOmega

open Run
open Function (update)

namespace Ty

/-! ## Well-kinded types at a place -/

namespace WellKinded

variable {K : NameKinds} {t : Ty} {k : Kind} {x : Name} {place : Name → Telescope}
  {S S' : Telescope}

theorem mem_names (h : WellKinded S.nameKinds t k) (hx : x ∈ t.freeVars) : x ∈ S.names := by
  obtain ⟨j, hj⟩ := h.exists_kind hx
  clear h hx
  induction S with
  | nil => cases hj
  | cons d S ih =>
    by_cases hd : x = d.name
    · exact hd ▸ List.mem_cons_self
    · exact .tail _ (ih (Telescope.nameKinds_cons_of_ne hd ▸ hj))

/-- A type that is well-kinded at a place is so in every scope inside of it. -/
theorem inside (h : WellKinded S'.nameKinds t k) (hS : S.Placed place) (hS' : S' <:+ S) :
    WellKinded S.nameKinds t k :=
  h.congr fun _ hx => hS.eq_of_suffix Telescope.nameKinds_cons_of_ne hS' (h.mem_names hx)

/-- The body of a universal type, with another name for the bound one that is not in scope. -/
theorem rebind {y : Name} {yk l : Kind} {j : KindExpr} (hx : x ∉ S.names)
    (h : WellKinded S.nameKinds (.bind .all y yk t l) .star) (hj : j.expand S.env = yk) (c : Int) :
    WellKinded (Telescope.nameKinds (.typeVar x j :: S)) (t.subst y (.var x yk) c).1 .star := by
  subst hj
  have hfree {z : Name} (hz : z ∈ t.freeVars) (hzy : z ≠ y) : z ≠ x := by
    rintro rfl
    exact hx (h.mem_names (List.mem_filter.2 ⟨hz, by simpa using hzy⟩))
  cases h with
  | all hbody =>
    refine WellKinded.subst (hbody.congr fun z hz => ?_) (.var (Function.update_self ..)) c
    by_cases hzy : z = y
    · rw [hzy, Function.update_self, Function.update_self]
    · rw [Function.update_of_ne hzy, Function.update_of_ne hzy]
      exact Function.update_of_ne (hfree hz hzy) _ _

/-- A type is put for the bound name of a universal type. -/
theorem inst {a : Ty} {xk l : Kind} (h : WellKinded K (.bind .all x xk t l) .star)
    (ha : WellKinded K a xk) (c : Int) : WellKinded K (t.subst x a c).1 .star := by
  cases h with
  | all hbody => exact hbody.subst ha c

end WellKinded

end Ty

theorem Ty.WellKinded.hasNormal {K : NameKinds} {k : Kind} {o : Nat → Checker.Options} {t t' : Ty}
    (h : t.WellKinded K k) (hn : t.HasNormal o t') : t'.WellKinded K k := by
  obtain ⟨_, c, m, hn⟩ := hn
  exact h.normalize hn

section

variable {place : Name → Telescope} {same : Checker.Comparison} {o : Checker.Options}

/-! ## The invariant -/

namespace Checker.Discipline

/-- Every type is well-kinded in the telescope of its place, and of kind `*` where it is the type of
an expression. -/
def proper : Discipline where
  Fit _ _ := True
  OfExpr S _ t := t.WellKinded S.nameKinds .star
  Expected S _ t := t.WellKinded S.nameKinds .star
  Stands S _ k t := t.WellKinded S.nameKinds k
  Fault _ := True

theorem proper_typing : proper.Typing place same fun _ => o where
  cache _ := rfl
  visit _ _ := trivial
  core h hu hcore := ((hu.placed h.placed).elaborated h.scope hcore).wellKinded
  ofExpr_normal h hn := h.hasNormal hn
  ofExpr_of_normal h _ _ := h
  expected_normal h hn := h.hasNormal hn
  stands_normal h hn := h.hasNormal hn
  lit _ _ _ := .int
  exprVar _ hS hx ht := ht.inside hS ((List.suffix_cons _ _).trans hx)
  exprDef _ hS hx ht := ht.inside hS ((List.suffix_cons _ _).trans hx)
  letIn h := h
  typeIn h := h
  kindIn h := h
  ann_expected _ ht := ht
  ann ht _ := ht
  lam ht h := .arrow ht h
  app_expected _ hf := by
    cases hf with
    | arrow hleft hright => exact hleft
  app hf _ := by
    cases hf with
    | arrow hleft hright => exact hright
  tlam _ h := .all h
  tapp c hf ha := hf.inst ha c
  tlam_expected c h ht := ht.rebind (h.scope.not_mem h.placed.2.1) rfl c
  tlam_accepted _ _ ht _ := ht
  -- the parameter is bound to the expected type, whatever the comparison has accepted
  lam_agreed ht _ _ := by
    cases ht with
    | arrow hleft hright => exact hleft
  lam_expected _ ht := by
    cases ht with
    | arrow hleft hright => exact hright
  lam_accepted ht _ _ := ht
  accepted _ ht _ := ht

end Checker.Discipline

/-! ## Whole programs -/

namespace Expr

theorem inferNormal_proper {r : Expr} {t : Ty} {c : Int} {tr : Trace} {s : Checker.State}
    (hr : r.Placed place []) (h : r.inferNormal same o { supply := c, trace := tr } = .ok t s) :
    t.WellKinded (fun _ => none) .star ∧ t.RedexFree := by
  have hD : Checker.Discipline.proper.Typing place same fun _ => o :=
    Checker.Discipline.proper_typing
  obtain ⟨ht, u, hu⟩ := hD.of_inferNormal (fun _ => trivial) ⟨trivial, hr, trivial⟩ h
  exact ⟨ht, Ty.redexFree_of_normal (Ty.Normalizes.of_normalizesBy hu).normal⟩

/-- What the checker gives for a program, whatever the options, is a proper type: it has kind `*`
and no free names, every node carries the kind that the kinding rules give it, and no type operator
in it is applied. -/
theorem typeOf_proper (e : Expr) (o : Checker.Options) (tr : Trace) (t : Ty)
    (h : (e.typeOf o tr).1 = .ok t) :
    t.kind = .star ∧ t.freeVars = [] ∧ t.WellKinded (fun _ => none) .star ∧ t.RedexFree := by
  cases hr : e.rename {} 1 with
  | error u c =>
    rw [typeOf, typeOfBy, EStateM.run, hr] at h
    cases h
  | ok r c =>
    obtain ⟨place, hplace⟩ := exists_placed hr
    obtain ⟨s, hrun⟩ := (typeOfBy_ok hr).1 h
    obtain ⟨hk, hfree⟩ := inferNormal_proper hplace hrun
    refine ⟨hk.kind_eq, List.eq_nil_iff_forall_not_mem.2 fun x hx => ?_, hk, hfree⟩
    obtain ⟨j, hj⟩ := hk.exists_kind hx
    cases hj

/-- An operator with an alias is applied under a binder of operators: one application goes, and the
other one stays. -/
theorem typeOf_proper_operators :
    let T : Ident := { name := ⟨"T", 0⟩ }
    let Y : Ident := { name := ⟨"Y", 0⟩ }
    let F : Ident := { name := ⟨"F", 0⟩ }
    let G : Ident := { name := ⟨"G", 0⟩ }
    let f : Ident := { name := ⟨"f", 0⟩ }
    let operator := TypeExpr.bind .lam T .star (.bind .all Y .star (.arrow (.var T) (.var Y)))
    let e := typeIn F (.kinded operator (.arrow .star .star)) (tlam G (.arrow .star .star)
      (lam f (.app (.var F) (.app (.var G) .int)) (var f none) none) none) none
    let applied := Ty.app (.var ⟨"G", 4⟩ (.arrow .star .star)) (.int .star) .star
    let side := Ty.bind .all ⟨"Y", 2⟩ .star (.arrow applied (.var ⟨"Y", 2⟩ .star) .star) .star
    let t := Ty.bind .all ⟨"G", 4⟩ (.arrow .star .star) (.arrow side side .star) .star
    (e.typeOf {}).1 = .ok t ∧ t.kind = .star ∧ t.freeVars = [] ∧
      t.WellKinded (fun _ => none) .star ∧ t.RedexFree := by
  intro T Y F G f operator e applied side t
  have h : (e.typeOf {}).1 = .ok t := Run.toOption_eq_some.1 (by decide +kernel)
  exact ⟨h, typeOf_proper e {} _ t h⟩

end Expr

end

end SystemFOmega
