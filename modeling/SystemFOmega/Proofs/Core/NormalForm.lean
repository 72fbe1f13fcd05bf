import SystemFOmega.Proofs.Core.Kinding

/-!
# Normal forms of core types

What normalization gives, for types with a kind and without one:

* `Ty.kinds_preserved`: substitution and normalization keep the kinds of all nodes, and
  normalization brings in no free names;
* `Ty.normalize_fixed`: a normal form has no redex, has the kind of the type it comes from, and is
  its own normal form in both orders. In normal order a visit never finds a type operator where it
  has normalized a head.

The second rests on two facts. A head that `Ty.weakHead` leaves (`Ty.HeadNormal`) stays no operator
when its parts are normalized (`Ty.Neutral.normalizeFrom`). And a type without redexes is visited to
its height (`Ty.height`) and not changed (`Ty.RedexFree.normalizeFrom`), which is no deeper than the
run that has given it went (`Ty.height_normalizeFrom`).
-/

namespace SystemFOmega.Ty

open Function (update)

variable {o : Order} {d : Nat} {c : Int} {t u f : Ty} {s s' : Normalizer}

/-! ## Redexes -/

/-- The type is no type operator. -/
def Neutral (t : Ty) : Prop := ∀ x xk body k, t ≠ .bind .lam x xk body k

/-- No type operator of the type is applied. -/
def RedexFree : Ty → Prop
  | .int _ | .var _ _ => True
  | .arrow s t _ => s.RedexFree ∧ t.RedexFree
  | .bind _ _ _ t _ => t.RedexFree
  | .app f a _ => (∀ x xk t k, f ≠ .bind .lam x xk t k) ∧ f.RedexFree ∧ a.RedexFree

theorem redexFree_of_normal {t : Ty} (h : Nameless.Normal t.nameless) : t.RedexFree := by
  induction t with
  | int | var => trivial
  | arrow s t k hs ht =>
    exact ⟨hs fun u hu => h _ (.arrowLeft _ hu), ht fun u hu => h _ (.arrowRight _ hu)⟩
  | bind b x xk t k ht => exact ht fun u hu => h _ (.body _ _ (hu.rename (Ref.close x)))
  | app f a k hf ha =>
    refine ⟨?_, hf fun u hu => h _ (.fn _ hu), ha fun u hu => h _ (.arg _ hu)⟩
    rintro x xk t l rfl
    exact h _ (.beta _ _ _)

/-- The head of the type is no redex, nor is one at the head of its head, and so on. -/
def HeadNormal : Ty → Prop
  | .app f _ _ => f.Neutral ∧ f.HeadNormal
  | _ => True

theorem weakHead_headNormal (h : weakHead d t s = .ok u s') : u.HeadNormal := by
  induction d generalizing t u s s' with
  | zero =>
    cases t with
    | app f a k => exact absurd h Run.throw_ok
    | _ =>
      obtain ⟨rfl, -⟩ := Run.pure_ok.1 h
      trivial
  | succ d ih =>
    cases t with
    | app f a k =>
      obtain ⟨_, s₁, -, h⟩ := Run.bind_ok.1 h
      obtain ⟨f', s₂, hf, h⟩ := Run.bind_ok.1 h
      split at h
      · obtain ⟨r, s₃, -, h⟩ := Run.bind_ok.1 h
        exact ih h
      · rename_i hne
        obtain ⟨rfl, -⟩ := Run.pure_ok.1 h
        exact ⟨hne, ih hf⟩
    | _ =>
      obtain ⟨rfl, -⟩ := Run.pure_ok.1 h
      trivial

/-- A head that is no redex is left as it is. -/
theorem HeadNormal.weakHead_eq (ht : t.HeadNormal) (h : weakHead d t s = .ok u s') : u = t := by
  induction d generalizing t u s s' with
  | zero =>
    cases t with
    | app f a k => exact absurd h Run.throw_ok
    | _ => exact (Run.pure_ok.1 h).1.symm
  | succ d ih =>
    cases t with
    | app f a k =>
      obtain ⟨_, s₁, -, h⟩ := Run.bind_ok.1 h
      obtain ⟨f', s₂, hf, h⟩ := Run.bind_ok.1 h
      rw [ih ht.2 hf] at h
      split at h
      · exact absurd rfl (ht.1 _ _ _ _)
      · exact (Run.pure_ok.1 h).1.symm
    | _ => exact (Run.pure_ok.1 h).1.symm

/-- In normal order, a head that is no operator does not become one. -/
theorem Neutral.normalizeFrom (hf : f.Neutral) (hh : f.HeadNormal)
    (h : normalizeFrom .normal d f s = .ok u s') : u.Neutral := by
  induction d generalizing f u s s' with
  | zero => exact absurd h Run.throw_ok
  | succ d ih =>
    obtain ⟨_, s₁, -, h⟩ := Run.bind_ok.1 h
    obtain ⟨f', s₂, hw, h⟩ := Run.bind_ok.1 h
    rw [hh.weakHead_eq hw] at h
    cases f with
    | int | var =>
      obtain ⟨rfl, -⟩ := Run.pure_ok.1 h
      exact hf
    | arrow v w k =>
      obtain ⟨v', s₃, -, h⟩ := Run.bind_ok.1 h
      obtain ⟨w', s₄, -, h⟩ := Run.bind_ok.1 h
      obtain ⟨rfl, -⟩ := Run.pure_ok.1 h
      exact fun _ _ _ _ e => Ty.noConfusion e
    | bind b x xk v k =>
      obtain ⟨v', s₃, -, h⟩ := Run.bind_ok.1 h
      obtain ⟨rfl, -⟩ := Run.pure_ok.1 h
      rintro y yk body l ⟨⟩
      exact hf x xk v k rfl
    | app g a k =>
      obtain ⟨g', s₃, hg, h⟩ := Run.bind_ok.1 h
      obtain ⟨a', s₄, -, h⟩ := Run.bind_ok.1 h
      have hg' := ih hh.1 hh.2 hg
      split at h
      · exact absurd rfl (hg' _ _ _ _)
      · obtain ⟨rfl, -⟩ := Run.pure_ok.1 h
        exact fun _ _ _ _ e => Ty.noConfusion e

/-! ## Types without redexes are not changed -/

/-- How deep the nodes of a type nest. -/
def height : Ty → Nat
  | .int _ | .var _ _ => 1
  | .arrow s t _ | .app s t _ => max s.height t.height + 1
  | .bind _ _ _ t _ => t.height + 1

/-- A run visits the parts of the type itself, or of what is left when its head is contracted. -/
theorem exists_visit (h : normalizeFrom o (d + 1) t s = .ok u s') :
    ∃ v s₁ s₂, (v = t ∨ weakHead d t s₁ = .ok v s₂) ∧
      visit (normalizeFrom o d) v s₂ = .ok u s' := by
  obtain ⟨_, s₁, -, h⟩ := Run.bind_ok.1 h
  cases o with
  | normal =>
    obtain ⟨v, s₂, hv, h⟩ := Run.bind_ok.1 h
    exact ⟨v, s₁, s₂, .inr hv, h⟩
  | applicative =>
    obtain ⟨v, s₂, hv, h⟩ := Run.bind_ok.1 h
    exact ⟨v, s₁, s₂, .inl (Run.pure_ok.1 hv).1.symm, h⟩

theorem height_pos (t : Ty) : 0 < t.height := by cases t <;> exact Nat.succ_pos _

theorem height_visit {go : Ty → Normalize Ty}
    (hgo : ∀ {t u s s'}, go t s = .ok u s' → u.height ≤ d) (h : visit go t s = .ok u s') :
    u.height ≤ d + 1 := by
  cases t with
  | int | var =>
    obtain ⟨rfl, -⟩ := Run.pure_ok.1 h
    exact Nat.le_add_left 1 d
  | arrow v w k =>
    obtain ⟨v', s₁, hv, h⟩ := Run.bind_ok.1 h
    obtain ⟨w', s₂, hw, h⟩ := Run.bind_ok.1 h
    obtain ⟨rfl, -⟩ := Run.pure_ok.1 h
    exact Nat.succ_le_succ (Nat.max_le.2 ⟨hgo hv, hgo hw⟩)
  | bind b x xk v k =>
    obtain ⟨v', s₁, hv, h⟩ := Run.bind_ok.1 h
    obtain ⟨rfl, -⟩ := Run.pure_ok.1 h
    exact Nat.succ_le_succ (hgo hv)
  | app g a k =>
    obtain ⟨g', s₁, hg, h⟩ := Run.bind_ok.1 h
    obtain ⟨a', s₂, ha, h⟩ := Run.bind_ok.1 h
    split at h
    · obtain ⟨r, s₃, -, h⟩ := Run.bind_ok.1 h
      exact Nat.le_succ_of_le (hgo h)
    · obtain ⟨rfl, -⟩ := Run.pure_ok.1 h
      exact Nat.succ_le_succ (Nat.max_le.2 ⟨hgo hg, hgo ha⟩)

/-- A run gives no type that nests deeper than the run. -/
theorem height_normalizeFrom (h : normalizeFrom o d t s = .ok u s') : u.height ≤ d := by
  induction d generalizing t u s s' with
  | zero => exact absurd h Run.throw_ok
  | succ d ih =>
    obtain ⟨v, s₁, s₂, -, h⟩ := exists_visit h
    exact height_visit ih h

namespace RedexFree

theorem weakHead (ht : t.RedexFree) (hd : t.height ≤ d + 1) :
    weakHead d t ⟨none, c⟩ = .ok t ⟨none, c⟩ := by
  induction d generalizing t with
  | zero =>
    cases t with
    | app f a k =>
      have := f.height_pos
      simp only [height] at hd
      omega
    | _ => rfl
  | succ d ih =>
    cases t with
    | app f a k =>
      simp only [height] at hd
      have hf := ih ht.2.1 (by omega)
      refine Run.bind_ok.2 ⟨(), ⟨none, c⟩, rfl, Run.bind_ok.2 ⟨f, ⟨none, c⟩, hf, ?_⟩⟩
      split
      · exact absurd rfl (ht.1 _ _ _ _)
      · rfl
    | _ => rfl

theorem visit {go : Ty → Normalize Ty}
    (hgo : ∀ {t}, t.RedexFree → t.height ≤ d → go t ⟨none, c⟩ = .ok t ⟨none, c⟩)
    (ht : t.RedexFree) (hd : t.height ≤ d + 1) : visit go t ⟨none, c⟩ = .ok t ⟨none, c⟩ := by
  cases t with
  | int | var => rfl
  | arrow v w k =>
    simp only [height] at hd
    have hv := hgo ht.1 (by omega)
    have hw := hgo ht.2 (by omega)
    exact Run.bind_ok.2 ⟨v, _, hv, Run.bind_ok.2 ⟨w, _, hw, rfl⟩⟩
  | bind b x xk v k => exact Run.bind_ok.2 ⟨v, _, hgo ht (Nat.le_of_succ_le_succ hd), rfl⟩
  | app f a k =>
    simp only [height] at hd
    have hf := hgo ht.2.1 (by omega)
    have ha := hgo ht.2.2 (by omega)
    refine Run.bind_ok.2 ⟨f, _, hf, Run.bind_ok.2 ⟨a, _, ha, ?_⟩⟩
    split
    · exact absurd rfl (ht.1 _ _ _ _)
    · rfl

/-- A type without redexes is its own normal form, and no name is made. -/
theorem normalizeFrom (ht : t.RedexFree) (hd : t.height ≤ d) :
    normalizeFrom o d t ⟨none, c⟩ = .ok t ⟨none, c⟩ := by
  induction d generalizing t with
  | zero => exact absurd hd (Nat.not_le.2 t.height_pos)
  | succ d ih =>
    refine Run.bind_ok.2 ⟨(), ⟨none, c⟩, rfl, ?_⟩
    cases o with
    | normal => exact Run.bind_ok.2 ⟨t, _, ht.weakHead hd, ht.visit ih hd⟩
    | applicative => exact Run.bind_ok.2 ⟨t, _, rfl, ht.visit ih hd⟩

end RedexFree

/-! ## The kind at the root -/

@[simp] theorem kind_withKind (k : Kind) (t : Ty) : (t.withKind k).kind = k := by cases t <;> rfl

theorem kind_contract {x : Name} {body a : Ty} {k : Kind}
    (h : contract x body a k s = .ok u s') : u.kind = k := by
  obtain ⟨_, s₁, -, h⟩ := Run.bind_ok.1 h
  obtain ⟨rfl, -⟩ := EStateM.Result.ok.inj h
  exact kind_withKind k _

theorem kind_weakHead (h : weakHead d t s = .ok u s') : u.kind = t.kind := by
  induction d generalizing t u s s' with
  | zero =>
    cases t with
    | app f a k => exact absurd h Run.throw_ok
    | _ => rw [(Run.pure_ok.1 h).1]
  | succ d ih =>
    cases t with
    | app f a k =>
      obtain ⟨_, s₁, -, h⟩ := Run.bind_ok.1 h
      obtain ⟨f', s₂, -, h⟩ := Run.bind_ok.1 h
      split at h
      · obtain ⟨r, s₃, hr, h⟩ := Run.bind_ok.1 h
        exact (ih h).trans (kind_contract hr)
      · obtain ⟨rfl, -⟩ := Run.pure_ok.1 h
        rfl
    | _ => rw [(Run.pure_ok.1 h).1]

theorem kind_visit {go : Ty → Normalize Ty}
    (hgo : ∀ {t u s s'}, go t s = .ok u s' → u.kind = t.kind)
    (h : visit go t s = .ok u s') : u.kind = t.kind := by
  cases t with
  | int | var => rw [← (Run.pure_ok.1 h).1]
  | arrow v w k =>
    obtain ⟨v', s₁, -, h⟩ := Run.bind_ok.1 h
    obtain ⟨w', s₂, -, h⟩ := Run.bind_ok.1 h
    rw [← (Run.pure_ok.1 h).1]
    rfl
  | bind b x xk v k =>
    obtain ⟨v', s₁, -, h⟩ := Run.bind_ok.1 h
    rw [← (Run.pure_ok.1 h).1]
    rfl
  | app g a k =>
    obtain ⟨g', s₁, -, h⟩ := Run.bind_ok.1 h
    obtain ⟨a', s₂, -, h⟩ := Run.bind_ok.1 h
    split at h
    · obtain ⟨r, s₃, hr, h⟩ := Run.bind_ok.1 h
      exact (hgo h).trans (kind_contract hr)
    · rw [← (Run.pure_ok.1 h).1]
      rfl

/-- Normalization keeps the kind at the root, also where it is not the right one. -/
theorem kind_normalizeFrom (h : normalizeFrom o d t s = .ok u s') : u.kind = t.kind := by
  induction d generalizing t u s s' with
  | zero => exact absurd h Run.throw_ok
  | succ d ih =>
    obtain ⟨v, s₁, s₂, hv, hrun⟩ := exists_visit h
    rcases hv with rfl | hv
    · exact kind_visit ih hrun
    · exact (kind_visit ih hrun).trans (kind_weakHead hv)

/-! ## Main results -/

/-- Kinds are kept: in any environment `K`, a well-kinded type that is put for a name of its kind
leaves a well-kinded type of the same kind, from every counter; and the normal form of a well-kinded
type, in either order, is well-kinded in the same environment, with the same kind and no new free
name. -/
theorem kinds_preserved (K : NameKinds) :
    (∀ (t r : Ty) (x : Name) (j k : Kind) (c : Int),
      WellKinded (update K x (some j)) t k → WellKinded K r j →
        WellKinded K (t.subst x r c).1 k ∧ (t.subst x r c).1.kind = t.kind) ∧
    ∀ (t u : Ty) (k : Kind) (o : Order) (fuel : Option Int) (c : Int) (d : Nat) (s : Normalizer),
      WellKinded K t k → t.normalize o fuel c d = .ok u s →
        WellKinded K u k ∧ u.kind = t.kind ∧ u.freeVars ⊆ t.freeVars := by
  refine ⟨fun t r x j k c ht hr => ?_, fun t u k o fuel c d s ht hrun => ?_⟩
  · have hsubst := ht.subst hr c
    exact ⟨hsubst, hsubst.kind_eq.trans ht.kind_eq.symm⟩
  · exact ⟨ht.normalize hrun, kind_normalizeFrom hrun, normalize_freeVars hrun⟩

/-- `λY. X -> Y` with `X Y` for `X`, where the `X` of the environment is an operator: its binder is
renamed, also where the substitution is a contraction. -/
theorem kinds_preserved_captured :
    let X : Name := ⟨"X", 1⟩
    let Y : Name := ⟨"Y", 2⟩
    let K : NameKinds := fun x => if x = X then some (.arrow .star .star) else some .star
    let body : Ty := .bind .lam Y .star (.arrow (.var X .star) (.var Y .star) .star)
      (.arrow .star .star)
    let arg : Ty := .app (.var X (.arrow .star .star)) (.var Y .star) .star
    let t : Ty := .app (.bind .lam X .star body (.arrow .star (.arrow .star .star))) arg
      (.arrow .star .star)
    let result : Ty := .bind .lam ⟨"Y", 3⟩ .star (.arrow arg (.var ⟨"Y", 3⟩ .star) .star)
      (.arrow .star .star)
    WellKinded (update K X (some .star)) body (.arrow .star .star) ∧ WellKinded K arg .star ∧
      (body.subst X arg 0).1 = result ∧ WellKinded K t (.arrow .star .star) ∧
      (∃ s, t.normalize .applicative (some 20) 0 = .ok result s) ∧
      WellKinded K result (.arrow .star .star) ∧ result.kind = body.kind ∧ result.kind = t.kind ∧
      result.freeVars ⊆ t.freeVars := by
  intro X Y K body arg t result
  have hbody : WellKinded (update K X (some .star)) body (.arrow .star .star) :=
    .lam (.arrow (.var rfl) (.var rfl))
  have harg : WellKinded K arg .star := .app (.var rfl) (.var rfl)
  have ht : WellKinded K t (.arrow .star .star) := .app (.lam hbody) harg
  have hsubst : (body.subst X arg 0).1 = result := by decide +kernel
  have heval : (Ty.normalizeFrom .applicative maxDepth t).run' ⟨some 20, 0⟩ = some result := by
    decide +kernel
  have hrun : ∃ s, t.normalize .applicative (some 20) 0 = .ok result s := Run.run'_eq_some.1 heval
  refine ⟨hbody, harg, hsubst, ht, hrun, ?_⟩
  obtain ⟨s, hrun⟩ := hrun
  have hkept := (kinds_preserved K).1 body arg X .star _ 0 hbody harg
  rw [hsubst] at hkept
  have hnormal := (kinds_preserved K).2 t result _ _ _ _ _ s ht hrun
  exact ⟨hnormal.1, hkept.2, hnormal.2.1, hnormal.2.2⟩

/-- A run that gives `n` for `t`, well-kinded or not, in either order and from every counter: `n`
has no redex and the kind of `t`, and every further run without a bound on the fuel gives `n` itself
and makes no name. In normal order, a head that a visit has normalized is no type operator, so that
a visit contracts nothing itself. -/
theorem normalize_fixed (t : Ty) :
    (∀ (o : Order) (fuel : Option Int) (c : Int) (d : Nat) (n : Ty) (s : Normalizer),
      t.normalize o fuel c d = .ok n s →
        n.RedexFree ∧ n.kind = t.kind ∧
          ∀ (o' : Order) (c' : Int) (e : Nat), d ≤ e →
            n.normalize o' none c' e = .ok n ⟨none, c'⟩) ∧
    ∀ (d : Nat) (s s₁ s₂ : Normalizer) (f a f' : Ty) (k : Kind),
      weakHead d t s = .ok (.app f a k) s₁ → normalizeFrom .normal d f s₁ = .ok f' s₂ →
        f'.Neutral := by
  refine ⟨fun o fuel c d n s hrun => ?_, fun d s s₁ s₂ f a f' k hhead hf => ?_⟩
  · have hfree : n.RedexFree := redexFree_of_normal (normalize_sound hrun).2
    refine ⟨hfree, kind_normalizeFrom hrun, fun o' c' e he => ?_⟩
    exact hfree.normalizeFrom (Nat.le_trans (height_normalizeFrom hrun) he)
  · obtain ⟨hneutral, hnormal⟩ := weakHead_headNormal hhead
    exact hneutral.normalizeFrom hnormal hf

/-- `(λX. X) F Int ((λX. X) Int)`, with a kind at the root that is not the right one: the head
becomes `F Int`, which is left when it is visited. -/
theorem normalize_fixed_illKinded :
    let X : Name := ⟨"X", 1⟩
    let id : Ty := .bind .lam X .star (.var X .star) (.arrow .star .star)
    let F : Ty := .var ⟨"F", 2⟩ .star
    let head : Ty := .app F (.int .star) .star
    let a : Ty := .app id (.int .star) .star
    let wrong : Kind := .arrow .star .star
    let t : Ty := .app (.app (.app id F .star) (.int .star) .star) a wrong
    let n : Ty := .app head (.int .star) wrong
    (∃ s, t.normalize .applicative (some 20) 3 = .ok n s) ∧ n.RedexFree ∧ n.kind = t.kind ∧
      (∀ o c, n.normalize o none c = .ok n ⟨none, c⟩) ∧
      weakHead 10 (.app head a wrong) ⟨none, 3⟩ = .ok (.app head a wrong) ⟨none, 3⟩ ∧
      normalizeFrom .normal 10 head ⟨none, 3⟩ = .ok head ⟨none, 3⟩ ∧ head.Neutral := by
  intro X id F head a wrong t n
  have heval : (Ty.normalizeFrom .applicative maxDepth t).run' ⟨some 20, 3⟩ = some n := by
    decide +kernel
  obtain ⟨s, hrun⟩ : ∃ s, t.normalize .applicative (some 20) 3 = .ok n s := Run.run'_eq_some.1 heval
  have hhead : weakHead 10 (.app head a wrong) ⟨none, 3⟩ = .ok (.app head a wrong) ⟨none, 3⟩ := rfl
  have hvisit : normalizeFrom .normal 10 head ⟨none, 3⟩ = .ok head ⟨none, 3⟩ := rfl
  obtain ⟨hfree, hkind, hfixed⟩ := (normalize_fixed t).1 _ _ _ _ n s hrun
  exact ⟨⟨s, hrun⟩, hfree, hkind, fun o c => hfixed o c maxDepth (Nat.le_refl _), hhead, hvisit,
    (normalize_fixed _).2 10 _ _ _ head a head wrong hhead hvisit⟩

end SystemFOmega.Ty
