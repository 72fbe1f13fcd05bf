import Mathlib.Logic.Function.Basic
import SystemFOmega.Proofs.Core.Normalize
import SystemFOmega.Proofs.Core.Substitution

/-!
# Kinds of core types

A core type is well-kinded (`Ty.WellKinded`) if every node carries the kind that the kinding rules
give it. Substitution and normalization keep this, and the kind (`WellKinded.subst`,
`WellKinded.normalize`). The kinds of all nodes are then known from the nameless form and the kinds
of the free names (`WellKinded.nodeKinds_eq`).

With confluence this says that the order of normalization does not matter: two runs that end well
give alpha-equivalent types, which for a well-kinded type have the same kinds at all nodes
(`Ty.normalize_order_irrelevant`).
-/

namespace SystemFOmega

/-- The kinds of free names. -/
abbrev NameKinds := Name → Option Kind

/-- The context of the nameless forms of types with these free names. -/
def NameKinds.refs (K : NameKinds) : Kinds
  | .bound _ => none
  | .free x => K x

namespace Ty

open Function (update)

/-- Every node of the type carries its kind, and the root carries `k`. -/
inductive WellKinded : NameKinds → Ty → Kind → Prop
  | int {K : NameKinds} : WellKinded K (int .star) .star
  | var {K : NameKinds} {x : Name} {k : Kind} : K x = some k → WellKinded K (var x k) k
  | arrow {K : NameKinds} {s t : Ty} : WellKinded K s .star → WellKinded K t .star →
    WellKinded K (arrow s t .star) .star
  | all {K : NameKinds} {x : Name} {xk : Kind} {t : Ty} :
    WellKinded (update K x (some xk)) t .star →
    WellKinded K (bind .all x xk t .star) .star
  | lam {K : NameKinds} {x : Name} {xk k : Kind} {t : Ty} : WellKinded (update K x (some xk)) t k →
    WellKinded K (bind .lam x xk t (.arrow xk k)) (.arrow xk k)
  | app {K : NameKinds} {j k : Kind} {f a : Ty} : WellKinded K f (.arrow j k) → WellKinded K a j →
    WellKinded K (app f a k) k

/-- The kinds that the nodes of a type carry, in the order of the text. -/
def nodeKinds : Ty → List Kind
  | .int k | .var _ k => [k]
  | .arrow s t k | .app s t k => k :: (s.nodeKinds ++ t.nodeKinds)
  | .bind _ _ _ t k => k :: t.nodeKinds

/-- Substitution for a name that is not free does nothing. -/
theorem subst_of_not_mem {t : Ty} {x : Name} (h : x ∉ t.freeVars) (r : Ty) (c : Int) :
    t.subst x r c = (t, c) := by
  induction t with
  | int k => simp [subst]
  | var y k =>
    have hy : y ≠ x := fun e => h (e ▸ List.mem_singleton_self _)
    simp [subst, hy]
  | arrow s t k hs ht | app s t k hs ht =>
    simp only [freeVars, List.mem_append, not_or] at h
    simp only [subst, hs h.1, ht h.2]
  | bind b y yk t k ht =>
    by_cases hy : y = x
    · simp [subst, hy]
    · have hx : x ∉ t.freeVars := fun hx =>
        h (List.mem_filter.2 ⟨hx, by simpa using fun e => hy e.symm⟩)
      simp [subst, hy, hx, ht hx]

namespace WellKinded

variable {K K' : NameKinds} {t u : Ty} {j k l : Kind} {x y : Name}

theorem kind_eq (h : WellKinded K t k) : t.kind = k := by cases h <;> rfl

theorem withKind_eq (h : WellKinded K t k) : t.withKind k = t := by cases h <;> rfl

/-- Only the kinds of the free names play a part. -/
theorem congr (h : WellKinded K t k) (hK : ∀ x ∈ t.freeVars, K' x = K x) : WellKinded K' t k := by
  have hbody {b : Binder} {x : Name} {xk k : Kind} {t : Ty} {K K' : NameKinds}
      (hK : ∀ y ∈ (bind b x xk t k).freeVars, K' y = K y) :
      ∀ y ∈ t.freeVars, update K' x (some xk) y = update K x (some xk) y := by
    intro y hy
    by_cases hyx : y = x
    · simp [hyx]
    · rw [Function.update_of_ne hyx, Function.update_of_ne hyx]
      exact hK y (List.mem_filter.2 ⟨hy, by simpa using hyx⟩)
  induction h generalizing K' with
  | int => exact .int
  | var hx => exact .var ((hK _ (List.mem_singleton_self _)).trans hx)
  | arrow _ _ hs ht =>
    exact .arrow (hs fun x hx => hK x (List.mem_append_left _ hx))
      (ht fun x hx => hK x (List.mem_append_right _ hx))
  | all _ ht => exact .all (ht (hbody (b := .all) (k := .star) hK))
  | lam _ ht => exact .lam (ht (hbody (b := .lam) (k := .star) hK))
  | app _ _ hf ha =>
    exact .app (hf fun x hx => hK x (List.mem_append_left _ hx))
      (ha fun x hx => hK x (List.mem_append_right _ hx))

/-- The free names of a well-kinded type have kinds. -/
theorem exists_kind (h : WellKinded K t k) (hx : x ∈ t.freeVars) : ∃ j, K x = some j := by
  have hbody {K : NameKinds} {y : Name} {yk : Kind} {t : Ty}
      (ih : x ∈ t.freeVars → ∃ j, update K y (some yk) x = some j)
      (hx : x ∈ t.freeVars.filter (· ≠ y)) : ∃ j, K x = some j := by
    obtain ⟨hx, hne⟩ := List.mem_filter.1 hx
    obtain ⟨j, hj⟩ := ih hx
    exact ⟨j, by rwa [Function.update_of_ne (by simpa using hne)] at hj⟩
  induction h with
  | int => cases hx
  | var h => exact ⟨_, List.mem_singleton.1 hx ▸ h⟩
  | arrow _ _ hs ht | app _ _ hs ht => exact (List.mem_append.1 hx).elim hs ht
  | all _ ht | lam _ ht => exact hbody ht hx

/-- A kind for a name that is not free. -/
theorem weaken (h : WellKinded K t k) (hy : y ∉ t.freeVars) (o : Option Kind) :
    WellKinded (update K y o) t k := by
  refine h.congr fun x hx => ?_
  have hxy : x ≠ y := fun e => hy (e ▸ hx)
  rw [Function.update_of_ne hxy]

theorem rename (h : WellKinded (update K x (some j)) t k) (hy : y ∉ t.names) :
    WellKinded (update K y (some j)) (t.rename x y j) k := by
  induction t generalizing K k with
  | int l =>
    cases h
    exact .int
  | var z l =>
    cases h with
    | var hz =>
      rw [Ty.rename]
      split
      · rename_i hzx
        subst hzx
        rw [Function.update_self] at hz
        obtain rfl := Option.some.inj hz
        exact .var (Function.update_self ..)
      · rename_i hzx
        rw [Function.update_of_ne hzx] at hz
        have hzy : z ≠ y := fun e => hy (e ▸ List.mem_singleton_self _)
        exact .var ((Function.update_of_ne hzy ..).trans hz)
  | arrow s t l hs ht =>
    simp only [names, List.mem_append, not_or] at hy
    cases h with
    | arrow h₁ h₂ => exact .arrow (hs h₁ hy.1) (ht h₂ hy.2)
  | app f a l hf ha =>
    simp only [names, List.mem_append, not_or] at hy
    cases h with
    | app h₁ h₂ => exact .app (hf h₁ hy.1) (ha h₂ hy.2)
  | bind b z zk t l ht =>
    simp only [names, List.mem_cons, not_or] at hy
    rw [Ty.rename]
    split
    · -- neither `x` nor `y` is free
      rename_i hzx
      subst hzx
      refine h.congr fun w hw => ?_
      obtain ⟨hwt, hwz⟩ := List.mem_filter.1 hw
      have hwz : w ≠ z := by simpa using hwz
      have hwy : w ≠ y := fun e => hy.2 (e ▸ freeVars_subset_names t hwt)
      rw [Function.update_of_ne hwy, Function.update_of_ne hwz]
    · rename_i hzx
      have hbody {l : Kind} (h : WellKinded (update (update K x (some j)) z (some zk)) t l) :
          WellKinded (update (update K y (some j)) z (some zk)) (t.rename x y j) l := by
        rw [Function.update_comm (fun e => hy.1 e)]
        exact ht (Function.update_comm (Ne.symm hzx) _ _ K ▸ h) hy.2
      cases h with
      | all h => exact .all (hbody h)
      | lam h => exact .lam (hbody h)

/-- Substitution keeps kinds. -/
theorem subst {r : Ty} (h : WellKinded (update K x (some j)) t k) (hr : WellKinded K r j)
    (c : Int) : WellKinded K (t.subst x r c).1 k := by
  fun_induction Ty.subst t x r c generalizing K k
  case case1 c l =>
    cases h
    exact .int
  case case2 c y l =>
    cases h with
    | var hy =>
      split
      · rename_i hyx
        rw [hyx, Function.update_self] at hy
        rwa [← Option.some.inj hy]
      · rename_i hyx
        exact .var (by rwa [Function.update_of_ne hyx] at hy)
  case case3 c s t l s' t' hs ht =>
    cases h with
    | arrow h₁ h₂ => exact .arrow (hs h₁ hr) (ht h₂ hr)
  case case4 c b yk body l =>
    refine h.congr fun w hw => ?_
    have hwx : w ≠ x := by simpa using (List.mem_filter.1 hw).2
    rw [Function.update_of_ne hwx]
  case case5 c b y yk body l hyx hcap n z body' ih =>
    -- the binder gets the new name `z`, which is not in `r`
    have hz : z ∉ body.names ++ r.names := Name.fresh_not_mem c y.value _
    rw [List.mem_append, not_or] at hz
    have hzx : x ≠ z := fun e => hz.1 (e ▸ freeVars_subset_names body hcap.2)
    have hr' : WellKinded (update K z (some yk)) r j :=
      hr.weaken (fun h => hz.2 (freeVars_subset_names r h)) _
    have hbody {l : Kind} (h : WellKinded (update (update K x (some j)) y (some yk)) body l) :
        WellKinded (update K z (some yk)) body'.1 l :=
      ih (Function.update_comm hzx _ _ K ▸ h.rename hz.1) hr'
    cases h with
    | all h => exact .all (hbody h)
    | lam h => exact .lam (hbody h)
  case case6 c b y yk body l hyx hcap body' ih =>
    have hbody {l : Kind} (h : WellKinded (update (update K x (some j)) y (some yk)) body l) :
        WellKinded (update K y (some yk)) body'.1 l := by
      rw [Function.update_comm (Ne.symm hyx)] at h
      by_cases hx : x ∈ body.freeVars
      · exact ih h (hr.weaken (fun hy => hcap ⟨hy, hx⟩) _)
      · -- `r` may have the name `y`, but it is put nowhere
        have hsame : body'.1 = body := congrArg Prod.fst (subst_of_not_mem hx r c)
        rw [hsame]
        refine h.congr fun w hw => ?_
        have hwx : w ≠ x := fun e => hx (e ▸ hw)
        rw [Function.update_of_ne hwx]
    cases h with
    | all h => exact .all (hbody h)
    | lam h => exact .lam (hbody h)
  case case7 c f a l f' a' hf ha =>
    cases h with
    | app h₁ h₂ => exact .app (hf h₁ hr) (ha h₂ hr)

/-! ## Normalization -/

theorem contract {xk : Kind} {body a : Ty} {s s' : Normalizer}
    (hf : WellKinded K (bind .lam x xk body l) (.arrow j k)) (ha : WellKinded K a j)
    (h : Ty.contract x body a k s = .ok u s') : WellKinded K u k := by
  obtain ⟨_, s₁, -, h⟩ := Run.bind_ok.1 h
  obtain ⟨rfl, -⟩ := EStateM.Result.ok.inj h
  cases hf with
  | lam hbody =>
    have hsubst := hbody.subst ha s₁.supply
    rwa [hsubst.withKind_eq]

theorem weakHead {d : Nat} {s s' : Normalizer} (ht : WellKinded K t k)
    (h : Ty.weakHead d t s = .ok u s') : WellKinded K u k := by
  induction d generalizing t u k s s' with
  | zero =>
    cases t with
    | app f a l => exact absurd h Run.throw_ok
    | _ =>
      obtain ⟨rfl, -⟩ := Run.pure_ok.1 h
      exact ht
  | succ d ih =>
    cases t with
    | app f a l =>
      obtain ⟨_, s₁, -, h⟩ := Run.bind_ok.1 h
      obtain ⟨f', s₂, hf', h⟩ := Run.bind_ok.1 h
      cases ht with
      | app hf ha =>
        have hf'' := ih hf hf'
        split at h
        · obtain ⟨r, s₃, hr, h⟩ := Run.bind_ok.1 h
          exact ih (hf''.contract ha hr) h
        · obtain ⟨rfl, -⟩ := Run.pure_ok.1 h
          exact .app hf'' ha
    | _ =>
      obtain ⟨rfl, -⟩ := Run.pure_ok.1 h
      exact ht

theorem visit {go : Ty → Normalize Ty} {s s' : Normalizer}
    (hgo : ∀ {K t u k s s'}, WellKinded K t k → go t s = .ok u s' → WellKinded K u k)
    (ht : WellKinded K t k) (h : Ty.visit go t s = .ok u s') : WellKinded K u k := by
  cases ht with
  | int =>
    obtain ⟨rfl, -⟩ := Run.pure_ok.1 h
    exact .int
  | var hx =>
    obtain ⟨rfl, -⟩ := Run.pure_ok.1 h
    exact .var hx
  | arrow hv hw =>
    obtain ⟨v', s₁, hv', h⟩ := Run.bind_ok.1 h
    obtain ⟨w', s₂, hw', h⟩ := Run.bind_ok.1 h
    obtain ⟨rfl, -⟩ := Run.pure_ok.1 h
    exact .arrow (hgo hv hv') (hgo hw hw')
  | all hv =>
    obtain ⟨v', s₁, hv', h⟩ := Run.bind_ok.1 h
    obtain ⟨rfl, -⟩ := Run.pure_ok.1 h
    exact .all (hgo hv hv')
  | lam hv =>
    obtain ⟨v', s₁, hv', h⟩ := Run.bind_ok.1 h
    obtain ⟨rfl, -⟩ := Run.pure_ok.1 h
    exact .lam (hgo hv hv')
  | app hf ha =>
    obtain ⟨f', s₁, hf', h⟩ := Run.bind_ok.1 h
    obtain ⟨a', s₂, ha', h⟩ := Run.bind_ok.1 h
    have hf'' := hgo hf hf'
    split at h
    · obtain ⟨r, s₃, hr, h⟩ := Run.bind_ok.1 h
      exact hgo (hf''.contract (hgo ha ha') hr) h
    · obtain ⟨rfl, -⟩ := Run.pure_ok.1 h
      exact .app hf'' (hgo ha ha')

theorem normalizeFrom {o : Order} {d : Nat} {s s' : Normalizer} (ht : WellKinded K t k)
    (h : Ty.normalizeFrom o d t s = .ok u s') : WellKinded K u k := by
  induction d generalizing K t u k s s' with
  | zero => exact absurd h Run.throw_ok
  | succ d ih =>
    obtain ⟨_, s₁, -, h⟩ := Run.bind_ok.1 h
    cases o with
    | normal =>
      obtain ⟨v, s₂, hv, h⟩ := Run.bind_ok.1 h
      exact visit ih (ht.weakHead hv) h
    | applicative =>
      obtain ⟨v, s₂, hv, h⟩ := Run.bind_ok.1 h
      obtain ⟨rfl, -⟩ := Run.pure_ok.1 hv
      exact visit ih ht h

/-- Normalization keeps kinds. -/
theorem normalize {o : Order} {fuel : Option Int} {c : Int} {d : Nat} {s : Normalizer}
    (ht : WellKinded K t k) (h : t.normalize o fuel c d = .ok u s) : WellKinded K u k :=
  ht.normalizeFrom h

/-! ## The kinding rules without names -/

/-- The nameless form of a well-kinded type has its kind. -/
theorem nameless (h : WellKinded K t k) : Nameless.Kinded K.refs t.nameless k := by
  have hbody {K : NameKinds} {t : Ty} {x : Name} {xk k : Kind}
      (h : Nameless.Kinded (NameKinds.refs (update K x (some xk))) t.nameless k) :
      Nameless.Kinded (K.refs.push xk) (t.nameless.rename (Ref.close x)) k := by
    refine h.rename fun r l _ hr => ?_
    cases r with
    | bound i => cases hr
    | free y =>
      rw [NameKinds.refs] at hr
      by_cases hyx : y = x
      · subst hyx
        rw [Function.update_self] at hr
        rw [Ref.close_self]
        exact hr
      · rw [Function.update_of_ne hyx] at hr
        rw [Ref.close_of_ne fun e => hyx (Ref.free.inj e)]
        exact hr
  induction h with
  | int => exact .int
  | var hx => exact .var hx
  | arrow _ _ hs ht => exact .arrow hs ht
  | all _ ht => exact .all (hbody ht)
  | lam _ ht => exact .lam (hbody ht)
  | app _ _ hf ha => exact .app hf ha

/-- The kinds of names seen through a binder. -/
theorem refs_push {L : Kinds} {ξ : Ref → Ref} (hK : ∀ y, K y = L (ξ (.free y))) (x : Name)
    (j : Kind) (y : Name) :
    update K x (some j) y = L.push j ((Ref.lift ξ ∘ Ref.close x) (.free y)) := by
  by_cases hyx : y = x
  · simp [hyx]
  · have hc : Ref.close x (.free y) = Ref.shift (.free y) :=
      Ref.close_of_ne fun e => hyx (Ref.free.inj e)
    rw [Function.update_of_ne hyx, Function.comp_apply, hc, Ref.lift_shift, Kinds.push_shift, hK]

/-- Where two types are the same without names, they carry the same kinds. The names of each are
read through `ξ` and `ζ`, which differ below binders of different names. -/
theorem nodeKinds_eq_of_rename {L : Kinds} {ξ ζ : Ref → Ref} (ht : WellKinded K t k)
    (hu : WellKinded K' u l) (hK : ∀ x, K x = L (ξ (.free x))) (hK' : ∀ x, K' x = L (ζ (.free x)))
    (h : t.nameless.rename ξ = u.nameless.rename ζ) : k = l ∧ t.nodeKinds = u.nodeKinds := by
  induction ht generalizing u l K' L ξ ζ with
  | int =>
    cases hu with
    | int => exact ⟨rfl, rfl⟩
    | _ => simp [Ty.nameless, Nameless.rename] at h
  | @var K x k hx =>
    cases hu with
    | @var _ y l hy =>
      -- the names may differ, but they are read as one reference, and so have one kind
      have he : ξ (.free x) = ζ (.free y) := Nameless.var.inj h
      have hkl : some k = some l := by rw [← hx, ← hy, hK, hK', he]
      obtain rfl := Option.some.inj hkl
      exact ⟨rfl, rfl⟩
    | _ => simp [Ty.nameless, Nameless.rename] at h
  | arrow _ _ hs ht =>
    cases hu with
    | arrow hs' ht' =>
      obtain ⟨h₁, h₂⟩ := Nameless.arrow.inj h
      rw [nodeKinds, nodeKinds, (hs hs' hK hK' h₁).2, (ht ht' hK hK' h₂).2]
      exact ⟨rfl, rfl⟩
    | _ => simp [Ty.nameless, Nameless.rename] at h
  | all _ ht =>
    cases hu with
    | all ht' =>
      obtain ⟨-, rfl, hbody⟩ := Nameless.bind.inj h
      rw [Nameless.rename_rename, Nameless.rename_rename] at hbody
      rw [nodeKinds, nodeKinds, (ht ht' (refs_push hK _ _) (refs_push hK' _ _) hbody).2]
      exact ⟨rfl, rfl⟩
    | lam => cases (Nameless.bind.inj h).1
    | _ => simp [Ty.nameless, Nameless.rename] at h
  | lam _ ht =>
    cases hu with
    | lam ht' =>
      obtain ⟨-, rfl, hbody⟩ := Nameless.bind.inj h
      rw [Nameless.rename_rename, Nameless.rename_rename] at hbody
      obtain ⟨rfl, hnodes⟩ := ht ht' (refs_push hK _ _) (refs_push hK' _ _) hbody
      rw [nodeKinds, nodeKinds, hnodes]
      exact ⟨rfl, rfl⟩
    | all => cases (Nameless.bind.inj h).1
    | _ => simp [Ty.nameless, Nameless.rename] at h
  | app _ _ hf ha =>
    cases hu with
    | app hf' ha' =>
      obtain ⟨h₁, h₂⟩ := Nameless.app.inj h
      obtain ⟨hk, hnodes⟩ := hf hf' hK hK' h₁
      obtain ⟨rfl, rfl⟩ := Kind.arrow.inj hk
      rw [nodeKinds, nodeKinds, hnodes, (ha ha' hK hK' h₂).2]
      exact ⟨rfl, rfl⟩
    | _ => simp [Ty.nameless, Nameless.rename] at h

/-- Alpha-equivalent types carry the same kinds. -/
theorem nodeKinds_eq (ht : WellKinded K t k) (hu : WellKinded K u l) (h : t.AlphaEq u) :
    t.nodeKinds = u.nodeKinds :=
  (nodeKinds_eq_of_rename (L := K.refs) (ξ := id) (ζ := id) ht hu (fun _ => rfl) (fun _ => rfl)
    (congrArg _ h)).2

end WellKinded

/-! ## The order of normalization -/

/-- The two orders give one normal form: if a type, well-kinded or not, has a result in each of
them, with any fuel, counter and depth, the two results are alpha-equivalent; if the type is
well-kinded, all nodes of the two results carry the same kinds. -/
theorem normalize_order_irrelevant (t t₁ t₂ : Ty) (fuel₁ fuel₂ : Option Int) (c₁ c₂ : Int)
    (d₁ d₂ : Nat) (s₁ s₂ : Normalizer) (h₁ : t.normalize .normal fuel₁ c₁ d₁ = .ok t₁ s₁)
    (h₂ : t.normalize .applicative fuel₂ c₂ d₂ = .ok t₂ s₂) :
    t₁.AlphaEq t₂ ∧ ∀ K k, WellKinded K t k → t₁.nodeKinds = t₂.nodeKinds := by
  obtain ⟨hs₁, hn₁⟩ := normalize_sound h₁
  obtain ⟨hs₂, hn₂⟩ := normalize_sound h₂
  have hconv := (Nameless.Conv.of_steps hs₁).symm.trans (Nameless.Conv.of_steps hs₂)
  have halpha : t₁.AlphaEq t₂ := hn₁.eq_of_conv hn₂ hconv
  refine ⟨halpha, fun K k hk => ?_⟩
  exact (hk.normalize h₁).nodeKinds_eq (hk.normalize h₂) halpha

/-- `(λX. λY. X -> Y) ((λX. X) Y)`: its binder `Y` is renamed, in each order to another number. -/
theorem normalize_order_irrelevant_captured :
    let X : Name := ⟨"X", 1⟩
    let Y : Name := ⟨"Y", 2⟩
    let arrow : Ty := .bind .lam X .star (.bind .lam Y .star
      (.arrow (.var X .star) (.var Y .star) .star) (.arrow .star .star))
      (.arrow .star (.arrow .star .star))
    let arg : Ty :=
      .app (.bind .lam X .star (.var X .star) (.arrow .star .star)) (.var Y .star) .star
    let t : Ty := .app arrow arg (.arrow .star .star)
    let result (n : Int) : Ty := .bind .lam ⟨"Y", n⟩ .star
      (.arrow (.var Y .star) (.var ⟨"Y", n⟩ .star) .star) (.arrow .star .star)
    (∃ s, t.normalize .normal (some 20) 3 = .ok (result 3) s) ∧
      (∃ s, t.normalize .applicative none 7 = .ok (result 7) s) ∧
      WellKinded (fun _ => some .star) t (.arrow .star .star) ∧
      (result 3).AlphaEq (result 7) ∧ (result 3).nodeKinds = (result 7).nodeKinds := by
  intro X Y arrow arg t result
  have hnormal : (normalizeFrom .normal maxDepth t).run' ⟨some 20, 3⟩ = some (result 3) := by
    decide +kernel
  have happlicative : (normalizeFrom .applicative maxDepth t).run' ⟨none, 7⟩ = some (result 7) := by
    decide +kernel
  have h₁ : ∃ s, t.normalize .normal (some 20) 3 = .ok (result 3) s := Run.run'_eq_some.1 hnormal
  have h₂ : ∃ s, t.normalize .applicative none 7 = .ok (result 7) s :=
    Run.run'_eq_some.1 happlicative
  have hkind : WellKinded (fun _ => some .star) t (.arrow .star .star) :=
    .app (.lam (.lam (.arrow (.var rfl) (.var rfl)))) (.app (.lam (.var rfl)) (.var rfl))
  refine ⟨h₁, h₂, hkind, ?_⟩
  obtain ⟨s₁, h₁⟩ := h₁
  obtain ⟨s₂, h₂⟩ := h₂
  have h := normalize_order_irrelevant t _ _ _ _ _ _ _ _ s₁ s₂ h₁ h₂
  exact ⟨h.1, h.2 _ _ hkind⟩

end Ty

end SystemFOmega
