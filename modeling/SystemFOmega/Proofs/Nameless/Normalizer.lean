import SystemFOmega.Core.Normalize
import SystemFOmega.Proofs.Nameless.Termination
import SystemFOmega.Proofs.Run

/-!
# Normalizing nameless types

The normalizer of core types has the same run on nameless types: `Nameless.normalizeFrom` visits
what `Ty.normalizeFrom` visits and spends fuel when that does, but needs no names. A run that ends
well gives a normal reduct (`normalizeFrom_sound`), more depth changes nothing
(`normalizeFrom_mono`), and without a bound on the fuel a type with a kind is normalized if the
depth allows it (`Kinded.normalizes`), in either order.
-/

namespace SystemFOmega.Nameless

/-- Runs whose state is the fuel, if that is bounded. -/
abbrev Normalize := EStateM Exhausted (Option Int)

/-- Takes one unit of fuel. -/
def spend : Normalize Unit := do
  match ← get with
  | none => return
  | some n => if n ≤ 0 then throw .fuel else set (some (n - 1))

/-- Contracts redexes at the head until the head is none. -/
def weakHead : Nat → Nameless → Normalize Nameless
  | 0, app _ _ => throw .depth
  | d + 1, app f a => do
    spend
    match ← weakHead d f with
    | bind .lam _ t => do
      spend
      weakHead d (t.inst a)
    | f' => return app f' a
  | _, t => return t

/-- The first part of a visit, which depends on the order. -/
def head (o : Order) (d : Nat) (t : Nameless) : Normalize Nameless :=
  match o with
  | .normal => weakHead d t
  | .applicative => pure t

/-- The second part of a visit, where `go` visits the parts. -/
def visit (go : Nameless → Normalize Nameless) : Nameless → Normalize Nameless
  | int => return int
  | var r => return var r
  | arrow s t => return arrow (← go s) (← go t)
  | bind b k t => return bind b k (← go t)
  | app f a => do
    let f' ← go f
    let a' ← go a
    match f' with
    | bind .lam _ t => do
      spend
      go (t.inst a')
    | _ => return app f' a'

/-- Brings a type to normal form, at most to the given depth. -/
def normalizeFrom (o : Order) : Nat → Nameless → Normalize Nameless
  | 0, _ => throw .depth
  | d + 1, t => do
    spend
    visit (normalizeFrom o d) (← head o d t)

/-! ## What a run gives -/

/-- Weak head reduction contracts redexes only. -/
theorem weakHead_sound {d : Nat} {t u : Nameless} {g g' : Option Int}
    (h : weakHead d t g = .ok u g') : Steps t u := by
  induction d generalizing t u g g' with
  | zero =>
    cases t with
    | app f a => exact absurd h Run.throw_ok
    | _ =>
      obtain ⟨rfl, -⟩ := Run.pure_ok.1 h
      exact .refl
  | succ d ih =>
    cases t with
    | app f a =>
      obtain ⟨_, g₁, -, h⟩ := Run.bind_ok.1 h
      obtain ⟨f', g₂, hf, h⟩ := Run.bind_ok.1 h
      have hfa : Steps (app f a) (app f' a) := (ih hf).app .refl
      split at h
      · obtain ⟨_, g₃, -, h⟩ := Run.bind_ok.1 h
        exact (hfa.tail (.beta _ _ a)).trans (ih h)
      · obtain ⟨rfl, -⟩ := Run.pure_ok.1 h
        exact hfa
    | _ =>
      obtain ⟨rfl, -⟩ := Run.pure_ok.1 h
      exact .refl

theorem Normal.arrow {s t : Nameless} (hs : Normal s) (ht : Normal t) : Normal (arrow s t) := by
  intro u hu
  cases hu with
  | arrowLeft _ h => exact hs _ h
  | arrowRight _ h => exact ht _ h

theorem Normal.bind (b : Binder) (k : Kind) {t : Nameless} (ht : Normal t) :
    Normal (bind b k t) := by
  intro u hu
  cases hu with
  | body _ _ h => exact ht _ h

/-- An application is normal if it is no redex and its parts are normal. -/
theorem Normal.app {f a : Nameless} (hf : Normal f) (ha : Normal a) (hn : Neutral f) :
    Normal (app f a) := by
  intro u hu
  cases hu with
  | beta k t _ => exact hn k t rfl
  | fn _ h => exact hf _ h
  | arg _ h => exact ha _ h

/-- What comes before a type is looked at contracts redexes only, in both orders. -/
theorem head_sound {o : Order} {d : Nat} {t u : Nameless} {g g' : Option Int}
    (h : head o d t g = .ok u g') : Steps t u := by
  cases o with
  | normal => exact weakHead_sound h
  | applicative =>
    obtain ⟨rfl, -⟩ := Run.pure_ok.1 h
    exact .refl

/-- What normalization gives is a normal form that contraction reaches. -/
theorem normalizeFrom_sound {o : Order} {d : Nat} {t u : Nameless} {g g' : Option Int}
    (h : normalizeFrom o d t g = .ok u g') : Steps t u ∧ Normal u := by
  induction d generalizing t u g g' with
  | zero => exact absurd h Run.throw_ok
  | succ d ih =>
    obtain ⟨_, g₁, -, h⟩ := Run.bind_ok.1 h
    obtain ⟨t', g₂, ht, h⟩ := Run.bind_ok.1 h
    have ht := head_sound ht
    cases t' with
    | int | var =>
      obtain ⟨rfl, -⟩ := Run.pure_ok.1 h
      exact ⟨ht, fun u hu => by cases hu⟩
    | arrow s v =>
      obtain ⟨s', g₃, hs, h⟩ := Run.bind_ok.1 h
      obtain ⟨v', g₄, hv, h⟩ := Run.bind_ok.1 h
      obtain ⟨rfl, -⟩ := Run.pure_ok.1 h
      exact ⟨ht.trans ((ih hs).1.arrow (ih hv).1), (ih hs).2.arrow (ih hv).2⟩
    | bind b k v =>
      obtain ⟨v', g₃, hv, h⟩ := Run.bind_ok.1 h
      obtain ⟨rfl, -⟩ := Run.pure_ok.1 h
      exact ⟨ht.trans ((ih hv).1.bind b k), (ih hv).2.bind b k⟩
    | app f a =>
      obtain ⟨f', g₃, hf, h⟩ := Run.bind_ok.1 h
      obtain ⟨a', g₄, ha, h⟩ := Run.bind_ok.1 h
      have hfa := ht.trans ((ih hf).1.app (ih ha).1)
      split at h
      · obtain ⟨_, g₅, -, h⟩ := Run.bind_ok.1 h
        exact ⟨(hfa.tail (.beta _ _ a')).trans (ih h).1, (ih h).2⟩
      · rename_i hn
        obtain ⟨rfl, -⟩ := Run.pure_ok.1 h
        exact ⟨hfa, (ih hf).2.app (ih ha).2 fun k t e => hn k t e⟩

/-! ## Depth -/

/-- A deeper bound gives the same where the bound was deep enough. -/
theorem weakHead_mono {d e : Nat} (hde : d ≤ e) {t u : Nameless} {g g' : Option Int}
    (h : weakHead d t g = .ok u g') : weakHead e t g = .ok u g' := by
  induction d generalizing e t u g g' with
  | zero =>
    cases t with
    | app f a => exact absurd h Run.throw_ok
    | _ => cases e <;> exact h
  | succ d ih =>
    obtain ⟨e, rfl⟩ : ∃ e', e = e' + 1 := ⟨e - 1, by omega⟩
    have hde : d ≤ e := by omega
    cases t with
    | app f a =>
      obtain ⟨_, g₁, hs, h⟩ := Run.bind_ok.1 h
      obtain ⟨f', g₂, hf, h⟩ := Run.bind_ok.1 h
      refine Run.bind_ok.2 ⟨_, g₁, hs, Run.bind_ok.2 ⟨f', g₂, ih hde hf, ?_⟩⟩
      split at h
      · obtain ⟨_, g₃, hs', h⟩ := Run.bind_ok.1 h
        exact Run.bind_ok.2 ⟨_, g₃, hs', ih hde h⟩
      · exact h
    | _ => exact h

/-- A deeper bound gives the same for the step before a type is looked at. -/
theorem head_mono {o : Order} {d e : Nat} (hde : d ≤ e) {t u : Nameless} {g g' : Option Int}
    (h : head o d t g = .ok u g') : head o e t g = .ok u g' := by
  cases o with
  | normal => exact weakHead_mono hde h
  | applicative => exact h

/-- A run that ends well is the same with more depth. -/
theorem normalizeFrom_mono {o : Order} {d e : Nat} (hde : d ≤ e) {t u : Nameless}
    {g g' : Option Int} (h : normalizeFrom o d t g = .ok u g') :
    normalizeFrom o e t g = .ok u g' := by
  induction d generalizing e t u g g' with
  | zero => exact absurd h Run.throw_ok
  | succ d ih =>
    obtain ⟨e, rfl⟩ : ∃ e', e = e' + 1 := ⟨e - 1, by omega⟩
    have hde : d ≤ e := by omega
    obtain ⟨_, g₁, hs, h⟩ := Run.bind_ok.1 h
    obtain ⟨t', g₂, ht, h⟩ := Run.bind_ok.1 h
    refine Run.bind_ok.2 ⟨_, g₁, hs, Run.bind_ok.2 ⟨t', g₂, head_mono hde ht, ?_⟩⟩
    cases t' with
    | int | var => exact h
    | arrow s v =>
      obtain ⟨s', g₃, hs, h⟩ := Run.bind_ok.1 h
      obtain ⟨v', g₄, hv, h⟩ := Run.bind_ok.1 h
      exact Run.bind_ok.2 ⟨s', g₃, ih hde hs, Run.bind_ok.2 ⟨v', g₄, ih hde hv, h⟩⟩
    | bind b k v =>
      obtain ⟨v', g₃, hv, h⟩ := Run.bind_ok.1 h
      exact Run.bind_ok.2 ⟨v', g₃, ih hde hv, h⟩
    | app f a =>
      obtain ⟨f', g₃, hf, h⟩ := Run.bind_ok.1 h
      obtain ⟨a', g₄, ha, h⟩ := Run.bind_ok.1 h
      refine Run.bind_ok.2 ⟨f', g₃, ih hde hf, Run.bind_ok.2 ⟨a', g₄, ih hde ha, ?_⟩⟩
      split at h
      · obtain ⟨_, g₅, hs', h⟩ := Run.bind_ok.1 h
        exact Run.bind_ok.2 ⟨_, g₅, hs', ih hde h⟩
      · exact h

/-! ## Runs and changes of references and kinds -/

/-- The changes `Φ i` of types keep all forms, but for references and kinds. Under a binder, `Φ i`
goes on as `Φ (up i)`. -/
structure Structural {ι : Type} (Φ : ι → Nameless → Nameless) (up : ι → ι) (ρ : ι → Ref → Ref)
    (κ : Kind → Kind) : Prop where
  int (i : ι) : Φ i int = int
  var (i : ι) (r : Ref) : Φ i (var r) = var (ρ i r)
  arrow (i : ι) (s t : Nameless) : Φ i (arrow s t) = arrow (Φ i s) (Φ i t)
  bind (i : ι) (b : Binder) (k : Kind) (t : Nameless) :
    Φ i (bind b k t) = bind b (κ k) (Φ (up i) t)
  app (i : ι) (f a : Nameless) : Φ i (app f a) = app (Φ i f) (Φ i a)
  inst (i : ι) (t a : Nameless) : Φ i (t.inst a) = (Φ (up i) t).inst (Φ i a)

namespace Structural

variable {ι : Type} {Φ : ι → Nameless → Nameless} {up : ι → ι} {ρ : ι → Ref → Ref}
  {κ : Kind → Kind} (hΦ : Structural Φ up ρ κ)
include hΦ

theorem weakHead (i : ι) (d : Nat) (t : Nameless) :
    weakHead d (Φ i t) = Φ i <$> weakHead d t := by
  induction d generalizing t with
  | zero =>
    cases t with
    | app f a =>
      rw [hΦ.app]
      rfl
    | _ => simp only [hΦ.int, hΦ.var, hΦ.arrow, hΦ.bind, Nameless.weakHead, map_pure]
  | succ d ih =>
    cases t with
    | app f a =>
      simp only [hΦ.app, Nameless.weakHead, ih, map_bind, bind_map_left]
      congr 1
      funext _
      congr 1
      funext f'
      cases f' with
      | bind b k t =>
        cases b with
        | all => simp only [hΦ.bind, hΦ.app, map_pure]
        | lam => simp only [hΦ.bind, ← hΦ.inst, ih, map_bind]
      | _ => simp only [hΦ.int, hΦ.var, hΦ.arrow, hΦ.app, map_pure]
    | _ => simp only [hΦ.int, hΦ.var, hΦ.arrow, hΦ.bind, Nameless.weakHead, map_pure]

theorem head (i : ι) (o : Order) (d : Nat) (t : Nameless) :
    head o d (Φ i t) = Φ i <$> head o d t := by
  cases o with
  | normal => exact hΦ.weakHead i d t
  | applicative => rfl

/-- A run on the changed type is the run on the type, with its result changed. -/
theorem normalizeFrom (i : ι) (o : Order) (d : Nat) (t : Nameless) :
    normalizeFrom o d (Φ i t) = Φ i <$> normalizeFrom o d t := by
  induction d generalizing i t with
  | zero => rfl
  | succ d ih =>
    simp only [Nameless.normalizeFrom, hΦ.head, map_bind, bind_map_left]
    congr 1
    funext _
    congr 1
    funext t'
    cases t' with
    | int => simp only [hΦ.int, visit, map_pure]
    | var r => simp only [hΦ.var, visit, map_pure]
    | arrow s v => simp only [hΦ.arrow, visit, ih, map_bind, bind_map_left, map_pure]
    | bind b k v => simp only [hΦ.bind, visit, ih, map_bind, bind_map_left, map_pure]
    | app f a =>
      simp only [hΦ.app, visit, ih, map_bind, bind_map_left]
      congr 1
      funext f'
      congr 1
      funext a'
      cases f' with
      | bind b k v =>
        cases b with
        | all => simp only [hΦ.bind, hΦ.app, map_pure]
        | lam => simp only [hΦ.bind, ← hΦ.inst, ih, map_bind]
      | _ => simp only [hΦ.int, hΦ.var, hΦ.arrow, hΦ.app, map_pure]

end Structural

/-- Renamings keep the form of types. -/
theorem rename_structural : Structural rename Ref.lift (fun ξ => ξ) id where
  int _ := rfl
  var _ _ := rfl
  arrow _ _ _ := rfl
  bind _ _ _ _ := rfl
  app _ _ _ := rfl
  inst ξ t a := rename_inst ξ t a

/-- Normalization does not depend on which references there are, not even in what it costs. -/
theorem normalizeFrom_rename (ξ : Ref → Ref) (o : Order) (d : Nat) (t : Nameless) :
    normalizeFrom o d (t.rename ξ) = rename ξ <$> normalizeFrom o d t :=
  rename_structural.normalizeFrom ξ o d t

/-! ### Kinds of binders -/

/-- The type with the kind `*` for every bound name. -/
def unkinded : Nameless → Nameless
  | int => int
  | var r => var r
  | arrow s t => arrow s.unkinded t.unkinded
  | bind b _ t => bind b .star t.unkinded
  | app f a => app f.unkinded a.unkinded

theorem unkinded_rename (ξ : Ref → Ref) (t : Nameless) :
    (t.rename ξ).unkinded = t.unkinded.rename ξ := by
  induction t generalizing ξ with
  | int | var => rfl
  | arrow s t hs ht | app s t hs ht => simp only [rename, unkinded, hs, ht]
  | bind b k t ih => simp only [rename, unkinded, ih]

/-- Kinds of binders play no part in substitution. -/
theorem unkinded_subst (σ : Ref → Nameless) (t : Nameless) :
    (t.subst σ).unkinded = t.unkinded.subst (unkinded ∘ σ) := by
  induction t generalizing σ with
  | int | var => rfl
  | arrow s t hs ht | app s t hs ht => simp only [subst, unkinded, hs, ht]
  | bind b k t ih =>
    have hup : unkinded ∘ up σ = up (unkinded ∘ σ) := by
      funext r
      obtain rfl | ⟨r, rfl⟩ := r.zero_or_shift
      · rfl
      · simp only [Function.comp_apply, up_shift, shift, unkinded_rename]
    simp only [subst, unkinded, ih, hup]

theorem unkinded_inst (t a : Nameless) : (t.inst a).unkinded = t.unkinded.inst a.unkinded := by
  have hsingle : unkinded ∘ single a = single a.unkinded := by
    funext r
    obtain rfl | ⟨r, rfl⟩ := r.zero_or_shift
    · rfl
    · simp only [Function.comp_apply, single_shift, unkinded]
  rw [inst, unkinded_subst, hsingle, inst]

/-- To forget the kinds of binders keeps the form of types. -/
theorem unkinded_structural :
    Structural (fun _ : Unit => unkinded) id (fun _ r => r) fun _ => .star where
  int _ := rfl
  var _ _ := rfl
  arrow _ _ _ := rfl
  bind _ _ _ _ := rfl
  app _ _ _ := rfl
  inst _ := unkinded_inst

/-- The kinds of bound names play no part in a run. -/
theorem normalizeFrom_unkinded (o : Order) (d : Nat) (t : Nameless) :
    normalizeFrom o d t.unkinded = unkinded <$> normalizeFrom o d t :=
  unkinded_structural.normalizeFrom () o d t

/-! ## Types with a kind have a run that ends well -/

open Relation

/-- Weak head reduction ends where every way of contracting and going into parts does. -/
theorem weakHead_ends {t : Nameless} (h : Acc (TransGen Smaller) t) :
    ∃ d u, weakHead d t none = .ok u none := by
  induction h with
  | intro t _ ih =>
    cases t with
    | app f a =>
      obtain ⟨d, f', hf⟩ := ih f (.single (.inr (.fn f a)))
      by_cases hl : ∃ k v, f' = bind .lam k v
      · obtain ⟨k, v, rfl⟩ := hl
        have hs : Steps (app f a) (app (bind .lam k v) a) := (weakHead_sound hf).app .refl
        obtain ⟨e, u, hu⟩ := ih (v.inst a) (smaller_of_steps hs (.beta k v a))
        refine ⟨max d e + 1, u, Run.bind_ok.2 ⟨(), none, rfl, Run.bind_ok.2 ⟨_, none,
          weakHead_mono (Nat.le_max_left d e) hf, Run.bind_ok.2 ⟨(), none, rfl, ?_⟩⟩⟩⟩
        exact weakHead_mono (Nat.le_max_right d e) hu
      · refine ⟨d + 1, app f' a, Run.bind_ok.2 ⟨(), none, rfl, Run.bind_ok.2 ⟨f', none, hf, ?_⟩⟩⟩
        split
        · exact absurd ⟨_, _, rfl⟩ hl
        · rfl
    | _ => exact ⟨0, _, rfl⟩

theorem head_ends (o : Order) {t : Nameless} (h : Acc (TransGen Smaller) t) :
    ∃ d u, head o d t none = .ok u none := by
  cases o with
  | normal => exact weakHead_ends h
  | applicative => exact ⟨0, t, rfl⟩

theorem normalizeFrom_succ_ok {o : Order} {d e : Nat} {t t' u : Nameless}
    (hh : head o d t none = .ok t' none) (hde : d ≤ e)
    (h : visit (normalizeFrom o e) t' none = .ok u none) :
    normalizeFrom o (e + 1) t none = .ok u none :=
  Run.bind_ok.2 ⟨(), none, rfl, Run.bind_ok.2 ⟨t', none, head_mono hde hh, h⟩⟩

/-- Normalization ends where every way of contracting and going into parts does, in both orders. -/
theorem normalizeFrom_ends (o : Order) {t : Nameless} (h : Acc (TransGen Smaller) t) :
    ∃ d u, normalizeFrom o d t none = .ok u none := by
  -- on the relation that has both the steps of a type and its parts
  induction h with
  | intro t hacc ih =>
    obtain ⟨d, t', hh⟩ := head_ends o (.intro t hacc)
    have hs := head_sound hh
    cases t' with
    | int => exact ⟨d + 1, int, normalizeFrom_succ_ok hh (Nat.le_refl d) rfl⟩
    | var r => exact ⟨d + 1, var r, normalizeFrom_succ_ok hh (Nat.le_refl d) rfl⟩
    | arrow s v =>
      obtain ⟨e₁, s', h₁⟩ := ih s (smaller_of_part hs (.left s v))
      obtain ⟨e₂, v', h₂⟩ := ih v (smaller_of_part hs (.right s v))
      refine ⟨max d (max e₁ e₂) + 1, arrow s' v', normalizeFrom_succ_ok hh (by omega) ?_⟩
      exact Run.bind_ok.2 ⟨s', none, normalizeFrom_mono (by omega) h₁,
        Run.bind_ok.2 ⟨v', none, normalizeFrom_mono (by omega) h₂, rfl⟩⟩
    | bind b k v =>
      obtain ⟨e, v', hv⟩ := ih v (smaller_of_part hs (.body b k v))
      refine ⟨max d e + 1, bind b k v', normalizeFrom_succ_ok hh (by omega) ?_⟩
      exact Run.bind_ok.2 ⟨v', none, normalizeFrom_mono (by omega) hv, rfl⟩
    | app f a =>
      obtain ⟨e₁, f', h₁⟩ := ih f (smaller_of_part hs (.fn f a))
      obtain ⟨e₂, a', h₂⟩ := ih a (smaller_of_part hs (.arg f a))
      by_cases hl : ∃ k v, f' = bind .lam k v
      · obtain ⟨k, v, rfl⟩ := hl
        have hs' := hs.trans ((normalizeFrom_sound h₁).1.app (normalizeFrom_sound h₂).1)
        -- the visited parts make a redex, which is a reduct of the type itself
        obtain ⟨e₃, u, h₃⟩ := ih (v.inst a') (smaller_of_steps hs' (.beta k v a'))
        refine ⟨max d (max e₁ (max e₂ e₃)) + 1, u, normalizeFrom_succ_ok hh (by omega) ?_⟩
        exact Run.bind_ok.2 ⟨_, none, normalizeFrom_mono (by omega) h₁,
          Run.bind_ok.2 ⟨a', none, normalizeFrom_mono (by omega) h₂,
            Run.bind_ok.2 ⟨(), none, rfl, normalizeFrom_mono (by omega) h₃⟩⟩⟩
      · refine ⟨max d (max e₁ e₂) + 1, app f' a', normalizeFrom_succ_ok hh (by omega) ?_⟩
        refine Run.bind_ok.2 ⟨f', none, normalizeFrom_mono (by omega) h₁,
          Run.bind_ok.2 ⟨a', none, normalizeFrom_mono (by omega) h₂, ?_⟩⟩
        split
        · exact absurd ⟨_, _, rfl⟩ hl
        · rfl

/-- A type that has a kind has a normal form, which normalization finds in both orders if it may go
deep enough. -/
theorem Kinded.normalizes (o : Order) {K : Kinds} {t : Nameless} {k : Kind} (h : Kinded K t k) :
    ∃ d u, normalizeFrom o d t none = .ok u none :=
  normalizeFrom_ends o h.sn.acc_smaller.transGen

end SystemFOmega.Nameless
