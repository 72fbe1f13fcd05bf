import SystemFOmega.Proofs.Core.Relabel

/-!
# Types that differ in the numbers of fresh names

Two types are twins (`Ty.Twin`) if a relabeling takes the one to the other and their free names are
of the program. Twins are alpha-equivalent and print alike. Whether a type conforms to another is
the same for their twins (`Ty.Twin.conform_iff`), although the comparison may confuse a binder with
a free name: what it depends on is which names are equal, and not their numbers.
-/

namespace SystemFOmega

/-! ## Comparison up to the names of the received type -/

/-- A type without names conforms to an expected type, as `Ty.conform` understands it. -/
def Nameless.Conforms : Nameless → Ty → Prop
  | .int, .int _ => True
  | .var r, .var y _ => r = .free y
  | .arrow s t, .arrow s' t' _ => s.Conforms s' ∧ t.Conforms t'
  | .bind b k t, .bind b' y yk t' _ => b = b' ∧ k = yk ∧ (t.inst (.var (.free y))).Conforms t'
  | .app f a, .app f' a' _ => f.Conforms f' ∧ a.Conforms a'
  | _, _ => False
termination_by structural _ t => t

/-- The comparison accepts a type just if the type without names conforms to the expected one. -/
theorem Ty.conform_ok_iff {received expected : Ty} :
    received.conform expected = .ok () ↔ received.nameless.Conforms expected := by
  induction expected generalizing received with
  | int l => cases received <;> simp [conform, nameless, Nameless.Conforms]
  | var y l => cases received <;> simp [conform, nameless, Nameless.Conforms]
  | arrow s t l hs ht =>
    cases received with
    | arrow s' t' k => exact conform_arrow_iff.trans (and_congr hs ht)
    | _ => simp [conform, nameless, Nameless.Conforms]
  | bind b y yk t l ht =>
    cases received with
    | bind b' x xk t' k =>
      rw [conform_bind_iff, ht, nameless_rebind, nameless, Nameless.Conforms]
    | _ => simp [conform, nameless, Nameless.Conforms]
  | app f a l hf ha =>
    cases received with
    | app f' a' k => exact conform_app_iff.trans (and_congr hf ha)
    | _ => simp [conform, nameless, Nameless.Conforms]

/-- A change of free names. -/
def Ref.mapFree (f : Name → Name) : Ref → Ref
  | .bound i => .bound i
  | .free x => .free (f x)

section Injective

variable {f : Name → Name}

theorem Ref.lift_mapFree (f : Name → Name) : Ref.lift (Ref.mapFree f) = Ref.mapFree f := by
  funext r
  obtain rfl | ⟨s, rfl⟩ := r.zero_or_shift
  · rfl
  · cases s <;> rfl

/-- Names may be changed before or after one of them is bound, if no two are confused. -/
theorem Ref.mapFree_close (hf : Function.Injective f) (x : Name) :
    Ref.mapFree f ∘ Ref.close x = Ref.close (f x) ∘ Ref.mapFree f := by
  funext r
  by_cases h : r = .free x
  · subst h
    simp [Ref.mapFree]
  · have h' : Ref.mapFree f r ≠ .free (f x) := by
      cases r with
      | bound i => exact fun e => by cases e
      | free y => exact fun e => h (congrArg Ref.free (hf (Ref.free.inj e)))
    simp only [Function.comp_apply, Ref.close_of_ne h, Ref.close_of_ne h']
    cases r <;> rfl

/-- Without the names of binders, a relabeling only changes free names. -/
theorem Ty.nameless_mapNames (hf : Function.Injective f) (t : Ty) :
    (t.mapNames f).nameless = t.nameless.rename (Ref.mapFree f) := by
  induction t with
  | int k => rfl
  | var x k => rfl
  | arrow s t k hs ht => rw [mapNames, nameless, nameless, hs, ht, Nameless.rename]
  | app g a k hg ha => rw [mapNames, nameless, nameless, hg, ha, Nameless.rename]
  | bind b x xk t k ht =>
    rw [mapNames, nameless, nameless, ht, Nameless.rename, Nameless.rename_rename,
      Nameless.rename_rename, Ref.lift_mapFree, Ref.mapFree_close hf]

/-- A comparison depends on which names are equal, and not on the names. -/
theorem Nameless.conforms_mapNames (hf : Function.Injective f) {s : Nameless} {t : Ty} :
    (s.rename (Ref.mapFree f)).Conforms (t.mapNames f) ↔ s.Conforms t := by
  induction t generalizing s with
  | int l => cases s <;> simp [Ty.mapNames, rename, Conforms]
  | var y l =>
    cases s with
    | var r =>
      cases r with
      | bound i => simp [Ty.mapNames, rename, Conforms, Ref.mapFree]
      | free x => simp [Ty.mapNames, rename, Conforms, Ref.mapFree, hf.eq_iff]
    | _ => simp [Ty.mapNames, rename, Conforms]
  | arrow u v l hu hv =>
    cases s with
    | arrow u' v' => exact and_congr hu hv
    | _ => simp [Ty.mapNames, rename, Conforms]
  | bind b y yk v l hv =>
    cases s with
    | bind b' k v' =>
      rw [Ty.mapNames, rename, Conforms, Conforms, ← hv, rename_inst, Ref.lift_mapFree]
      rfl
    | _ => simp [Ty.mapNames, rename, Conforms]
  | app g a l hg ha =>
    cases s with
    | app g' a' => exact and_congr hg ha
    | _ => simp [Ty.mapNames, rename, Conforms]

end Injective

namespace Ty

/-! ## Twins -/

/-- A relabeling takes `t` to `t'`, and free names have numbers below `b`. -/
structure Twin (b : Int) (t t' : Ty) : Prop where
  free {x : Name} : x ∈ t.freeVars → x.id < b
  relabeled : ∃ ρ : Relabeling b, t' = t.mapNames ρ.perm

namespace Twin

variable {b : Int} {t t' u u' : Ty} {x : Name}

theorem of_maps {ρ : Relabeling b} (h : ρ.Maps t t') (hf : ∀ x ∈ t.freeVars, x.id < b) :
    Twin b t t' := ⟨fun hx => hf _ hx, ρ, h.eq⟩

/-- Any two counters above the numbers of twins may go with the relabeling. -/
theorem exists_maps (h : Twin b t t') {c c' : Int} (hc : b ≤ c) (hc' : b ≤ c') (ht : t.Below c)
    (ht' : t'.Below c') : ∃ ρ : Relabeling b, ρ.left = c ∧ ρ.right = c' ∧ ρ.Maps t t' := by
  obtain ⟨ρ, rfl⟩ := h.relabeled
  refine ⟨⟨ρ.perm, c, c', ρ.value, ρ.fixed, hc, hc'⟩, rfl, rfl, fun {x} hx => ⟨ht x hx, ?_⟩, rfl⟩
  apply ht'
  rw [names_mapNames]
  exact List.mem_map_of_mem hx

/-- A type with names of the program only has itself for a twin, whatever the relabeling. -/
theorem eq_of_below {ρ : Relabeling b} (h : t.Below b) : t.mapNames ρ.perm = t :=
  mapNames_eq_self fun x hx => ρ.fixed (h x hx)

/-- A type of the program is its own twin. -/
theorem refl (h : t.Below b) : Twin b t t := by
  refine ⟨fun hx => h _ (freeVars_subset_names t hx), ?_⟩
  exact ⟨⟨Equiv.refl _, b, b, fun _ => rfl, fun _ => rfl, Int.le_refl b, Int.le_refl b⟩,
    (mapNames_id t).symm⟩

/-- Twins print alike, since numbers are not printed. -/
theorem print_eq (h : Twin b t t') : t'.print = t.print := by
  obtain ⟨ρ, rfl⟩ := h.relabeled
  exact print_mapNames ρ.value t

/-- A relabeling does nothing to free names of the program. -/
theorem nameless_eq (ρ : Relabeling b) (hf : ∀ x ∈ t.freeVars, x.id < b) :
    t.nameless.rename (Ref.mapFree ρ.perm) = t.nameless := by
  refine Eq.trans (Nameless.rename_congr fun r hr => ?_) (Nameless.rename_id _)
  obtain ⟨x, hx, rfl⟩ := uses_nameless.1 hr
  rw [Ref.mapFree, ρ.fixed (hf x hx), id]

/-- Twins are the same up to the names of binders. -/
theorem alphaEq (h : Twin b t t') : t.AlphaEq t' := by
  obtain ⟨ρ, rfl⟩ := h.relabeled
  rw [AlphaEq, nameless_mapNames ρ.perm.injective, nameless_eq ρ fun _ hx => h.free hx]

/-- Twins conform to twins. -/
theorem conform_iff (ht : Twin b t t') (hu : Twin b u u') :
    t'.conform u' = .ok () ↔ t.conform u = .ok () := by
  obtain ⟨ρ, rfl⟩ := hu.relabeled
  -- the relabeling of the expected type does not change the received one, up to bound names
  rw [conform_ok_iff, conform_ok_iff, ← ht.alphaEq, ← nameless_eq ρ fun _ hx => ht.free hx,
    Nameless.conforms_mapNames ρ.perm.injective, nameless_eq ρ fun _ hx => ht.free hx]

/-! ### Types from parts -/

theorem arrow (ht : t.Below b) (hu : Twin b u u') (k : Kind) :
    Twin b (.arrow t u k) (.arrow t u' k) := by
  obtain ⟨ρ, rfl⟩ := hu.relabeled
  refine ⟨fun hx => ?_, ρ, by rw [mapNames, eq_of_below ht]⟩
  rcases List.mem_append.1 hx with hx | hx
  · exact ht _ (freeVars_subset_names t hx)
  · exact hu.free hx

/-- The parts of twins are twins. -/
theorem arrow_inv {v : Ty} {k : Kind} (h : Twin b (.arrow t u k) v) :
    ∃ t' u', v = .arrow t' u' k ∧ Twin b t t' ∧ Twin b u u' := by
  obtain ⟨ρ, rfl⟩ := h.relabeled
  exact ⟨_, _, rfl, ⟨fun hx => h.free (List.mem_append_left _ hx), ρ, rfl⟩,
    fun hx => h.free (List.mem_append_right _ hx), ρ, rfl⟩

theorem bind (hx : x.id < b) (ht : Twin b t t') (b' : Binder) (xk k : Kind) :
    Twin b (.bind b' x xk t k) (.bind b' x xk t' k) := by
  obtain ⟨ρ, rfl⟩ := ht.relabeled
  exact ⟨fun hy => ht.free (List.mem_filter.1 hy).1, ρ, by rw [mapNames, ρ.fixed hx]⟩

end Twin

/-- Twins, with numbers below the counters of their runs. -/
structure TwinAt (b c c' : Int) (t t' : Ty) : Prop where
  twin : Twin b t t'
  below : t.Below c
  below' : t'.Below c'

namespace TwinAt

variable {b c c' d d' : Int} {t t' u u' : Ty} {x : Name}

theorem mono (h : TwinAt b c c' t t') (hc : c ≤ d) (hc' : c' ≤ d') : TwinAt b d d' t t' :=
  ⟨h.twin, h.below.mono hc, h.below'.mono hc'⟩

theorem refl (h : t.Below b) (hc : b ≤ c) (hc' : b ≤ c') : TwinAt b c c' t t :=
  ⟨.refl h, h.mono hc, h.mono hc'⟩

theorem of_maps {ρ : Relabeling b} (h : ρ.Maps t t') (hf : ∀ x ∈ t.freeVars, x.id < b) :
    TwinAt b ρ.left ρ.right t t' :=
  ⟨.of_maps h hf, h.below_left, h.below_right⟩

theorem arrow (ht : t.Below b) (hc : b ≤ c) (hc' : b ≤ c') (hu : TwinAt b c c' u u') (k : Kind) :
    TwinAt b c c' (.arrow t u k) (.arrow t u' k) :=
  ⟨hu.twin.arrow ht k, List.forall_mem_append.2 ⟨ht.mono hc, hu.below⟩,
    List.forall_mem_append.2 ⟨ht.mono hc', hu.below'⟩⟩

theorem arrow_inv {v : Ty} {k : Kind} (h : TwinAt b c c' (.arrow t u k) v) :
    ∃ t' u', v = .arrow t' u' k ∧ TwinAt b c c' t t' ∧ TwinAt b c c' u u' := by
  obtain ⟨t', u', rfl, ht, hu⟩ := h.twin.arrow_inv
  have hl := List.forall_mem_append.1 h.below
  have hr := List.forall_mem_append.1 h.below'
  exact ⟨t', u', rfl, ⟨ht, hl.1, hr.1⟩, hu, hl.2, hr.2⟩

theorem bind (hx : x.id < b) (hc : b ≤ c) (hc' : b ≤ c') (ht : TwinAt b c c' t t') (b' : Binder)
    (xk k : Kind) : TwinAt b c c' (.bind b' x xk t k) (.bind b' x xk t' k) :=
  ⟨ht.twin.bind hx b' xk k, List.forall_mem_cons.2 ⟨Int.lt_of_lt_of_le hx hc, ht.below⟩,
    List.forall_mem_cons.2 ⟨Int.lt_of_lt_of_le hx hc', ht.below'⟩⟩

/-- The body of a binder, with a type of the program for the bound name, in both runs. -/
theorem inst {v a : Ty} {b' : Binder} {xk k : Kind} (h : TwinAt b c c' (.bind b' x xk t k) v)
    (ha : a.Below b) (hc : b ≤ c) (hc' : b ≤ c') :
    ∃ x' t', v = .bind b' x' xk t' k ∧ c ≤ (t.subst x a c).2 ∧ c' ≤ (t'.subst x' a c').2 ∧
      TwinAt b (t.subst x a c).2 (t'.subst x' a c').2 (t.subst x a c).1 (t'.subst x' a c').1 := by
  obtain ⟨ρ, rfl, rfl, hm⟩ := h.twin.exists_maps hc hc' h.below h.below'
  obtain ⟨t', rfl, hx, ht⟩ := hm.bind_inv
  have hma : ρ.Maps a a := by
    refine ⟨fun {y} hy => ?_, (Twin.eq_of_below ha).symm⟩
    unfold Relabeling.Covers
    rw [ρ.fixed (ha y hy)]
    exact ⟨Int.lt_of_lt_of_le (ha y hy) hc, Int.lt_of_lt_of_le (ha y hy) hc'⟩
  obtain ⟨σ, hle, hl, hr, hσ⟩ := subst_relabel ht hma hx
  refine ⟨_, t', rfl, hl ▸ hle.left, hr ▸ hle.right, ?_⟩
  rw [hl, hr]
  refine .of_maps hσ fun y hy => ?_
  rcases (mem_freeVars_subst _ _ _ _ _).1 hy with ⟨hyt, hyx⟩ | ⟨-, hya⟩
  · exact h.twin.free (List.mem_filter.2 ⟨hyt, by simpa using hyx⟩)
  · exact ha _ (freeVars_subset_names a hya)

/-- Normal forms of twins are twins, and are found with the same fuel. -/
theorem normalize (h : TwinAt b c c' t t') (hc : b ≤ c) (hc' : b ≤ c') (o : Order)
    (fuel : Option Int) (d : Nat) :
    Run.Pairs (normalizeFrom o d t) ⟨fuel, c⟩ (normalizeFrom o d t') ⟨fuel, c'⟩
      (fun u s u' s' => c ≤ s.supply ∧ c' ≤ s'.supply ∧ TwinAt b s.supply s'.supply u u') Eq := by
  obtain ⟨ρ, rfl, rfl, hm⟩ := h.twin.exists_maps hc hc' h.below h.below'
  have hsync : ρ.Syncs ⟨fuel, ρ.left⟩ ⟨fuel, ρ.right⟩ := ⟨rfl, rfl, rfl⟩
  refine (normalizeFrom_relabel o d hsync hm).with_left.mono (fun u s u' s' hrun => ?_)
    fun _ _ h => h
  obtain ⟨hleft, σ, hle, hs, hu⟩ := hrun
  have hnormal : t.normalize o fuel ρ.left d = .ok u s := hleft
  rw [hs.left, hs.right]
  refine ⟨hle.left, hle.right, .of_maps hu fun x hx => ?_⟩
  exact h.twin.free (normalize_freeVars hnormal hx)

end TwinAt

end Ty

end SystemFOmega
