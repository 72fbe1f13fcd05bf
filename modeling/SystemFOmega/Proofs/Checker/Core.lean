import SystemFOmega.Proofs.Checker.Context
import SystemFOmega.Proofs.Checker.Steps
import SystemFOmega.Proofs.Core.Fuel

/-!
# Elaboration as a function

What the elaboration of a type gives is known from the type and its telescope alone
(`TypeExpr.coreAt`): a defined name stands for the core type of its definition at the place of the
definition. At a place of a program, with the entries of the telescope in the context and right
tables, a run of the elaboration has this outcome, be it a type or an error, and changes nothing but
the tables of types and kinds (`TypeExpr.elaborate_gives`). So tables, and where an elaboration is
made, play no part.

A type that elaboration gives is well-kinded (`TypeExpr.Placed.elaborated`), and so its
normalization ends.
-/

namespace SystemFOmega

open Function (update)

/-! ## The core type of a surface type -/

/-- The type, if it carries the kind `k`. -/
def Ty.requireKind (k : Kind) (t : Ty) : Except Failure.Cause Ty :=
  match t.kind.conform k with
  | .ok () => .ok t
  | .error c => .error (.clash c)

/-- The core type of a surface type, where `σ` gives the core types of the names in scope, or the
reason why there is none. -/
def TypeExpr.core (ρ : Env) (σ : Name → Except Failure.Cause Ty) :
    TypeExpr → Except Failure.Cause Ty
  | .int => return .int .star
  | .var x => σ x.name
  | .arrow s t => do
    let s ← (← s.core ρ σ).requireKind .star
    let t ← (← t.core ρ σ).requireKind .star
    return .arrow s t .star
  | .bind .all x k t => do
    let σ' := update σ x.name (.ok (.var x.name (k.expand ρ)))
    let t ← (← t.core (ρ.bindType x.name) σ').requireKind .star
    return .bind .all x.name (k.expand ρ) t .star
  | .bind .lam x k t => do
    let σ' := update σ x.name (.ok (.var x.name (k.expand ρ)))
    let t ← t.core (ρ.bindType x.name) σ'
    return .bind .lam x.name (k.expand ρ) t (.arrow (k.expand ρ) t.kind)
  | .app f a => do
    let f ← f.core ρ σ
    match f.kind with
    | .star => throw (.notOperator f a)
    | .arrow j k =>
      let a ← (← a.core ρ σ).requireKind j
      return .app f a k
  | .kinded t k => do (← t.core ρ σ).requireKind (k.expand ρ)

namespace Telescope

/-- The core types of the names in scope. -/
def cores : Telescope → Name → Except Failure.Cause Ty
  | [] => fun _ => .error .circular
  | .typeVar x k :: S => update (cores S) x (.ok (.var x (k.expand (env S))))
  | .typeDef x u :: S => update (cores S) x (u.core (env S) (cores S))
  | _ :: S => cores S

/-- The kinds of the type variables in scope. -/
def nameKinds : Telescope → NameKinds
  | [] => fun _ => none
  | .typeVar x k :: S => update (nameKinds S) x (some (k.expand (env S)))
  | _ :: S => nameKinds S

end Telescope

/-- The core type of a surface type at a place. -/
def TypeExpr.coreAt (S : Telescope) (u : TypeExpr) : Except Failure.Cause Ty := u.core S.env S.cores

/-- The core type of a surface type at a place, if it carries the kind `k`. -/
def TypeExpr.coreOf (S : Telescope) (k : Kind) (u : TypeExpr) : Except Failure.Cause Ty := do
  (← u.coreAt S).requireKind k

section

variable {place : Name → Telescope} {S S' : Telescope} {d : Decl} {x : Name}

theorem Telescope.cores_cons_of_ne (h : x ≠ d.name) : cores (d :: S) x = cores S x := by
  cases d with
  | typeVar y k => exact Function.update_of_ne h _ _
  | typeDef y u => exact Function.update_of_ne h _ _
  | _ => rfl

theorem Telescope.nameKinds_cons_of_ne (h : x ≠ d.name) : nameKinds (d :: S) x = nameKinds S x := by
  cases d with
  | typeVar y k => exact Function.update_of_ne h _ _
  | _ => rfl

/-- What is known of a name is known at its place. -/
theorem Telescope.Placed.eq_of_suffix {α : Type} {f : Telescope → Name → α} (hS : S.Placed place)
    (hf : ∀ {d S x}, x ≠ Decl.name d → f (d :: S) x = f S x) (h : S' <:+ S) (hx : x ∈ S'.names) :
    f S x = f S' x := by
  induction S with
  | nil => rw [List.suffix_nil.1 h]
  | cons d S ih =>
    rcases List.suffix_cons_iff.1 h with rfl | h
    · rfl
    · have hd : d.name ∉ Telescope.names S := hS.2.2.not_mem hS.2.1
      have hxS : x ∈ Telescope.names S := (h.map Decl.name).subset hx
      rw [hf fun e => hd (e ▸ hxS), ih hS.2.2 h]

theorem Telescope.Placed.cores_eq (hS : S.Placed place) (h : d :: S' <:+ S) :
    S.cores d.name = cores (d :: S') d.name :=
  hS.eq_of_suffix cores_cons_of_ne h List.mem_cons_self

theorem Telescope.Has.refl (d : Decl) (S : Telescope) :
    Telescope.Has (d :: S) d.level d.name := ⟨d, S, rfl, rfl, List.suffix_rfl⟩

theorem Telescope.Placed.kindDef_expand (hS : S.Placed place) {x : Ident} {k : KindExpr}
    (h : .kindDef x.name k :: S' <:+ S) : (KindExpr.var x).expand S.env = k.expand S'.env := by
  obtain ⟨ξ, ζ, he⟩ := hS.embeds h
  have hx : (KindExpr.var x).Placed (.kindDef x.name k :: S') := .refl (.kindDef x.name k) S'
  rw [he.expand_kind hx]
  exact Function.update_self ..

/-! ## Runs with a known outcome -/

/-- From `s`, the run has the outcome `r`, and a state in which it ends well satisfies `P`. -/
inductive Check.Gives {α : Type} (m : Check α) (s : Checker.State) :
    Except Failure.Cause α → (Checker.State → Prop) → Prop
  | ok {a : α} {s' : Checker.State} {P : Checker.State → Prop} : m s = .ok a s' → P s' →
    Gives m s (.ok a) P
  | error {f : Failure} {s' : Checker.State} {P : Checker.State → Prop} : m s = .error f s' →
    Gives m s (.error f.cause) P

namespace Check.Gives

variable {α β : Type} {m : Check α} {f : α → Check β} {r : Except Failure.Cause α}
  {g : α → Except Failure.Cause β} {s : Checker.State} {P R : Checker.State → Prop}

theorem pure {a : α} (h : P s) : Gives (Pure.pure a) s (.ok a) P := .ok rfl h

theorem raise (c : Failure.Cause) (l : Option Location) :
    Gives (Check.raise c l : Check α) s (.error c) P :=
  .error (f := ⟨c, l⟩) rfl

theorem of_ends {a : α} (h : Run.Ends m s (fun b s' => b = a ∧ P s') False) :
    Gives m s (.ok a) P := by
  obtain ⟨_, s', hm, rfl, hP⟩ := h.exists_ok id
  exact .ok hm hP

theorem exists_ok {a : α} (h : Gives m s (.ok a) P) : ∃ s', m s = .ok a s' ∧ P s' := by
  cases h with
  | ok hm hP => exact ⟨_, hm, hP⟩

theorem exists_error {c : Failure.Cause} (h : Gives m s (.error c) P) :
    ∃ f s', m s = .error f s' ∧ f.cause = c := by
  cases h with
  | error hm => exact ⟨_, _, hm, rfl⟩

/-- The result of a run that ends well. -/
theorem of_ok (h : Gives m s r P) {a : α} {s' : Checker.State} (hm : m s = .ok a s') :
    r = .ok a ∧ P s' := by
  cases h with
  | ok h hP =>
    obtain ⟨rfl, rfl⟩ := EStateM.Result.ok.inj (hm.symm.trans h)
    exact ⟨rfl, hP⟩
  | error h => cases hm.symm.trans h

/-- A first step that does not fail. -/
theorem ends_bind {r : Except Failure.Cause β} {P : α → Checker.State → Prop}
    (h : Run.Ends m s P False) (hf : ∀ a s', P a s' → Gives (f a) s' r R) :
    Gives (m >>= f) s r R := by
  obtain ⟨a, s', hm, hP⟩ := h.exists_ok id
  have hrun := Run.bind_of_ok f hm
  cases hf a s' hP with
  | ok h hR => exact .ok (hrun.trans h) hR
  | error h => exact .error (hrun.trans h)

/-- The outcome of a sequence is that of its parts. -/
theorem bind (h : Gives m s r P) (hf : ∀ a s', r = .ok a → P s' → Gives (f a) s' (g a) R) :
    Gives (m >>= f) s (r >>= g) R := by
  cases h with
  | @ok a s' _ hm hP =>
    refine ends_bind (P := fun b s' => b = a ∧ P s') ?_ fun b s' hb => ?_
    · unfold Run.Ends
      rw [hm]
      exact ⟨rfl, hP⟩
    · obtain ⟨rfl, hP⟩ := hb
      exact hf b s' rfl hP
  | error hm => exact .error (Run.bind_of_error f hm)

/-- A second part that does not fail and keeps the result. -/
theorem then_keep {f : α → Check α} (h : Gives m s r P)
    (hf : ∀ a s', r = .ok a → P s' → Run.Ends (f a) s' (fun b s'' => b = a ∧ R s'') False) :
    Gives (m >>= f) s r R := by
  have hr : r = r >>= fun a => .ok a := by cases r <;> rfl
  rw [hr]
  exact bind h fun a s' ha hP => of_ends (hf a s' ha hP)

end Check.Gives

theorem Check.ofKind_gives {s : Checker.State} {P : Checker.State → Prop} (k : Kind) (t : Ty)
    (h : P s) : Gives (Check.ofKind k t) s (t.requireKind k) P := by
  unfold Check.ofKind Ty.requireKind
  cases t.kind.conform k with
  | ok => exact .ok rfl h
  | error c => exact .raise (.clash c) none

/-! ## Tables -/

/-- What the tables of kinds and types say of a name is what its definition stands for. -/
structure Checker.State.Keeps (place : Name → Telescope) (s : Checker.State) : Prop where
  kinds {x : Name} {k : Kind} : s.kinds.get? x = some k →
    ∀ (j : KindExpr) (S : Telescope), place x = .kindDef x j :: S → k = j.expand S.env
  types {x : Name} {t : Ty} : s.types.get? x = some t →
    ∀ (u : TypeExpr) (S : Telescope), place x = .typeDef x u :: S → u.coreAt S = .ok t

theorem Checker.State.Keeps.start (c : Int) (tr : Trace) :
    Checker.State.Keeps place { supply := c, trace := tr } :=
  ⟨fun h => (nomatch h), fun h => (nomatch h)⟩

/-- The state `s'` comes from `s` by elaborations: only the tables of kinds and types have changed,
and they are right. -/
structure Checker.State.Extends (place : Name → Telescope) (s s' : Checker.State) : Prop where
  same : s' = { s with kinds := s'.kinds, types := s'.types }
  keeps : s'.Keeps place

namespace Checker.State.Extends

variable {s s' : Checker.State}

theorem refl (h : s.Keeps place) : s.Extends place s := ⟨rfl, h⟩

theorem exprs_eq (h : s.Extends place s') : s'.exprs = s.exprs := by rw [h.same]

theorem supply_eq (h : s.Extends place s') : s'.supply = s.supply := by rw [h.same]

theorem insertKind (h : s.Extends place s') {j : KindExpr} (hx : place x = .kindDef x j :: S) :
    s.Extends place { s' with kinds := s'.kinds.insert x (j.expand S.env) } := by
  refine ⟨?_, Table.forall_insert h.keeps.kinds fun i T hT => ?_, h.keeps.types⟩
  · rw [h.same]
  · obtain ⟨hi, rfl⟩ := List.cons.inj (hx.symm.trans hT)
    cases hi
    rfl

theorem insertType (h : s.Extends place s') {u : TypeExpr} {t : Ty}
    (hx : place x = .typeDef x u :: S) (ht : u.coreAt S = .ok t) :
    s.Extends place { s' with types := s'.types.insert x t } := by
  refine ⟨?_, h.keeps.kinds, Table.forall_insert h.keeps.types fun v T hT => ?_⟩
  · rw [h.same]
  · obtain ⟨hi, rfl⟩ := List.cons.inj (hx.symm.trans hT)
    cases hi
    exact ht

end Checker.State.Extends

/-! ## The outcome of an elaboration -/

section

variable {s₀ s : Checker.State} {Γ : Context} {n : Nat}

/-- The elaboration of a kind at a place gives its expansion, and changes the tables only. -/
theorem KindExpr.elaborate_gives (o : Checker.Options) {k : KindExpr} (hS : S.Placed place)
    (hk : k.Placed S) (hΓ : Γ.Covers S) (hs : s₀.Extends place s) (hn : k.size + S.weight ≤ n) :
    Run.Ends (k.elaborate o n Γ) s
      (fun j s' => j = k.expand S.env ∧ s₀.Extends place s') False := by
  induction n generalizing k S s with
  | zero => cases k <;> simp [size] at hn
  | succ n ih =>
    cases k with
    | star => exact .pure ⟨rfl, hs⟩
    | arrow j k =>
      simp only [size] at hn
      refine .bind (ih hS hk.1 hΓ hs (by omega)) fun j' s₁ h₁ => ?_
      refine .bind (ih hS hk.2 hΓ h₁.2 (by omega)) fun k' s₂ h₂ => ?_
      exact .pure ⟨by rw [h₁.1, h₂.1]; rfl, h₂.2⟩
    | var x =>
      obtain ⟨d, S', hl, hd, hsuf⟩ := hk
      cases d with
      | kindDef y k =>
        obtain rfl : y = x.name := hd
        have hplace := hS.place_eq hsuf
        have hw := Telescope.weight_le_of_suffix hsuf
        simp only [size, Telescope.weight, Decl.weight] at hn hw
        rw [hS.kindDef_expand hsuf]
        refine .bind .get fun st s' h => ?_
        obtain ⟨rfl, rfl⟩ := h
        split
        · rename_i j hj
          exact .pure ⟨hs.keeps.kinds hj k S' hplace, hs⟩
        · refine .bind (Check.found_ends (Context.find_eq (hΓ _ _ hsuf))) fun k' s' h => ?_
          obtain ⟨rfl, rfl⟩ := h
          have hpl := hS.suffix hsuf
          have hΓ' := hΓ.suffix ((List.suffix_cons _ _).trans hsuf)
          refine .bind (ih hpl.2.2 hpl.1 hΓ' hs (by omega)) fun j s₁ h₁ => ?_
          obtain ⟨rfl, h₁⟩ := h₁
          refine .bind (P := fun _ s₂ => s₀.Extends place s₂) ?_ fun _ s₂ h₂ => .pure ⟨rfl, h₂⟩
          show s₀.Extends place (if o.cache then _ else _)
          split
          · exact h₁.insertKind hplace
          · exact h₁
      | _ => cases hl

/-- A name: it stands for itself, for what the table says, or for what its definition stands for. -/
theorem TypeExpr.elaborate_gives_var (o : Checker.Options) {x : Ident}
    (infer : ∀ {S : Telescope} {u : TypeExpr} {s : Checker.State}, S.Placed place →
      u.Placed place S → Γ.Covers S → s₀.Extends place s → u.size + S.weight ≤ n →
      Check.Gives (u.elaborate o n Γ) s (u.coreAt S) (s₀.Extends place))
    (hS : S.Placed place) (hx : S.Has .type x.name) (hΓ : Γ.Covers S) (hs : s₀.Extends place s)
    (hn : S.weight ≤ n) :
    Check.Gives ((TypeExpr.var x).elaborate o (n + 1) Γ) s (S.cores x.name) (s₀.Extends place) := by
  obtain ⟨d, S', hl, hd, hsuf⟩ := hx
  rw [← hd, hS.cores_eq hsuf, hd]
  cases d with
  | typeVar y k =>
    obtain rfl : y = x.name := hd
    rw [Telescope.cores, Function.update_self]
    refine .ends_bind (Check.found_ends (Context.find_eq (hΓ _ _ hsuf))) fun e s' h => ?_
    obtain ⟨rfl, rfl⟩ := h
    exact .pure hs
  | typeDef y u =>
    obtain rfl : y = x.name := hd
    have hplace := hS.place_eq hsuf
    have hw := Telescope.weight_le_of_suffix hsuf
    simp only [Telescope.weight, Decl.weight] at hw
    rw [Telescope.cores, Function.update_self]
    refine .ends_bind (Check.found_ends (Context.find_eq (hΓ _ _ hsuf))) fun e s' h => ?_
    obtain ⟨rfl, rfl⟩ := h
    refine .ends_bind .get fun st s' h => ?_
    obtain ⟨rfl, rfl⟩ := h
    split
    · rename_i t ht
      -- what is in the table is the outcome for the definition, at its own place
      have hcore : u.core (Telescope.env S') (Telescope.cores S') = .ok t :=
        hs.keeps.types ht u S' hplace
      rw [hcore]
      exact .pure hs
    · have hpl := hS.suffix hsuf
      have hΓ' := hΓ.suffix ((List.suffix_cons _ _).trans hsuf)
      refine .then_keep (infer hpl.2.2 hpl.1 hΓ' hs (by omega)) fun t s₁ ht hs₁ => ?_
      refine .bind (P := fun _ s₂ => s₀.Extends place s₂) ?_ fun _ s₂ h₂ => .pure ⟨rfl, h₂⟩
      show s₀.Extends place (if o.cache then _ else _)
      split
      · exact hs₁.insertType hplace ht
      · exact hs₁
  | _ => cases hl

/-- An elaboration at a place has the outcome that is known from the telescope, and changes the
tables only. -/
theorem TypeExpr.elaborate_gives (o : Checker.Options) {u : TypeExpr} (hS : S.Placed place)
    (hu : u.Placed place S) (hΓ : Γ.Covers S) (hs : s₀.Extends place s)
    (hn : u.size + S.weight ≤ n) :
    Check.Gives (u.elaborate o n Γ) s (u.coreAt S) (s₀.Extends place) := by
  -- on the bound, as the value of a definition is no part of the type
  induction n generalizing u S Γ s with
  | zero => cases u <;> simp [size] at hn
  | succ n ih =>
    cases u with
    | int => exact .pure hs
    | var x =>
      simp only [size] at hn
      refine elaborate_gives_var o (fun hS hu hΓ hs hn => ih hS hu hΓ hs hn) hS hu hΓ hs ?_
      omega
    | arrow t u =>
      simp only [size] at hn
      refine .bind (ih hS hu.1 hΓ hs (by omega)) fun t' s₁ _ hs₁ => ?_
      refine .bind (Check.ofKind_gives _ t' hs₁) fun t' s₂ _ hs₂ => ?_
      refine .bind (ih hS hu.2 hΓ hs₂ (by omega)) fun u' s₃ _ hs₃ => ?_
      refine .bind (Check.ofKind_gives _ u' hs₃) fun u' s₄ _ hs₄ => ?_
      exact .pure hs₄
    | bind b x k t =>
      simp only [size] at hn
      have hx := hS.not_mem hu.2.1
      have hS' : Telescope.Placed place (.typeVar x.name k :: S) := ⟨hu.1, hu.2.1, hS⟩
      have hbody {s₁ : Checker.State} (hs₁ : s₀.Extends place s₁) :=
        ih hS' hu.2.2 (hΓ.bindType hx k) hs₁ (by simp only [Telescope.weight, Decl.weight]; omega)
      have hkind := k.elaborate_gives o hS hu.1 hΓ hs (n := n) (by omega)
      cases b with
      | all =>
        refine .ends_bind hkind fun k' s₁ hk => ?_
        obtain ⟨rfl, hs₁⟩ := hk
        refine .bind (hbody hs₁) fun t' s₂ _ hs₂ => ?_
        refine .bind (Check.ofKind_gives _ t' hs₂) fun t' s₃ _ hs₃ => ?_
        exact .pure hs₃
      | lam =>
        refine .ends_bind hkind fun k' s₁ hk => ?_
        obtain ⟨rfl, hs₁⟩ := hk
        refine .bind (hbody hs₁) fun t' s₂ _ hs₂ => ?_
        exact .pure hs₂
    | app f a =>
      simp only [size] at hn
      refine .bind (ih hS hu.1 hΓ hs (by omega)) fun f' s₁ _ hs₁ => ?_
      cases f'.kind with
      | star => exact .raise _ _
      | arrow j k =>
        refine .bind (ih hS hu.2 hΓ hs₁ (by omega)) fun a' s₂ _ hs₂ => ?_
        refine .bind (Check.ofKind_gives _ a' hs₂) fun a' s₃ _ hs₃ => ?_
        exact .pure hs₃
    | kinded t k =>
      simp only [size] at hn
      refine .ends_bind (k.elaborate_gives o hS hu.2 hΓ hs (n := n) (by omega)) fun k' s₁ hk => ?_
      obtain ⟨rfl, hs₁⟩ := hk
      refine .bind (ih hS hu.1 hΓ hs₁ (by omega)) fun t' s₂ _ hs₂ => ?_
      exact Check.ofKind_gives _ t' hs₂

end

/-! ## What elaboration gives -/

theorem Ty.requireKind_ok {k : Kind} {t u : Ty} :
    t.requireKind k = .ok u ↔ t.kind = k ∧ t = u := by
  unfold requireKind Kind.conform
  by_cases h : t.kind = k
  · simp [h]
  · simp [h]

theorem TypeExpr.coreOf_ok {k : Kind} {u : TypeExpr} {t : Ty} :
    u.coreOf S k = .ok t ↔ u.coreAt S = .ok t ∧ t.kind = k := by
  simp only [coreOf, Run.except_bind_ok, Ty.requireKind_ok]
  constructor
  · rintro ⟨t', h, hk, rfl⟩
    exact ⟨h, hk⟩
  · rintro ⟨h, hk⟩
    exact ⟨t, h, hk, rfl⟩

/-- A sequence that asks for a kind has a result. -/
theorem Ty.requireKind_bind_ok {α : Type} {r : Except Failure.Cause Ty} {k : Kind}
    {g : Ty → Except Failure.Cause α} {a : α} :
    (r >>= fun t => t.requireKind k >>= g) = .ok a ↔ ∃ t, r = .ok t ∧ t.kind = k ∧ g t = .ok a := by
  simp only [Run.except_bind_ok, requireKind_ok]
  constructor
  · rintro ⟨t, hr, _, ⟨hk, rfl⟩, ha⟩
    exact ⟨t, hr, hk, ha⟩
  · rintro ⟨t, hr, hk, ha⟩
    exact ⟨t, hr, t, ⟨hk, rfl⟩, ha⟩

/-- At the place `S`, the core type is well-kinded, its free names are in scope, and all its names
are of the program. -/
structure Ty.Elaborated (place : Name → Telescope) (S : Telescope) (t : Ty) : Prop where
  wellKinded : t.WellKinded S.nameKinds t.kind
  free : t.freeVars ⊆ S.names
  placed : ∀ x ∈ t.names, place x ≠ []

/-- A type that has been elaborated at a place may be used in every scope inside of it. -/
theorem Ty.Elaborated.weaken {t : Ty} (h : t.Elaborated place S') (hS : S.Placed place)
    (hS' : S' <:+ S) : t.Elaborated place S := by
  refine ⟨h.wellKinded.congr fun x hx => ?_, fun x hx => ?_, h.placed⟩
  · exact hS.eq_of_suffix Telescope.nameKinds_cons_of_ne hS' (h.free hx)
  · exact (hS'.map Decl.name).subset (h.free hx)

/-- Every core type that the telescope gives is elaborated there. -/
def Telescope.Elaborated (place : Name → Telescope) (S : Telescope) : Prop :=
  ∀ x t, S.cores x = .ok t → t.Elaborated place S

theorem Telescope.Elaborated.bindType (h : S.Elaborated place) {k : KindExpr}
    (hS : Telescope.Placed place (.typeVar x k :: S)) :
    Telescope.Elaborated place (.typeVar x k :: S) := by
  intro y t ht
  by_cases hy : y = x
  · subst hy
    rw [Telescope.cores, Function.update_self] at ht
    obtain rfl := Except.ok.inj ht
    refine ⟨.var (Function.update_self ..), fun z hz => ?_, fun z hz => ?_⟩
    · exact List.mem_singleton.1 hz ▸ List.mem_cons_self
    · have hplace : place y = .typeVar y k :: S := hS.2.1
      rw [List.mem_singleton.1 hz, hplace]
      exact List.cons_ne_nil _ _
  · rw [Telescope.cores_cons_of_ne hy] at ht
    exact (h y t ht).weaken hS (List.suffix_cons _ _)

theorem TypeExpr.core_elaborated {u : TypeExpr} {t : Ty} (hS : S.Placed place)
    (hcores : S.Elaborated place) (hu : u.Placed place S) (h : u.coreAt S = .ok t) :
    t.Elaborated place S := by
  induction u generalizing S t with
  | int =>
    obtain rfl := Except.ok.inj h
    exact ⟨.int, List.nil_subset _, fun x hx => by cases hx⟩
  | var x => exact hcores x.name t h
  | arrow u v hu' hv' =>
    obtain ⟨u', h₁, hk₁, h⟩ := Ty.requireKind_bind_ok.1 h
    obtain ⟨v', h₂, hk₂, h⟩ := Ty.requireKind_bind_ok.1 h
    obtain rfl := Except.ok.inj h
    have e₁ := hu' hS hcores hu.1 h₁
    have e₂ := hv' hS hcores hu.2 h₂
    exact ⟨.arrow (hk₁ ▸ e₁.wellKinded) (hk₂ ▸ e₂.wellKinded),
      List.append_subset.2 ⟨e₁.free, e₂.free⟩, List.forall_mem_append.2 ⟨e₁.placed, e₂.placed⟩⟩
  | bind b x k v ih =>
    have hS' : Telescope.Placed place (.typeVar x.name k :: S) := ⟨hu.1, hu.2.1, hS⟩
    have hbody {t : Ty} (h : v.coreAt (.typeVar x.name k :: S) = .ok t) :=
      ih hS' (hcores.bindType hS') hu.2.2 h
    -- the bound name is the only one that is not in scope outside
    have hfree {t : Ty} (h : t.Elaborated place (.typeVar x.name k :: S)) :
        t.freeVars.filter (· ≠ x.name) ⊆ S.names := by
      intro y hy
      obtain ⟨hy, hne⟩ := List.mem_filter.1 hy
      have hne : y ≠ x.name := by simpa using hne
      exact (List.mem_cons.1 (h.free hy)).resolve_left hne
    have hplaced {t : Ty} (h : t.Elaborated place (.typeVar x.name k :: S)) :
        ∀ y ∈ x.name :: t.names, place y ≠ [] :=
      List.forall_mem_cons.2 ⟨by rw [hu.2.1]; exact List.cons_ne_nil _ _, h.placed⟩
    cases b with
    | all =>
      obtain ⟨v', h₁, hk₁, h⟩ := Ty.requireKind_bind_ok.1 h
      obtain rfl := Except.ok.inj h
      have e₁ := hbody h₁
      exact ⟨.all (hk₁ ▸ e₁.wellKinded), hfree e₁, hplaced e₁⟩
    | lam =>
      obtain ⟨_, h₁, h⟩ := Run.except_bind_ok.1 h
      obtain rfl := Except.ok.inj h
      have e₁ := hbody h₁
      exact ⟨.lam e₁.wellKinded, hfree e₁, hplaced e₁⟩
  | app f a hf ha =>
    obtain ⟨f', h₁, h⟩ := Run.except_bind_ok.1 h
    have e₁ := hf hS hcores hu.1 h₁
    have hk := e₁.wellKinded
    cases hfk : f'.kind with
    | star =>
      rw [hfk] at h
      cases h
    | arrow j k =>
      rw [hfk] at h hk
      obtain ⟨a', h₂, hk₂, h⟩ := Ty.requireKind_bind_ok.1 h
      obtain rfl := Except.ok.inj h
      have e₂ := ha hS hcores hu.2 h₂
      exact ⟨.app hk (hk₂ ▸ e₂.wellKinded), List.append_subset.2 ⟨e₁.free, e₂.free⟩,
        List.forall_mem_append.2 ⟨e₁.placed, e₂.placed⟩⟩
  | kinded u k ih =>
    obtain ⟨_, h₁, h⟩ := Run.except_bind_ok.1 h
    obtain ⟨-, rfl⟩ := Ty.requireKind_ok.1 h
    exact ih hS hcores hu.1 h₁

theorem Telescope.Placed.elaborated (hS : S.Placed place) : S.Elaborated place := by
  induction S with
  | nil =>
    intro x t ht
    cases ht
  | cons d S ih =>
    have hcores := ih hS.2.2
    cases d with
    | typeVar y k => exact hcores.bindType hS
    | typeDef y u =>
      intro x t ht
      by_cases hx : x = y
      · subst hx
        rw [Telescope.cores, Function.update_self] at ht
        exact (u.core_elaborated hS.2.2 hcores hS.1 ht).weaken hS (List.suffix_cons _ _)
      · rw [Telescope.cores_cons_of_ne hx] at ht
        exact (hcores x t ht).weaken hS (List.suffix_cons _ _)
    | _ => exact fun x t ht => (hcores x t ht).weaken hS (List.suffix_cons _ _)

/-- Elaboration gives well-kinded types, with names of the program. -/
theorem TypeExpr.Placed.elaborated {u : TypeExpr} {t : Ty} (hu : u.Placed place S)
    (hS : S.Placed place) (h : u.coreAt S = .ok t) : t.Elaborated place S :=
  u.core_elaborated hS hS.elaborated hu h

/-! ## Normalization ends -/

/-- Normalization of well-kinded types ends, in both orders and from every counter, with some finite
fuel and without a bound. So it does for every type that the elaboration of a surface type gives, at
any place of a program. -/
theorem normalization_terminates :
    (∀ (K : NameKinds) (t : Ty) (k : Kind), t.WellKinded K k →
      ∀ (o : Order) (c : Int), t.Terminates o c) ∧
    ∀ (place : Name → Telescope) (S : Telescope) (u : TypeExpr) (Γ : Context) (s s' : Checker.State)
      (opts : Checker.Options) (n : Nat) (t : Ty), S.Placed place → u.Placed place S →
      Γ.Covers S → s.Keeps place → u.size + S.weight ≤ n → u.elaborate opts n Γ s = .ok t s' →
      t.WellKinded S.nameKinds t.kind ∧ ∀ (o : Order) (c : Int), t.Terminates o c := by
  refine ⟨fun K t k h o c => h.terminates o c, ?_⟩
  intro place S u Γ s s' opts n t hS hu hΓ hs hn hrun
  have hgives := u.elaborate_gives opts hS hu hΓ (.refl hs) hn
  have hkind := (hu.elaborated hS (hgives.of_ok hrun).1).wellKinded
  exact ⟨hkind, fun o c => hkind.terminates o c⟩

/-- `F Y` with the free name `Y`, and `F Int`, where `F` is defined to be `λX. X -> X`. -/
theorem normalization_terminates_operator :
    let F : Ident := ⟨⟨"F", 1⟩, none⟩
    let X : Ident := ⟨⟨"X", 2⟩, none⟩
    let operator : TypeExpr := .bind .lam X .star (.arrow (.var X) (.var X))
    let arrow (t : Ty) : Ty := .app (.bind .lam X.name .star (.arrow (.var X.name .star)
      (.var X.name .star) .star) (.arrow .star .star)) t .star
    let Γ : Context := ({} : Context).defineType F.name operator
    (arrow (.var ⟨"Y", 3⟩ .star)).WellKinded (fun _ => some .star) .star ∧
      (∀ o c, (arrow (.var ⟨"Y", 3⟩ .star)).Terminates o c) ∧
      (∃ s', (TypeExpr.app (.var F) .int).elaborate {} 10 Γ {} = .ok (arrow (.int .star)) s') ∧
      ∀ o c, (arrow (.int .star)).Terminates o c := by
  intro F X operator arrow Γ
  have hkind : (arrow (.var ⟨"Y", 3⟩ .star)).WellKinded (fun _ => some .star) .star :=
    .app (.lam (.arrow (.var rfl) (.var rfl))) (.var rfl)
  have hrun : ∃ s', (TypeExpr.app (.var F) .int).elaborate {} 10 Γ {} =
      .ok (arrow (.int .star)) s' := ⟨_, rfl⟩
  refine ⟨hkind, normalization_terminates.1 _ _ _ hkind, hrun, ?_⟩
  obtain ⟨s', hrun⟩ := hrun
  let S : Telescope := [.typeDef F.name operator]
  let place (x : Name) : Telescope := if x = F.name then S else [.typeVar X.name .star]
  have hX : Telescope.Has [.typeVar X.name .star] .type X.name :=
    .refl (.typeVar X.name .star) []
  have hS : S.Placed place := ⟨⟨trivial, rfl, hX, hX⟩, rfl, trivial⟩
  have hu : (TypeExpr.app (.var F) .int).Placed place S :=
    ⟨.refl (.typeDef F.name operator) [], trivial⟩
  have hΓ : Γ.Covers S := (Context.Covers.nil {}).defineType (fun h => by cases h) operator
  exact (normalization_terminates.2 place S _ Γ {} s' {} 10 _ hS hu hΓ (.start 1 {}) (by decide)
    hrun).2

end

end SystemFOmega
