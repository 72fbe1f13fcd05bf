/-!
# Runs that end well

Small laws of computations with a state and errors, in terms of the result and the state in which
they end.
-/

namespace SystemFOmega.Run

variable {ε σ α β : Type}

theorem pure_ok {a b : α} {s s' : σ} :
    (pure a : EStateM ε σ α) s = .ok b s' ↔ a = b ∧ s = s' := by
  constructor
  · intro h
    exact EStateM.Result.ok.inj h
  · rintro ⟨rfl, rfl⟩
    rfl

/-- A sequence ends well if its two parts do, one after the other. -/
theorem bind_ok {m : EStateM ε σ α} {f : α → EStateM ε σ β} {b : β} {s s'' : σ} :
    (m >>= f) s = .ok b s'' ↔ ∃ a s', m s = .ok a s' ∧ f a s' = .ok b s'' := by
  show EStateM.bind m f s = _ ↔ _
  unfold EStateM.bind
  cases m s with
  | ok a s' =>
    constructor
    · intro h
      exact ⟨a, s', rfl, h⟩
    · rintro ⟨_, _, he, h⟩
      obtain ⟨rfl, rfl⟩ := EStateM.Result.ok.inj he
      exact h
  | error e s' =>
    constructor
    · intro h
      cases h
    · rintro ⟨_, _, he, _⟩
      cases he

theorem throw_ok {e : ε} {b : α} {s s' : σ} : ¬ (throw e : EStateM ε σ α) s = .ok b s' :=
  fun h => by cases h

/-- A sequence goes on from where its first part has ended. -/
theorem bind_of_ok {m : EStateM ε σ α} (f : α → EStateM ε σ β) {a : α} {s s' : σ}
    (h : m s = .ok a s') : (m >>= f) s = f a s' := by
  show EStateM.bind m f s = _
  rw [EStateM.bind, h]

/-- A sequence fails where its first part does. -/
theorem bind_of_error {m : EStateM ε σ α} (f : α → EStateM ε σ β) {e : ε} {s s' : σ}
    (h : m s = .error e s') : (m >>= f) s = .error e s' := by
  show EStateM.bind m f s = _
  rw [EStateM.bind, h]

theorem run'_eq_some {m : EStateM ε σ α} {a : α} {s : σ} :
    m.run' s = some a ↔ ∃ s', m s = .ok a s' := by
  unfold EStateM.run' EStateM.run
  cases m s <;> simp

/-- The error of a run that fails, with the state. -/
def failure? : EStateM.Result ε σ α → Option (ε × σ)
  | .ok _ _ => none
  | .error e s => some (e, s)

theorem failure?_eq_some {r : EStateM.Result ε σ α} {e : ε} {s : σ} :
    failure? r = some (e, s) ↔ r = .error e s := by
  cases r <;> simp [failure?]

/-- The result of a run that ends well, with the state. -/
def success? : EStateM.Result ε σ α → Option (α × σ)
  | .ok a s => some (a, s)
  | .error _ _ => none

theorem success?_eq_some {r : EStateM.Result ε σ α} {a : α} {s : σ} :
    success? r = some (a, s) ↔ r = .ok a s := by
  cases r <;> simp [success?]

/-- A sequence without a state has a result if its two parts do. -/
theorem except_bind_ok {r : Except ε α} {f : α → Except ε β} {b : β} :
    (r >>= f) = .ok b ↔ ∃ a, r = .ok a ∧ f a = .ok b := by
  cases r with
  | ok a =>
    constructor
    · intro h
      exact ⟨a, rfl, h⟩
    · rintro ⟨_, he, h⟩
      obtain rfl := Except.ok.inj he
      exact h
  | error e =>
    constructor
    · intro h
      cases h
    · rintro ⟨_, he, _⟩
      cases he

/-- A sequence without a state fails if one of its two parts does. -/
theorem except_bind_error {r : Except ε α} {f : α → Except ε β} {e : ε} :
    (r >>= f) = .error e ↔ r = .error e ∨ ∃ a, r = .ok a ∧ f a = .error e := by
  cases r with
  | ok a =>
    constructor
    · intro h
      exact .inr ⟨a, rfl, h⟩
    · rintro (h | ⟨_, ha, h⟩)
      · cases h
      · obtain rfl := Except.ok.inj ha
        exact h
  | error e' =>
    constructor
    · intro h
      exact .inl (by rw [Except.error.inj h])
    · rintro (h | ⟨_, ha, _⟩)
      · exact congrArg Except.error (Except.error.inj h)
      · cases ha

theorem toOption_eq_some {r : Except ε α} {a : α} : r.toOption = some a ↔ r = .ok a := by
  cases r <;> simp [Except.toOption]

/-- The error of a computation without a state. -/
def error? : Except ε α → Option ε
  | .ok _ => none
  | .error e => some e

theorem error?_eq_some {r : Except ε α} {e : ε} : error? r = some e ↔ r = .error e := by
  cases r <;> simp [error?]

/-! ## Where a run ends -/

/-- `m` from `s` ends well with a result and a state that satisfy `P`, or fails, and then `Q`. -/
def Ends (m : EStateM ε σ α) (s : σ) (P : α → σ → Prop) (Q : Prop) : Prop :=
  match m s with
  | .ok a s' => P a s'
  | .error _ _ => Q

namespace Ends

variable {m : EStateM ε σ α} {f : α → EStateM ε σ β} {s s' : σ} {P : α → σ → Prop}
  {R : β → σ → Prop} {Q Q' : Prop}

theorem pure {a : α} (h : P a s) : Ends (Pure.pure a : EStateM ε σ α) s P Q := h

theorem throw {e : ε} (h : Q) : Ends (MonadExcept.throw e : EStateM ε σ α) s P Q := h

theorem get : Ends (MonadState.get : EStateM ε σ σ) s (fun a s' => a = s ∧ s' = s) Q := ⟨rfl, rfl⟩

/-- The second part of a sequence starts where the first has ended. -/
theorem bind (h : Ends m s P Q) (hf : ∀ a s', P a s' → Ends (f a) s' R Q) :
    Ends (m >>= f) s R Q := by
  show Ends (EStateM.bind m f) s R Q
  unfold Ends EStateM.bind
  unfold Ends at h
  cases hm : m s with
  | ok a s' =>
    rw [hm] at h
    exact hf a s' h
  | error e s' =>
    rw [hm] at h
    exact h

/-- A weaker end. -/
theorem mono {P' : α → σ → Prop} (h : Ends m s P Q) (hP : ∀ a s', P a s' → P' a s')
    (hQ : Q → Q') : Ends m s P' Q' := by
  unfold Ends at h ⊢
  cases hm : m s with
  | ok a s' =>
    rw [hm] at h
    exact hP a s' h
  | error e s' =>
    rw [hm] at h
    exact hQ h

/-- What is known of a run that has ended well. -/
theorem of_ok (h : Ends m s P Q) {a : α} (hm : m s = .ok a s') : P a s' := by
  unfold Ends at h
  rwa [hm] at h

/-- A run that does not fail. -/
theorem exists_ok (h : Ends m s P Q) (hQ : ¬ Q) : ∃ a s', m s = .ok a s' ∧ P a s' := by
  unfold Ends at h
  cases hm : m s with
  | ok a s' =>
    rw [hm] at h
    exact ⟨a, s', rfl, h⟩
  | error e s' =>
    rw [hm] at h
    exact absurd h hQ

end Ends

/-- `m` from `s` ends well with a result and a state that satisfy `P`, or fails with an error that
satisfies `Q`. -/
def Settles (m : EStateM ε σ α) (s : σ) (P : α → σ → Prop) (Q : ε → Prop) : Prop :=
  match m s with
  | .ok a s' => P a s'
  | .error e _ => Q e

namespace Settles

variable {m : EStateM ε σ α} {f : α → EStateM ε σ β} {s : σ} {P : α → σ → Prop}
  {R : β → σ → Prop} {Q : ε → Prop}

theorem pure {a : α} (h : P a s) : Settles (Pure.pure a : EStateM ε σ α) s P Q := h

theorem throw {e : ε} (h : Q e) : Settles (MonadExcept.throw e : EStateM ε σ α) s P Q := h

/-- One computation after the other, with one condition on the errors of both. -/
theorem bind (h : Settles m s P Q) (hf : ∀ a s', P a s' → Settles (f a) s' R Q) :
    Settles (m >>= f) s R Q := by
  unfold Settles at h
  cases hm : m s with
  | ok a s' =>
    rw [hm] at h
    have hfa := hf a s' h
    unfold Settles at hfa ⊢
    rwa [bind_of_ok f hm]
  | error e s' =>
    rw [hm] at h
    unfold Settles
    rwa [bind_of_error f hm]

/-- Weaker conditions. -/
theorem mono {P' : α → σ → Prop} {Q' : ε → Prop} (h : Settles m s P Q)
    (hP : ∀ a s', P a s' → P' a s') (hQ : ∀ e, Q e → Q' e) : Settles m s P' Q' := by
  unfold Settles at h ⊢
  cases hm : m s with
  | ok a s' =>
    rw [hm] at h
    exact hP a s' h
  | error e s' =>
    rw [hm] at h
    exact hQ e h

theorem imp {P' : α → σ → Prop} (h : Settles m s P Q) (hP : ∀ a s', P a s' → P' a s') :
    Settles m s P' Q := h.mono hP fun _ hQ => hQ

theorem of_ok (h : Settles m s P Q) {a : α} {s' : σ} (hm : m s = .ok a s') : P a s' := by
  unfold Settles at h
  rwa [hm] at h

/-- What is known of a run that has failed. -/
theorem of_error (h : Settles m s P Q) {e : ε} {s' : σ} (hm : m s = .error e s') : Q e := by
  unfold Settles at h
  rwa [hm] at h

/-- A run that does not fail. -/
theorem of_ends (h : Ends m s P False) : Settles m s P Q := by
  obtain ⟨a, s', hm, hP⟩ := h.exists_ok id
  unfold Settles
  rwa [hm]

/-- A first part that does not fail. -/
theorem ends_bind (h : Ends m s P False) (hf : ∀ a s', P a s' → Settles (f a) s' R Q) :
    Settles (m >>= f) s R Q := (of_ends h).bind hf

end Settles

/-! ## What a run keeps -/

/-- The state in which a run ends, well or not. -/
def endState : EStateM.Result ε σ α → σ
  | .ok _ s => s
  | .error _ s => s

/-- `m` keeps `P`, also where it fails. -/
def Maintains (P : σ → Prop) (m : EStateM ε σ α) : Prop := ∀ s, P s → P (endState (m s))

namespace Maintains

variable {P : σ → Prop} {m : EStateM ε σ α}

theorem pure (a : α) : Maintains P (Pure.pure a : EStateM ε σ α) := fun _ h => h

theorem throw (e : ε) : Maintains P (MonadExcept.throw e : EStateM ε σ α) := fun _ h => h

theorem get : Maintains P (MonadState.get : EStateM ε σ σ) := fun _ h => h

/-- A condition on the state that both parts maintain is maintained by the whole. -/
theorem bind {k : α → EStateM ε σ β} (hm : Maintains P m) (hk : ∀ a, Maintains P (k a)) :
    Maintains P (m >>= k) := by
  intro s hs
  have hs' := hm s hs
  cases h : m s with
  | ok a s' =>
    rw [h] at hs'
    rw [bind_of_ok k h]
    exact hk a s' hs'
  | error e s' =>
    rw [h] at hs'
    rwa [bind_of_error k h]

end Maintains

/-- `m` keeps `P`, also where it fails, and then the error satisfies `Q`. -/
structure Confines (P : σ → Prop) (Q : ε → Prop) (m : EStateM ε σ α) : Prop where
  keeps : Maintains P m
  error {s s' : σ} {e : ε} : P s → m s = .error e s' → Q e

namespace Confines

variable {P : σ → Prop} {Q : ε → Prop} {m : EStateM ε σ α}

/-- A computation that does not fail. -/
theorem of_maintains (h : Maintains P m) (hm : ∀ s, ∃ a s', m s = .ok a s') : Confines P Q m := by
  refine ⟨h, fun {s s' e} _ he => ?_⟩
  obtain ⟨a, s'', ha⟩ := hm s
  cases ha.symm.trans he

theorem throw {e : ε} (h : Q e) : Confines P Q (MonadExcept.throw e : EStateM ε σ α) := by
  refine ⟨.throw e, fun _ he => ?_⟩
  obtain ⟨rfl, -⟩ := EStateM.Result.error.inj he
  exact h

/-- One computation after the other. -/
theorem bind {k : α → EStateM ε σ β} (hm : Confines P Q m) (hk : ∀ a, Confines P Q (k a)) :
    Confines P Q (m >>= k) := by
  refine ⟨hm.keeps.bind fun a => (hk a).keeps, fun {s s' e} hs he => ?_⟩
  have hend := hm.keeps s hs
  cases h : m s with
  | ok a s₁ =>
    rw [h] at hend
    rw [bind_of_ok k h] at he
    exact (hk a).error hend he
  | error e₁ s₁ =>
    rw [bind_of_error k h] at he
    obtain ⟨rfl, -⟩ := EStateM.Result.error.inj he
    exact hm.error hs h

end Confines

/-- The end of a run with its state changed by `f`. -/
def onState (f : σ → σ) : EStateM.Result ε σ α → EStateM.Result ε σ α
  | .ok a s => .ok a (f s)
  | .error e s => .error e (f s)

/-- It makes no difference whether `f` changes the state before `m` or after it. -/
def Commutes (f : σ → σ) (m : EStateM ε σ α) : Prop := ∀ s, m (f s) = onState f (m s)

namespace Commutes

variable {f : σ → σ} {m : EStateM ε σ α}

theorem pure (a : α) : Commutes f (Pure.pure a : EStateM ε σ α) := fun _ => rfl

theorem throw (e : ε) : Commutes f (MonadExcept.throw e : EStateM ε σ α) := fun _ => rfl

/-- A change of the state commutes with another one. -/
theorem of_modify {g : σ → σ} (h : ∀ s, g (f s) = f (g s)) :
    Commutes f (modify g : EStateM ε σ PUnit) := fun s =>
  congrArg (EStateM.Result.ok PUnit.unit) (h s)

theorem bind {k : α → EStateM ε σ β} (hm : Commutes f m) (hk : ∀ a, Commutes f (k a)) :
    Commutes f (m >>= k) := by
  intro s
  have hs := hm s
  cases h : m s with
  | ok a s' =>
    rw [h] at hs
    rw [bind_of_ok k h, bind_of_ok k hs, hk a s']
  | error e s' =>
    rw [h] at hs
    rw [bind_of_error k h, bind_of_error k hs]
    rfl

/-- A loop commutes with a change of the state if its body does. -/
theorem forIn (xs : List β) {k : β → EStateM ε σ (ForInStep PUnit)}
    (hk : ∀ b, Commutes f (k b)) :
    Commutes f (ForIn.forIn xs PUnit.unit fun b _ => k b) := by
  induction xs with
  | nil => exact .pure _
  | cons x xs ih =>
    rw [List.forIn_cons]
    refine (hk x).bind fun r => ?_
    cases r with
    | done b => exact .pure _
    | yield b => exact ih

end Commutes

/-! ## Two runs side by side -/

section Pairs

variable {ε' σ' α' β' : Type}

/-- `m` from `s` and `m'` from `s'` both end well, with results and states that satisfy `P`, or both
fail, with errors that satisfy `Q`. -/
inductive Pairs (m : EStateM ε σ α) (s : σ) (m' : EStateM ε' σ' α') (s' : σ')
    (P : α → σ → α' → σ' → Prop) (Q : ε → ε' → Prop) : Prop
  | ok {a : α} {s₁ : σ} {a' : α'} {s₁' : σ'} : m s = .ok a s₁ → m' s' = .ok a' s₁' →
    P a s₁ a' s₁' → Pairs m s m' s' P Q
  | error {e : ε} {s₁ : σ} {e' : ε'} {s₁' : σ'} : m s = .error e s₁ → m' s' = .error e' s₁' →
    Q e e' → Pairs m s m' s' P Q

namespace Pairs

variable {m : EStateM ε σ α} {m' : EStateM ε' σ' α'} {f : α → EStateM ε σ β}
  {f' : α' → EStateM ε' σ' β'} {s : σ} {s' : σ'} {P : α → σ → α' → σ' → Prop}
  {R : β → σ → β' → σ' → Prop} {Q Q' : ε → ε' → Prop}

theorem pure {a : α} {a' : α'} (h : P a s a' s') :
    Pairs (Pure.pure a : EStateM ε σ α) s (Pure.pure a' : EStateM ε' σ' α') s' P Q :=
  .ok rfl rfl h

theorem throw {e : ε} {e' : ε'} (h : Q e e') :
    Pairs (MonadExcept.throw e : EStateM ε σ α) s (MonadExcept.throw e' : EStateM ε' σ' α') s'
      P Q :=
  .error rfl rfl h

/-- Two runs go on side by side if they have done so and their results let them. -/
theorem bind (h : Pairs m s m' s' P Q)
    (hf : ∀ a s₁ a' s₁', P a s₁ a' s₁' → Pairs (f a) s₁ (f' a') s₁' R Q) :
    Pairs (m >>= f) s (m' >>= f') s' R Q := by
  cases h with
  | @ok a s₁ a' s₁' hm hm' hP =>
    have hrun := bind_of_ok f hm
    have hrun' := bind_of_ok f' hm'
    cases hf a s₁ a' s₁' hP with
    | ok h h' hR => exact .ok (hrun.trans h) (hrun'.trans h') hR
    | error h h' hQ => exact .error (hrun.trans h) (hrun'.trans h') hQ
  | error hm hm' hQ => exact .error (bind_of_error f hm) (bind_of_error f' hm') hQ

theorem mono {P' : α → σ → α' → σ' → Prop} (h : Pairs m s m' s' P Q)
    (hP : ∀ a s₁ a' s₁', P a s₁ a' s₁' → P' a s₁ a' s₁') (hQ : ∀ e e', Q e e' → Q' e e') :
    Pairs m s m' s' P' Q' := by
  cases h with
  | ok hm hm' h => exact .ok hm hm' (hP _ _ _ _ h)
  | error hm hm' h => exact .error hm hm' (hQ _ _ h)

/-- The result of the first run may be named. -/
theorem with_left (h : Pairs m s m' s' P Q) :
    Pairs m s m' s' (fun a s₁ a' s₁' => m s = .ok a s₁ ∧ P a s₁ a' s₁') Q := by
  cases h with
  | ok hm hm' h => exact .ok hm hm' ⟨hm, h⟩
  | error hm hm' h => exact .error hm hm' h

/-- Two runs that end well. -/
theorem of_ends {P : α → σ → Prop} {P' : α' → σ' → Prop} (h : Ends m s P False)
    (h' : Ends m' s' P' False) : Pairs m s m' s' (fun a s₁ a' s₁' => P a s₁ ∧ P' a' s₁') Q := by
  obtain ⟨a, s₁, hm, hP⟩ := h.exists_ok id
  obtain ⟨a', s₁', hm', hP'⟩ := h'.exists_ok id
  exact .ok hm hm' ⟨hP, hP'⟩

/-- What is known of the second run where the first ends well. -/
theorem ends_of_ok (h : Pairs m s m' s' P Q) {a : α} {s₁ : σ} (hm : m s = .ok a s₁) :
    Ends m' s' (fun a' s₁' => P a s₁ a' s₁') False := by
  unfold Ends
  cases h with
  | ok h h' hP =>
    obtain ⟨rfl, rfl⟩ := EStateM.Result.ok.inj (hm.symm.trans h)
    rw [h']
    exact hP
  | error h => cases hm.symm.trans h

end Pairs

/-- Where `m` from `s` and `m'` from `s'` both end well, the results and the states satisfy `P`. -/
def Both (m : EStateM ε σ α) (s : σ) (m' : EStateM ε' σ' α') (s' : σ')
    (P : α → σ → α' → σ' → Prop) : Prop :=
  ∀ a s₁ a' s₁', m s = .ok a s₁ → m' s' = .ok a' s₁' → P a s₁ a' s₁'

namespace Both

variable {m : EStateM ε σ α} {m' : EStateM ε' σ' α'} {f : α → EStateM ε σ β}
  {f' : α' → EStateM ε' σ' β'} {s : σ} {s' : σ'} {P : α → σ → α' → σ' → Prop}
  {R : β → σ → β' → σ' → Prop}

theorem pure {a : α} {a' : α'} (h : P a s a' s') :
    Both (Pure.pure a : EStateM ε σ α) s (Pure.pure a' : EStateM ε' σ' α') s' P := by
  intro b s₁ b' s₁' hm hm'
  obtain ⟨rfl, rfl⟩ := pure_ok.1 hm
  obtain ⟨rfl, rfl⟩ := pure_ok.1 hm'
  exact h

/-- Two runs that both end well have both ended well halfway. -/
theorem bind (h : Both m s m' s' P)
    (hf : ∀ a s₁ a' s₁', P a s₁ a' s₁' → Both (f a) s₁ (f' a') s₁' R) :
    Both (m >>= f) s (m' >>= f') s' R := by
  intro b s₂ b' s₂' hb hb'
  obtain ⟨a, s₁, hm, hb⟩ := bind_ok.1 hb
  obtain ⟨a', s₁', hm', hb'⟩ := bind_ok.1 hb'
  exact hf a s₁ a' s₁' (h a s₁ a' s₁' hm hm') b s₂ b' s₂' hb hb'

end Both

end Pairs

/-- The two computations do the same, unless the first fails with an error that satisfies `Q`. -/
def AgreeUnless (Q : ε → Prop) (m m' : EStateM ε σ α) : Prop :=
  ∀ s, m s = m' s ∨ ∃ e s', m s = .error e s' ∧ Q e

namespace AgreeUnless

variable {Q : ε → Prop} {m m' : EStateM ε σ α}

theorem refl (m : EStateM ε σ α) : AgreeUnless Q m m := fun _ => .inl rfl

/-- Two computations do the same if both parts do. -/
theorem bind {f f' : α → EStateM ε σ β} (h : AgreeUnless Q m m')
    (hf : ∀ a, AgreeUnless Q (f a) (f' a)) : AgreeUnless Q (m >>= f) (m' >>= f') := by
  intro s
  rcases h s with heq | ⟨e, s', he, hQ⟩
  · cases hm : m' s with
    | ok a s' =>
      rw [bind_of_ok f (heq.trans hm), bind_of_ok f' hm]
      exact hf a s'
    | error e s' =>
      rw [bind_of_error f (heq.trans hm), bind_of_error f' hm]
      exact .inl rfl
  · exact .inr ⟨e, s', bind_of_error f he, hQ⟩

/-- Where the first computation has another end, the second has it too. -/
theorem eq_of_ne (h : AgreeUnless Q m m') {s : σ} {r : EStateM.Result ε σ α} (hm : m s = r)
    (hr : ∀ e s', r = .error e s' → ¬ Q e) : m' s = r := by
  rcases h s with heq | ⟨e, s', he, hQ⟩
  · rw [← heq, hm]
  · exact absurd hQ (hr e s' (hm.symm.trans he))

end AgreeUnless

/-! ## Computations with a bound -/

/-- From `s`, all `m d` with a large enough bound `d` have one outcome: they end well, with a result
and a state that satisfy `P`, or fail, with an error that satisfies `Q`. -/
inductive Tends (m : Nat → EStateM ε σ α) (s : σ) (P : α → σ → Prop) (Q : ε → Prop) : Prop
  | ok (d : Nat) {a : α} {s' : σ} : (∀ d', d ≤ d' → m d' s = .ok a s') → P a s' → Tends m s P Q
  | error (d : Nat) {e : ε} {s' : σ} : (∀ d', d ≤ d' → m d' s = .error e s') → Q e → Tends m s P Q

namespace Tends

variable {m : Nat → EStateM ε σ α} {f : Nat → α → EStateM ε σ β} {s : σ} {P : α → σ → Prop}
  {R : β → σ → Prop} {Q : ε → Prop}

/-- A computation without a bound. -/
theorem of_settles {m : EStateM ε σ α} (h : Settles m s P Q) : Tends (fun _ => m) s P Q := by
  unfold Settles at h
  cases hm : m s with
  | ok a s' =>
    rw [hm] at h
    exact .ok 0 (fun _ _ => hm) h
  | error e s' =>
    rw [hm] at h
    exact .error 0 (fun _ _ => hm) h

/-- A computation without a bound settles. -/
theorem settles {m : EStateM ε σ α} (h : Tends (fun _ => m) s P Q) : Settles m s P Q := by
  unfold Settles
  cases h with
  | ok d hm h =>
    rw [hm d (Nat.le_refl d)]
    exact h
  | error d hm h =>
    rw [hm d (Nat.le_refl d)]
    exact h

theorem pure {a : α} (h : P a s) : Tends (fun _ => (Pure.pure a : EStateM ε σ α)) s P Q :=
  of_settles (.pure h)

theorem throw {e : ε} (h : Q e) : Tends (fun _ => (MonadExcept.throw e : EStateM ε σ α)) s P Q :=
  of_settles (.throw h)

/-- If the first part needs one bound and the second another, the larger one is enough for both. -/
theorem bind (h : Tends m s P Q) (hf : ∀ a s', P a s' → Tends (fun d => f d a) s' R Q) :
    Tends (fun d => m d >>= f d) s R Q := by
  cases h with
  | @ok d a s' hm hP =>
    cases hf a s' hP with
    | ok d' hb hR =>
      exact .ok (max d d') (fun e he =>
        (bind_of_ok (f e) (hm e (by omega))).trans (hb e (by omega))) hR
    | error d' hb hQ =>
      exact .error (max d d') (fun e he =>
        (bind_of_ok (f e) (hm e (by omega))).trans (hb e (by omega))) hQ
  | error d hm hQ => exact .error d (fun e he => bind_of_error (f e) (hm e he)) hQ

/-- A first part that does not fail and has no bound. -/
theorem ends_bind {m : EStateM ε σ α} (h : Ends m s P False)
    (hf : ∀ a s', P a s' → Tends (fun d => f d a) s' R Q) : Tends (fun d => m >>= f d) s R Q :=
  (of_settles (.of_ends h)).bind hf

theorem mono {P' : α → σ → Prop} {Q' : ε → Prop} (h : Tends m s P Q)
    (hP : ∀ a s', P a s' → P' a s') (hQ : ∀ e, Q e → Q' e) : Tends m s P' Q' := by
  cases h with
  | ok d hm h => exact .ok d hm (hP _ _ h)
  | error d hm h => exact .error d hm (hQ _ h)

theorem imp {P' : α → σ → Prop} (h : Tends m s P Q) (hP : ∀ a s', P a s' → P' a s') :
    Tends m s P' Q := h.mono hP fun _ hQ => hQ

/-- What is known of a run with any bound that ends well. -/
theorem and_ends {P' : α → σ → Prop} (h : Tends m s P Q) (h' : ∀ d, Ends (m d) s P' True) :
    Tends m s (fun a s' => P a s' ∧ P' a s') Q := by
  cases h with
  | ok d hm h => exact .ok d hm ⟨h, (h' d).of_ok (hm d (Nat.le_refl d))⟩
  | error d hm h => exact .error d hm h

/-- Computations that do not fail in the end. -/
theorem exists_ok (h : Tends m s P Q) (hQ : ∀ e, ¬ Q e) :
    ∃ a s' d, P a s' ∧ ∀ d', d ≤ d' → m d' s = .ok a s' := by
  cases h with
  | ok d hm h => exact ⟨_, _, d, h, hm⟩
  | error d hm h => exact absurd h (hQ _)

end Tends

end SystemFOmega.Run
