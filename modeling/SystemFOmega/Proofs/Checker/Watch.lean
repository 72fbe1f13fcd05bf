import SystemFOmega.Proofs.Checker.Failures

/-!
# No definition is entered twice

The watched checker is the checker with a list of the definitions that it is inside of, at all three
levels. It gives up where it would enter one of them again. For a renamed program it never does: a
definition refers to names outside of it only, so what is still to be looked at, together with the
definitions in scope, weighs less than each definition that has been entered (`Outweighs`). For the
same reason the nesting of phrases and definitions stays within a bound that the size of the program
gives. So the watched checker and the checker are the same function, whatever their bounds are
beyond that (`Expr.watched`).
-/

namespace SystemFOmega

open Run Check

/-- The definitions that the checker is inside of. -/
abbrev Checker.Entered := List (Level × Name)

/-- Enters the definition of `x`, unless the checker is inside of it. -/
def Check.entering {α : Type} (l : Level) (x : Name) (entered : Checker.Entered)
    (rule : Checker.Entered → Check α) : Check α :=
  if (l, x) ∈ entered then raise .circular else rule ((l, x) :: entered)

/-! ## The watched checker -/

/-- The elaboration of a kind, which fails where it would enter a definition that it is in. -/
def KindExpr.elaborateWatched (o : Checker.Options) :
    Nat → Checker.Entered → Context → KindExpr → Check Kind
  | 0, _, _, _ => raise .circular
  | n + 1, entered, Γ, k => do
    match k with
    | .star => return .star
    | .arrow j k =>
      return .arrow (← j.elaborateWatched o n entered Γ) (← k.elaborateWatched o n entered Γ)
    | .var x =>
      match (← get).kinds.get? x.name with
      | some k => return k
      | none =>
        let u ← found (Γ.findKind x)
        let k ← entering .kind x.name entered fun entered => u.elaborateWatched o n entered Γ
        keepKind o x.name k
        return k

/-- The elaboration of a type, which fails where it would enter a definition that it is in. -/
def TypeExpr.elaborateWatched (o : Checker.Options) :
    Nat → Checker.Entered → Context → TypeExpr → Check Ty
  | 0, _, _, _ => raise .circular
  | n + 1, entered, Γ, t => do
    match t with
    | .int => return .int .star
    | .var x =>
      match ← found (Γ.findType x) with
      | .bound k => return .var x.name k
      | .defined u =>
        match (← get).types.get? x.name with
        | some t => return t
        | none =>
          let t ← entering .type x.name entered fun entered => u.elaborateWatched o n entered Γ
          keepType o x.name t
          return t
    | .arrow s t =>
      let s ← ofKind .star (← s.elaborateWatched o n entered Γ)
      let t ← ofKind .star (← t.elaborateWatched o n entered Γ)
      return .arrow s t .star
    | .bind .all x k t =>
      let k ← k.elaborateWatched o n entered Γ
      let t ← ofKind .star (← t.elaborateWatched o n entered (Γ.bindType x.name k))
      return .bind .all x.name k t .star
    | .bind .lam x k t =>
      let k ← k.elaborateWatched o n entered Γ
      let t ← t.elaborateWatched o n entered (Γ.bindType x.name k)
      return .bind .lam x.name k t (.arrow k t.kind)
    | .app f a =>
      let f ← f.elaborateWatched o n entered Γ
      match f.kind with
      | .star => raise (.notOperator f a)
      | .arrow j k =>
        let a ← ofKind j (← a.elaborateWatched o n entered Γ)
        return .app f a k
    | .kinded t k =>
      let k ← k.elaborateWatched o n entered Γ
      ofKind k (← t.elaborateWatched o n entered Γ)

/-- What the rules of the watched checker call, given its two functions. -/
def Checker.Callees.watched (same : Checker.Comparison) (o : Checker.Options) (n : Nat)
    (entered : Checker.Entered) (infer : Checker.Entered → Context → Expr → Check Ty)
    (check : Checker.Entered → Context → Expr → Ty → Check Unit) : Checker.Callees Check where
  step m := m
  infer := infer entered
  check := check entered
  value Γ x v := do
    let t ← entering .expr x entered fun entered => infer entered Γ v
    keepExpr o x t
    pure t
  type Γ t := t.elaborateWatched o n entered Γ
  kind Γ k := k.elaborateWatched o n entered Γ
  normalize t := Check.normalize o t
  agreeAt e t u := Check.agreeAt same e t u

mutual

/-- The type of an expression. -/
def Expr.inferWatched (same : Checker.Comparison) (o : Checker.Options) :
    Nat → Checker.Entered → Context → Expr → Check Ty
  | 0, _, _, _ => raise .circular
  | n + 1, entered, Γ, e =>
    inferring Γ e (e.inferRule (.watched same o n entered (Expr.inferWatched same o n)
      (Expr.checkWatched same o n)) Γ)

/-- Compares an expression with an expected type. -/
def Expr.checkWatched (same : Checker.Comparison) (o : Checker.Options) :
    Nat → Checker.Entered → Context → Expr → Ty → Check Unit
  | 0, _, _, _, _ => raise .circular
  | n + 1, entered, Γ, e, expected =>
    checking o Γ e expected (e.checkRule (.watched same o n entered (Expr.inferWatched same o n)
      (Expr.checkWatched same o n)) Γ)

end

/-! ## What weighs more -/

section

variable {place : Name → Telescope} {S S' : Telescope} {d : Decl} {Γ : Context}
  {entered : Checker.Entered} {w w' : Nat} {x : Name}

/-- All that has been entered weighs at least `w`, together with what is in scope there. -/
def Checker.Entered.Outweighs (place : Name → Telescope) (entered : Checker.Entered) (w : Nat) :
    Prop :=
  ∀ p ∈ entered, w ≤ (place p.2).weight

namespace Checker.Entered.Outweighs

theorem mono (h : entered.Outweighs place w) (hw : w' ≤ w) : entered.Outweighs place w' :=
  fun p hp => Nat.le_trans hw (h p hp)

/-- A name in scope has not been entered. -/
theorem not_mem (h : entered.Outweighs place w) (hS : S.Placed place) (hd : d :: S' <:+ S)
    (hw : S.weight < w) : (d.level, d.name) ∉ entered := by
  intro hmem
  have hle := h _ hmem
  rw [hS.place_eq hd] at hle
  have := Telescope.weight_le_of_suffix hd
  omega

/-- The definition of a name in scope is entered. -/
theorem enter (h : entered.Outweighs place w) (hS : S.Placed place) (hd : d :: S' <:+ S)
    (hw : S.weight < w) :
    Outweighs place ((d.level, d.name) :: entered) (d.weight + Telescope.weight S') := by
  have hle : d.weight + Telescope.weight S' ≤ S.weight := Telescope.weight_le_of_suffix hd
  refine List.forall_mem_cons.2 ⟨?_, h.mono (by omega)⟩
  rw [hS.place_eq hd]
  exact Nat.le_refl _

end Checker.Entered.Outweighs

/-- The context has an entry for a declaration, with the phrase of a definition. -/
def Decl.Known (Γ : Context) : Decl → Prop
  | .kindDef x k => Γ.kinds.get? x = some k
  | .typeVar x _ => ∃ k, Γ.types.get? x = some (.bound k)
  | .typeDef x t => Γ.types.get? x = some (.defined t)
  | .exprVar x _ => ∃ t, Γ.exprs.get? x = some (.bound t)
  | .exprDef x e => Γ.exprs.get? x = some (.defined e)

/-- The context has entries for all names of a telescope. -/
def Context.Knows (Γ : Context) (S : Telescope) : Prop := ∀ d ∈ S, d.Known Γ

namespace Context.Knows

variable {Γ' : Context}

/-- A context that has the entries of the names in scope, and that of a new one. -/
theorem cons (h : Γ.Knows S) (hk : ∀ x ∈ S.names, Γ'.kinds.get? x = Γ.kinds.get? x)
    (ht : ∀ x ∈ S.names, Γ'.types.get? x = Γ.types.get? x)
    (he : ∀ x ∈ S.names, Γ'.exprs.get? x = Γ.exprs.get? x) (hd : d.Known Γ') :
    Γ'.Knows (d :: S) := by
  refine List.forall_mem_cons.2 ⟨hd, fun d' hd' => ?_⟩
  have hmem : d'.name ∈ S.names := List.mem_map_of_mem hd'
  have hold := h d' hd'
  cases d' with
  | kindDef x k => exact (hk x hmem).trans hold
  | typeVar x k => exact hold.imp fun _ h => (ht x hmem).trans h
  | typeDef x t => exact (ht x hmem).trans hold
  | exprVar x t => exact hold.imp fun _ h => (he x hmem).trans h
  | exprDef x e => exact (he x hmem).trans hold

theorem bindType (h : Γ.Knows S) (hx : x ∉ S.names) (j : KindExpr) (k : Kind) :
    (Γ.bindType x k).Knows (.typeVar x j :: S) :=
  h.cons (fun _ _ => rfl) (Table.get?_insert_of_not_mem hx) (fun _ _ => rfl)
    ⟨k, Table.get?_insert_self _ x _⟩

theorem bindExpr (h : Γ.Knows S) (hx : x ∉ S.names) (u : TypeExpr) (t : Ty) :
    (Γ.bindExpr x t).Knows (.exprVar x u :: S) :=
  h.cons (fun _ _ => rfl) (fun _ _ => rfl) (Table.get?_insert_of_not_mem hx)
    ⟨t, Table.get?_insert_self _ x _⟩

theorem defineKind (h : Γ.Knows S) (hx : x ∉ S.names) (k : KindExpr) :
    (Γ.defineKind x k).Knows (.kindDef x k :: S) :=
  h.cons (Table.get?_insert_of_not_mem hx) (fun _ _ => rfl) (fun _ _ => rfl)
    (Table.get?_insert_self _ x _)

theorem defineType (h : Γ.Knows S) (hx : x ∉ S.names) (t : TypeExpr) :
    (Γ.defineType x t).Knows (.typeDef x t :: S) :=
  h.cons (fun _ _ => rfl) (Table.get?_insert_of_not_mem hx) (fun _ _ => rfl)
    (Table.get?_insert_self _ x _)

theorem defineExpr (h : Γ.Knows S) (hx : x ∉ S.names) (e : Expr) :
    (Γ.defineExpr x e).Knows (.exprDef x e :: S) :=
  h.cons (fun _ _ => rfl) (fun _ _ => rfl) (Table.get?_insert_of_not_mem hx)
    (Table.get?_insert_self _ x _)

theorem suffix (h : Γ.Knows S) (hd : d :: S' <:+ S) : d.Known Γ ∧ Γ.Knows S' :=
  ⟨h d (hd.subset List.mem_cons_self), fun d' hd' => h d' (hd.subset (.tail _ hd'))⟩

end Context.Knows

end

/-! ## Elaboration -/

section

variable {place : Name → Telescope} {S S' : Telescope} {d : Decl} {Γ : Context}
  {entered : Checker.Entered} {m n w : Nat} {o : Checker.Options}

/-- A definition in scope is entered as if nobody watched. -/
theorem Check.entering_eq {α : Type} (hent : entered.Outweighs place w) (hS : S.Placed place)
    (hd : d :: S' <:+ S) (hw : S.weight < w) {rule : Checker.Entered → Check α} {rule' : Check α}
    (h : ∀ entered : Checker.Entered, entered.Outweighs place (d.weight + Telescope.weight S') →
      rule entered = rule') :
    entering d.level d.name entered rule = rule' := by
  rw [entering, if_neg (hent.not_mem hS hd hw)]
  exact h _ (hent.enter hS hd hw)

theorem KindExpr.watched {k : KindExpr} (hS : S.Placed place) (hk : k.Placed S) (hΓ : Γ.Knows S)
    (hent : entered.Outweighs place (k.size + S.weight)) (hm : k.size + S.weight ≤ m)
    (hn : k.size + S.weight ≤ n) :
    k.elaborateWatched o m entered Γ = k.elaborate o n Γ := by
  induction m generalizing n S k entered with
  | zero => cases k <;> simp only [size] at hm <;> omega
  | succ m ih =>
    obtain ⟨n, rfl⟩ : ∃ n', n = n' + 1 := ⟨n - 1, by cases k <;> simp only [size] at hn <;> omega⟩
    cases k with
    | star => rfl
    | arrow j k =>
      simp only [size] at hm hn hent
      have hj := @ih S entered n j hS hk.1 hΓ (hent.mono (by omega)) (by omega) (by omega)
      have hk := @ih S entered n k hS hk.2 hΓ (hent.mono (by omega)) (by omega) (by omega)
      rw [elaborateWatched, elaborate, hj, hk]
    | var x =>
      simp only [size] at hm hn hent
      obtain ⟨d, S', hl, hd, hsuf⟩ := hk
      cases d with
      | kindDef y j =>
        obtain rfl : y = x.name := hd
        have hw := Telescope.weight_le_of_suffix hsuf
        simp only [Telescope.weight, Decl.weight] at hw
        have hpl := hS.suffix hsuf
        have henter : entering .kind x.name entered
            (fun entered => j.elaborateWatched o m entered Γ) = j.elaborate o n Γ :=
          entering_eq hent hS hsuf (by omega) fun _ h =>
            ih hpl.2.2 hpl.1 (hΓ.suffix hsuf).2 h (by omega) (by omega)
        have hfind : Γ.findKind x = .ok j := Context.find_eq (hΓ.suffix hsuf).1
        rw [elaborateWatched, elaborate]
        refine bind_congr fun st => ?_
        cases st.kinds.get? x.name with
        | some k => rfl
        | none => simp only [hfind, found, pure_bind, henter]
      | _ => cases hl

theorem TypeExpr.watched {u : TypeExpr} (hS : S.Placed place) (hu : u.Placed place S)
    (hΓ : Γ.Knows S) (hent : entered.Outweighs place (u.size + S.weight))
    (hm : u.size + S.weight ≤ m) (hn : u.size + S.weight ≤ n) :
    u.elaborateWatched o m entered Γ = u.elaborate o n Γ := by
  induction m generalizing n S u entered Γ with
  | zero => cases u <;> simp only [size] at hm <;> omega
  | succ m ih =>
    obtain ⟨n, rfl⟩ : ∃ n', n = n' + 1 := ⟨n - 1, by cases u <;> simp only [size] at hn <;> omega⟩
    cases u with
    | int => rfl
    | var x =>
      simp only [size] at hm hn hent
      obtain ⟨d, S', hl, hd, hsuf⟩ := hu
      cases d with
      | typeVar y j =>
        obtain rfl : y = x.name := hd
        obtain ⟨k, hk⟩ := (hΓ.suffix hsuf).1
        have hfind : Γ.findType x = .ok (.bound k) := Context.find_eq hk
        rw [elaborateWatched, elaborate, hfind]
        rfl
      | typeDef y u =>
        obtain rfl : y = x.name := hd
        -- the definition is further out, so that it is lighter than all definitions that are open
        have hw := Telescope.weight_le_of_suffix hsuf
        simp only [Telescope.weight, Decl.weight] at hw
        have hpl := hS.suffix hsuf
        have henter : entering .type x.name entered
            (fun entered => u.elaborateWatched o m entered Γ) = u.elaborate o n Γ :=
          entering_eq hent hS hsuf (by omega) fun _ h =>
            ih hpl.2.2 hpl.1 (hΓ.suffix hsuf).2 h (by omega) (by omega)
        have hfind : Γ.findType x = .ok (.defined u) := Context.find_eq (hΓ.suffix hsuf).1
        simp only [elaborateWatched, elaborate, hfind, found, pure_bind]
        refine bind_congr fun st => ?_
        cases st.types.get? x.name with
        | some t => rfl
        | none => simp only [henter]
      | _ => cases hl
    | arrow s t =>
      simp only [size] at hm hn hent
      have hs := @ih S Γ entered n s hS hu.1 hΓ (hent.mono (by omega)) (by omega) (by omega)
      have ht := @ih S Γ entered n t hS hu.2 hΓ (hent.mono (by omega)) (by omega) (by omega)
      rw [elaborateWatched, elaborate, hs, ht]
    | bind b x j t =>
      simp only [size] at hm hn hent
      have hj := KindExpr.watched (m := m) (n := n) (o := o) hS hu.1 hΓ (hent.mono (by omega))
        (by omega) (by omega)
      have hw : Telescope.weight (.typeVar x.name j :: S) = S.weight := Nat.zero_add _
      have ht k := @ih (.typeVar x.name j :: S) (Γ.bindType x.name k) entered n t ⟨hu.1, hu.2.1, hS⟩
        hu.2.2 (hΓ.bindType (hS.not_mem hu.2.1) j k) (hent.mono (by omega)) (by omega) (by omega)
      cases b with
      | all => simp only [elaborateWatched, elaborate, hj, ht]
      | lam => simp only [elaborateWatched, elaborate, hj, ht]
    | app f a =>
      simp only [size] at hm hn hent
      have hf := @ih S Γ entered n f hS hu.1 hΓ (hent.mono (by omega)) (by omega) (by omega)
      have ha := @ih S Γ entered n a hS hu.2 hΓ (hent.mono (by omega)) (by omega) (by omega)
      rw [elaborateWatched, hf, ha]
      rfl
    | kinded t k =>
      simp only [size] at hm hn hent
      have ht := @ih S Γ entered n t hS hu.1 hΓ (hent.mono (by omega)) (by omega) (by omega)
      have hk := KindExpr.watched (m := m) (n := n) (o := o) hS hu.2 hΓ (hent.mono (by omega))
        (by omega) (by omega)
      rw [elaborateWatched, elaborate, ht, hk]

end

/-! ## Inference and comparison -/

namespace Expr

variable (place : Name → Telescope) (same : Checker.Comparison) (o : Checker.Options)

/-- Within the bound `m`, watched inference is inference. -/
def InferWatched (m : Nat) : Prop :=
  ∀ {n : Nat} {Γ : Context} {S : Telescope} {e : Expr} {entered : Checker.Entered},
    S.Placed place → e.Placed place S → Γ.Knows S → entered.Outweighs place (e.size + S.weight) →
    2 * (e.size + S.weight) ≤ m → 2 * (e.size + S.weight) ≤ n →
    e.inferWatched same o m entered Γ = e.inferBy same o n Γ

/-- Within the bound `m`, a watched comparison is a comparison. -/
def CheckWatched (m : Nat) : Prop :=
  ∀ {n : Nat} {Γ : Context} {S : Telescope} {e : Expr} {entered : Checker.Entered} {t : Ty},
    S.Placed place → e.Placed place S → Γ.Knows S → entered.Outweighs place (e.size + S.weight) →
    2 * (e.size + S.weight) < m → 2 * (e.size + S.weight) < n →
    e.checkWatched same o m entered Γ t = e.checkBy same o n Γ t

variable {place same o} {S : Telescope} {Γ : Context} {entered : Checker.Entered} {m n : Nat}

/-- What is entered is at a place in scope. -/
theorem Enters.visits {Γ' : Context} {e e' : Expr} (h : e.Enters Γ Γ' e') (hS : S.Placed place)
    (he : e.Placed place S) (hΓ : Γ.Knows S) : ∃ S', e.Visits S S' e' ∧ Γ'.Knows S' := by
  cases h with
  | ann _ u l => exact ⟨S, .ann S e' u l, hΓ⟩
  | letIn x v _ l => exact ⟨_, .letIn S x v e' l, hΓ.defineExpr (hS.not_mem he.2.1) v⟩
  | typeIn x v _ l => exact ⟨_, .typeIn S x v e' l, hΓ.defineType (hS.not_mem he.2.1) v⟩
  | kindIn x v _ l => exact ⟨_, .kindIn S x v e' l, hΓ.defineKind (hS.not_mem he.2.1) v⟩
  | lam x u _ l t => exact ⟨_, .lam S x u e' l, hΓ.bindExpr (hS.not_mem he.2.1) u t⟩
  | argument f _ l => exact ⟨S, .argument S f e' l, hΓ⟩
  | tlam x k _ l j => exact ⟨_, .tlam S x k e' l, hΓ.bindType (hS.not_mem he.2.1) k j⟩

theorem Applies.visits {e f : Expr} (h : e.Applies f) (S : Telescope) : e.Visits S S f := by
  cases h with
  | app f a l => exact .function S f a l
  | tapp f u l => exact .operator S f u l

/-- The definition of a name is entered as if nobody watched. -/
theorem watched_value (infer : InferWatched place same o m) {x : Ident} {l : Option Location}
    {v : Expr} (hS : S.Placed place) (he : (var x l).Placed place S) (hΓ : Γ.Knows S)
    (hent : entered.Outweighs place ((var x l).size + S.weight))
    (hm : 2 * ((var x l).size + S.weight) ≤ m + 1)
    (hn : 2 * ((var x l).size + S.weight) ≤ n + 1)
    (hv : Γ.exprs.get? x.name = some (.defined v)) :
    entering .expr x.name entered (fun entered => v.inferWatched same o m entered Γ) =
      v.inferBy same o n Γ := by
  obtain ⟨d, S', hl, hd, hsuf⟩ := he
  obtain ⟨hknown, hΓ'⟩ := hΓ.suffix hsuf
  cases d with
  | exprVar y u =>
    obtain rfl : y = x.name := hd
    obtain ⟨t, ht⟩ := hknown
    cases ht.symm.trans hv
  | exprDef y w =>
    obtain rfl : y = x.name := hd
    obtain rfl := Entry.defined.inj (Option.some.inj (hknown.symm.trans hv))
    have hvisit : (var x l).Visits S S' w := .value l hsuf
    obtain ⟨hS', hw⟩ := hvisit.placed hS ⟨_, S', hl, rfl, hsuf⟩
    have hlt := hvisit.weight_lt
    refine entering_eq hent hS hsuf (by simp only [size]; omega) fun _ h => ?_
    exact infer hS' hw hΓ' h (by omega) (by omega)
  | _ => cases hl

/-- The rules of the watched checker call the same as those of the checker. -/
theorem watched_related (infer : InferWatched place same o m) (check : CheckWatched place same o m)
    {e : Expr} (hS : S.Placed place) (he : e.Placed place S) (hΓ : Γ.Knows S)
    (hent : entered.Outweighs place (e.size + S.weight)) (hm : 2 * (e.size + S.weight) ≤ m + 1)
    (hn : 2 * (e.size + S.weight) ≤ n + 1) :
    Checker.Callees.Related (fun f f' => f = f') (fun f f' => f = f')
      (.watched same o m entered (inferWatched same o m) (checkWatched same o m))
      (.within same o n) Γ e where
  pure _ := rfl
  last h := h
  bind h hf := by
    rw [h]
    exact bind_congr hf
  map g h := by rw [h]
  step _ := rfl
  normalize _ := rfl
  agreeAt _ _ := rfl
  found {α x l f f'} _ hf := by
    unfold Context.findExpr Context.find
    cases hx : Γ.exprs.get? x.name with
    | some d => exact hf d hx
    | none => rfl
  type hu := by
    have hlt := hu.size_lt
    exact TypeExpr.watched hS (hu.placed he) hΓ (hent.mono (by omega)) (by omega) (by omega)
  kind hk := by
    cases hk with
    | tlam x k e l =>
      simp only [size] at hm hn hent
      exact KindExpr.watched hS he.1 hΓ (hent.mono (by omega)) (by omega) (by omega)
  first hf := by
    have hv := hf.visits S
    have hlt := hv.weight_lt
    exact infer hS (hv.placed hS he).2 hΓ (hent.mono (by omega)) (by omega) (by omega)
  -- the only rule that enters a definition
  value hx hv := by
    subst hx
    exact congrArg (· >>= _) (watched_value infer hS he hΓ hent hm hn hv)
  infer h := by
    obtain ⟨S', hv, hΓ'⟩ := h.visits hS he hΓ
    obtain ⟨hS', he'⟩ := hv.placed hS he
    have hlt := hv.weight_lt
    exact infer hS' he' hΓ' (hent.mono (by omega)) (by omega) (by omega)
  check t h := by
    obtain ⟨S', hv, hΓ'⟩ := h.visits hS he hΓ
    obtain ⟨hS', he'⟩ := hv.placed hS he
    have hlt := hv.weight_lt
    exact check hS' he' hΓ' (hent.mono (by omega)) (by omega) (by omega)

theorem watched (m : Nat) : InferWatched place same o m ∧ CheckWatched place same o m := by
  induction m with
  | zero =>
    refine ⟨fun _ _ _ _ hm => ?_, fun _ _ _ _ hm => absurd hm (Nat.not_lt_zero _)⟩
    have := size_pos ‹Expr›
    omega
  | succ m ih =>
    constructor
    · intro n Γ S e entered hS he hΓ hent hm hn
      obtain ⟨n, rfl⟩ : ∃ n', n = n' + 1 := ⟨n - 1, by have := e.size_pos; omega⟩
      rw [inferWatched, inferBy_succ, (watched_related ih.1 ih.2 hS he hΓ hent hm hn).inferRule]
    · intro n Γ S e entered t hS he hΓ hent hm hn
      obtain ⟨n, rfl⟩ : ∃ n', n = n' + 1 := ⟨n - 1, by omega⟩
      have hinfer : e.inferWatched same o m entered Γ = e.inferBy same o n Γ :=
        ih.1 hS he hΓ hent (by omega) (by omega)
      have hrules := watched_related ih.1 ih.2 hS he hΓ hent (Nat.le_of_lt hm) (Nat.le_of_lt hn)
      rw [checkWatched, checkBy_succ]
      exact congrArg (checking o Γ e t) (funext (hrules.checkRule hinfer))

/-! ## Whole programs -/

/-- A bound of twice the size of a program is as good as any other beyond it, watched or not. -/
theorem inferWatched_eq {r : Expr} (hr : r.Placed place []) (hm : 2 * r.size ≤ m)
    (hn : 2 * r.size ≤ n) : r.inferWatched same o m [] {} = r.inferBy same o n {} :=
  (watched m).1 (S := []) trivial hr (List.forall_mem_nil _) (List.forall_mem_nil _) hm hn

theorem inferBy_eq {r : Expr} (hr : r.Placed place []) (hm : 2 * r.size ≤ m)
    (hn : 2 * r.size ≤ n) : r.inferBy same o m {} = r.inferBy same o n {} :=
  (inferWatched_eq hr hm hm).symm.trans (inferWatched_eq hr hm hn)

theorem inferNormal_eq {r : Expr} (hr : r.Placed place []) (hn : 2 * r.size ≤ n) :
    r.inferNormal same o = (do Check.normalize o (← r.inferBy same o n {})) := by
  have hreach : 2 * r.size ≤ Context.reach {} r.size := by
    unfold Context.reach
    omega
  rw [inferNormal, inferBy_eq hr hreach hn]

/-- The checker's recursion on a renamed program is well founded, whatever the options. Phrases and
definitions nest to a depth of twice the size of the program at most: beyond that, the bound plays
no part, and a run never reaches it. And the checker does what the watched checker does, so it never
enters a definition that it is inside of. -/
theorem typeOf_wellFounded {e r : Expr} {c : Int} (h : e.rename {} 1 = .ok r c)
    (o : Checker.Options) (tr : Trace) :
    (r.inferNormal Ty.conform o = do Check.normalize o (← r.infer o (2 * r.size) {})) ∧
    (∀ n, 2 * r.size ≤ n → r.infer o n {} = r.infer o (2 * r.size) {} ∧
      r.inferWatched Ty.conform o n [] {} = r.infer o (2 * r.size) {}) ∧
    (∀ f s, r.infer o (2 * r.size) {} { supply := c, trace := tr } = .error f s →
      f.cause ≠ .circular) ∧
    ∀ f, (e.typeOf o tr).1 = .error f → f.cause ≠ .circular := by
  obtain ⟨place, hr⟩ := exists_placed h
  have hle : 2 * r.size ≤ 2 * r.size := Nat.le_refl _
  have hcause {f : Failure} (hf : f.cause.OfTyping Ty.conform o) : f.cause ≠ .circular := by
    intro hc
    rw [hc] at hf
    exact hf
  refine ⟨inferNormal_eq hr hle, fun n hn => ⟨inferBy_eq hr hn hle, inferWatched_eq hr hn hle⟩,
    fun f s hrun => ?_, fun f hf => ?_⟩
  · have hsettles := @inferBy_settles Ty.conform o place r hr (2 * r.size) hle c tr
    unfold Settles at hsettles
    rw [show r.inferBy Ty.conform o _ _ _ = _ from hrun] at hsettles
    exact hcause hsettles
  · have hsettles := @inferNormal_settles Ty.conform o place r hr c tr
    rw [typeOf, typeOfBy_of_rename h] at hf
    unfold Settles at hsettles
    split at hsettles
    · rename_i hrun
      rw [hrun] at hf
      cases hf
    · rename_i f' s hrun
      rw [hrun] at hf
      obtain rfl := Except.error.inj hf
      exact hcause (f := f'.locate s.loc) hsettles

/-- Without a cache, an alias of a function type between two uses of another alias. -/
theorem typeOf_wellFounded_aliases :
    let A : Ident := { name := ⟨"A", 0⟩ }
    let B : Ident := { name := ⟨"B", 0⟩ }
    let x : Ident := { name := ⟨"x", 0⟩ }
    let e := typeIn A .int (typeIn B (.arrow (.var A) (.var A)) (lam x (.var B) (var x none) none)
      none) none
    ∃ r c, e.rename {} 1 = .ok r c ∧ ∀ n, 2 * r.size ≤ n →
      r.infer { cache := false } n {} = r.infer { cache := false } (2 * r.size) {} ∧
      r.inferWatched Ty.conform { cache := false } n [] {} =
        r.infer { cache := false } (2 * r.size) {} := by
  intro A B x e
  obtain ⟨r, c, hrename⟩ : ∃ r c, e.rename {} 1 = .ok r c := by
    let r := typeIn (A.withId 1) .int (typeIn (B.withId 2)
      (.arrow (.var (A.withId 1)) (.var (A.withId 1)))
      (lam (x.withId 3) (.var (B.withId 2)) (var (x.withId 3) none) none) none) none
    exact ⟨r, run'_eq_some.1 (by decide +kernel)⟩
  exact ⟨r, c, hrename, (typeOf_wellFounded hrename { cache := false } {}).2.1⟩

end Expr

end SystemFOmega
