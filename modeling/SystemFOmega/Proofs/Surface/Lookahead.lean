import SystemFOmega.Proofs.Surface.Recognition

/-!
# Readers look one token ahead

A reader takes tokens from the front of a list, and what it does depends on these tokens and on the
one behind them alone (`Parser.Local`). Readers of this kind can be put one after the other
(`Parser.Local.bind`), and a spine of them is another one (`Parser.spine_local`), since it ends
before there is no room left.
-/

namespace SystemFOmega

open Grammar Run

namespace Parser

variable {α β : Type} {k : TokenKind} {ts r : List Token}

/-- From `ts` the reader takes some tokens, and it does the same where the token behind these is the
same. -/
def LocalAt (p : Parse α) (ts : List Token) : Prop :=
  ∃ us, ts = us ++ endState (p ts) ∧
    ∀ s, front s = front (endState (p ts)) → p (us ++ s) = onState (fun _ => s) (p ts)

/-- What the reader does depends only on the tokens that it takes and on the one behind them. -/
def Local (p : Parse α) : Prop := ∀ ts, LocalAt p ts

/-- What is in front depends only on what is in front of the rest. -/
theorem front_append {us s s' : List Token} (h : front s = front s') :
    front (us ++ s) = front (us ++ s') := by
  cases us with
  | nil => exact h
  | cons t us => rfl

namespace LocalAt

theorem pure (a : α) : LocalAt (Pure.pure a) ts := ⟨[], rfl, fun _ _ => rfl⟩

theorem throw (f : ReadFault) : LocalAt (throw f : Parse α) ts := ⟨[], rfl, fun _ _ => rfl⟩

/-- A reader and then another one, which only has to be local where the first one ends. -/
theorem bind {p : Parse α} {f : α → Parse β} (hp : LocalAt p ts)
    (hf : ∀ a r, p ts = .ok a r → LocalAt (f a) r) : LocalAt (p >>= f) ts := by
  obtain ⟨us, hts, hus⟩ := hp
  cases h : p ts with
  | error e r =>
    rw [h] at hts hus
    refine ⟨us, ?_, fun s hs => ?_⟩
    · rw [bind_of_error f h]
      exact hts
    · rw [bind_of_error f h] at hs ⊢
      exact bind_of_error f (hus s hs)
  | ok a r =>
    obtain ⟨vs, hr, hvs⟩ := hf a r h
    rw [h] at hts hus
    refine ⟨us ++ vs, ?_, fun s hs => ?_⟩
    · rw [bind_of_ok f h, List.append_assoc, ← hr]
      exact hts
    · rw [bind_of_ok f h] at hs ⊢
      -- the token behind those of the first part is one of the second, or the same by assumption
      have hnext : front (vs ++ s) = front r := (front_append hs).trans (congrArg front hr.symm)
      rw [List.append_assoc, bind_of_ok f (hus _ hnext)]
      exact hvs s hs

theorem peek {f : Token → Parse β} (hf : LocalAt (f (front ts)) ts) :
    LocalAt (peek >>= f) ts := by
  obtain ⟨us, hts, hus⟩ := hf
  refine ⟨us, hts, fun s hs => ?_⟩
  have hfront : front (us ++ s) = front ts := (front_append hs).trans (congrArg front hts.symm)
  show f (front (us ++ s)) (us ++ s) = _
  rw [hfront]
  exact hus s hs

theorem failWanted (w : Wanted) : LocalAt (failWanted w : Parse α) ts := .peek (.throw _)

/-- A token is taken after its class has been looked at. -/
theorem skip {f : Unit → Parse β} (h : (front ts).kind = k) (hk : k ≠ .eof) (hf : Local (f ())) :
    LocalAt (skip >>= f) ts := by
  obtain ⟨t, r, rfl⟩ := exists_terminal h hk
  obtain ⟨us, hr, hus⟩ := hf r
  exact ⟨t.1 :: us, congrArg (t.1 :: ·) hr, hus⟩

end LocalAt

namespace Local

theorem pure (a : α) : Local (Pure.pure a) := fun _ => .pure a

theorem bind {p : Parse α} {f : α → Parse β} (hp : Local p) (hf : ∀ a, Local (f a)) :
    Local (p >>= f) := fun ts => (hp ts).bind fun a r _ => hf a r

theorem tooDeep : Local (tooDeep : Parse α) := fun _ => .peek (.throw _)

theorem expect {f : Token → Parse β} (hk : k ≠ .eof) (hf : ∀ t, Local (f t)) :
    Local (expect k >>= f) := by
  refine bind (fun ts => ?_) hf
  unfold Parser.expect
  refine .peek ?_
  split
  · rename_i h
    exact .skip h hk (.pure _)
  · exact .failWanted _

theorem accept {f : Bool → Parse β} (hk : k ≠ .eof) (htrue : Local (f true))
    (hfalse : Local (f false)) : Local (accept k >>= f) := by
  refine bind (fun ts => ?_) fun b => ?_
  · unfold Parser.accept
    refine .peek ?_
    split
    · rename_i h
      exact .skip h hk (.pure _)
    · exact .pure _
  · cases b with
    | true => exact htrue
    | false => exact hfalse

/-- A local reader does not put tokens back. -/
theorem length_le {p : Parse α} {a : α} (hp : Local p) (h : p ts = .ok a r) :
    r.length ≤ ts.length := by
  obtain ⟨us, hts, -⟩ := hp ts
  rw [h] at hts
  rw [hts, List.length_append]
  exact Nat.le_add_left _ _

end Local

/-! ## Spines -/

section Spine

variable {starts : TokenKind → Bool} {step : α → Parse α} (heof : starts .eof = false)
  (hless : ∀ {a b : α} {ts r : List Token}, step a ts = .ok b r → r.length < ts.length)

include heof in
theorem extend_end (room : List Token) (left : α) :
    extend starts step room left [] = .ok left [] := by
  cases room with
  | nil => rfl
  | cons t room =>
    show (if starts .eof then _ else _ : Parse α) [] = _
    rw [if_neg (Bool.eq_false_iff.1 heof)]
    rfl

include heof hless in
/-- All room that is enough is the same. -/
theorem extend_room (room room' : List Token) (left : α) (ts : List Token)
    (h : ts.length ≤ room.length) (h' : ts.length ≤ room'.length) :
    extend starts step room left ts = extend starts step room' left ts := by
  induction room generalizing room' left ts with
  | nil =>
    obtain rfl : ts = [] := List.length_eq_zero_iff.1 (Nat.le_zero.1 h)
    rw [extend_end heof, extend_end heof]
  | cons t room ih =>
    cases room' with
    | nil =>
      obtain rfl : ts = [] := List.length_eq_zero_iff.1 (Nat.le_zero.1 h')
      rw [extend_end heof, extend_end heof]
    | cons t' room' =>
      show (if starts (front ts).kind then step left >>= extend starts step room else _) ts =
        (if starts (front ts).kind then step left >>= extend starts step room' else _ : Parse α) ts
      split
      · cases hs : step left ts with
        | ok b r =>
          have hr := hless hs
          simp only [List.length_cons] at h h'
          rw [bind_of_ok _ hs, bind_of_ok _ hs]
          exact ih room' b r (by omega) (by omega)
        | error f r => rw [bind_of_error _ hs, bind_of_error _ hs]
      · rfl

include heof hless in
/-- A spine is extended as long as the token in front allows it. -/
theorem spine_eq (left : α) : spine starts step left =
    (do if starts (← peek).kind then spine starts step (← step left) else return left) := by
  funext ts
  show extend starts step ts left ts =
    (if starts (front ts).kind then step left >>= spine starts step else _ : Parse α) ts
  cases ts with
  | nil =>
    rw [if_neg (show ¬ starts (front []).kind from Bool.eq_false_iff.1 heof)]
    exact extend_end heof [] left
  | cons t ts =>
    show (if starts t.kind then step left >>= extend starts step ts else _ : Parse α) _ =
      (if starts t.kind then _ else _ : Parse α) _
    split
    · cases hs : step left (t :: ts) with
      | ok b r =>
        rw [bind_of_ok _ hs, bind_of_ok _ hs]
        exact extend_room heof hless ts r b r (Nat.le_of_lt_succ (hless hs)) (Nat.le_refl _)
      | error f r => rw [bind_of_error _ hs, bind_of_error _ hs]
    · rfl

include heof hless in
theorem spine_local (hstep : ∀ a, Local (step a)) (left : α) : Local (spine starts step left) := by
  intro ts
  -- every step leaves fewer tokens
  induction hn : ts.length using Nat.strongRecOn generalizing left ts with
  | ind n ih =>
    subst hn
    rw [spine_eq heof hless]
    refine .peek ?_
    split
    · exact (hstep left ts).bind fun b r hb => ih r.length (hless hb) b r rfl
    · exact .pure left

end Spine

/-! ## The readers of the surface language -/

section Readers

variable {innerKind : Parse KindExpr} {innerType : Parse TypeExpr} {inner : Parse Expr}

theorem atomicKind_local (hk : Local innerKind) : Local (atomicKind innerKind) := by
  intro ts
  unfold atomicKind
  refine .peek ?_
  split <;> rename_i h
  · exact .skip h (by decide) (.pure _)
  · exact .skip h (by decide) (.pure _)
  · exact .skip h (by decide) (hk.bind fun k => .expect (by decide) fun _ => .pure k)
  · exact .failWanted _

/-- A kind is read without looking past the token behind it. -/
theorem kind_local (D : Nat) : Local (kind D) := by
  induction D with
  | zero => exact .tooDeep
  | succ D ih =>
    exact (atomicKind_local ih).bind fun j =>
      .accept (by decide) (ih.bind fun _ => .pure _) (.pure j)

theorem atomicType_local (hk : Local innerKind) (ht : Local innerType) :
    Local (atomicType innerKind innerType) := by
  have hclose (t : TypeExpr) : Local (expect .rparen >>= fun _ => pure t) :=
    .expect (by decide) fun _ => .pure t
  intro ts
  unfold atomicType
  refine .peek ?_
  split <;> rename_i h
  · exact .skip h (by decide) (.pure _)
  · exact .skip h (by decide) (.pure _)
  · exact .skip h (by decide) (ht.bind fun t =>
      .accept (by decide) (hk.bind fun k => hclose (.kinded t k)) (hclose t))
  · exact .failWanted _

theorem binderType_local {b : Binder} (h : (front ts).kind = sign b) (hk : Local innerKind)
    (ht : Local innerType) : LocalAt (binderType b innerKind innerType) ts :=
  .skip h (sign_ne_eof b) (.expect (by decide) fun _ => .expect (by decide) fun _ =>
    hk.bind fun _ => .expect (by decide) fun _ => ht.bind fun _ => .pure _)

theorem typeArgument_local {D : Nat} (ha : Local (atomicType (kind D) (type D))) (f : TypeExpr) :
    Local (typeArgument D f) :=
  ha.bind fun _ => .pure _

/-- An argument of a type takes a token. -/
theorem typeArgument_less {D : Nat} {f g : TypeExpr} (h : typeArgument D f ts = .ok g r) :
    r.length < ts.length := by
  obtain ⟨a, s, ha, h⟩ := bind_ok.1 h
  obtain ⟨-, rfl⟩ := pure_ok.1 h
  obtain ⟨d, rfl, -⟩ := (atomicType_derives (kind_derives D) (type_derives D) ts).of_ok ha
  exact length_lt_tatom d s

/-- A type is read without looking past the token behind it. -/
theorem type_local (D : Nat) : Local (type D) := by
  induction D with
  | zero => exact .tooDeep
  | succ D ih =>
    have hk := kind_local D
    have hatom := atomicType_local hk ih
    intro ts
    rw [type]
    refine .peek ?_
    split
    · rename_i h
      exact binderType_local (b := .all) h hk ih
    · rename_i h
      exact binderType_local (b := .lam) h hk ih
    · have hspine (f : TypeExpr) : Local (spine startsAtomicType (typeArgument D) f) :=
        spine_local rfl typeArgument_less (typeArgument_local hatom) f
      exact (hatom.bind fun f => (hspine f).bind fun t =>
        .accept (by decide) (ih.bind fun _ => .pure _) (.pure t)) ts

theorem atomicExpr_local (ht : Local innerType) (he : Local inner) :
    Local (atomicExpr innerType inner) := by
  have hclose (e : Expr) : Local (expect .rparen >>= fun _ => pure e) :=
    .expect (by decide) fun _ => .pure e
  intro ts
  unfold atomicExpr
  refine .peek ?_
  split <;> rename_i h
  · refine .skip h (by decide) ?_
    split
    · exact .pure _
    · exact fun _ => .throw _
  · exact .skip h (by decide) (.pure _)
  · exact .skip h (by decide) (he.bind fun e =>
      .accept (by decide) (ht.bind fun t => hclose _) (hclose e))
  · exact .failWanted _

/-- What is behind the bracket of a type as an argument. -/
theorem typeInBrackets_local (ht : Local innerType) (f : Expr) :
    Local (do let t ← innerType; let _ ← expect .rbracket; return Expr.tapp f t f.loc) :=
  ht.bind fun _ => .expect (by decide) fun _ => .pure _

theorem argument_local (ht : Local innerType) (he : Local inner) (f : Expr) :
    Local (argument innerType inner f) :=
  .accept (by decide) (typeInBrackets_local ht f) ((atomicExpr_local ht he).bind fun _ => .pure _)

/-- An argument takes a token. -/
theorem argument_less {D : Nat} {f g : Expr} (h : argument (type D) (expr D) f ts = .ok g r) :
    r.length < ts.length := by
  by_cases hts : (front ts).kind = .lbracket
  · obtain ⟨t, s, rfl⟩ := exists_terminal hts (by decide)
    rw [argument, bind_of_ok _ (accept_terminal t s)] at h
    exact Nat.lt_succ_of_le ((typeInBrackets_local (type_local D) f).length_le h)
  · rw [argument, bind_of_ok _ (accept_other hts)] at h
    obtain ⟨a, s, ha, h⟩ := bind_ok.1 h
    obtain ⟨-, rfl⟩ := pure_ok.1 h
    obtain ⟨d, rfl, -⟩ := (atomicExpr_derives (type_derives D) (expr_derives D) ts).of_ok ha
    exact length_lt_atom d s

theorem letBinding_local (ht : Local innerType) (he : Local inner) :
    Local (letBinding innerType inner) :=
  .expect (by decide) fun _ => .expect (by decide) fun _ => .expect (by decide) fun _ =>
    ht.bind fun _ => .expect (by decide) fun _ => he.bind fun _ =>
    .expect (by decide) fun _ => he.bind fun _ => .pure _

theorem typeBinding_local (hk : Local innerKind) (ht : Local innerType) (he : Local inner) :
    Local (typeBinding innerKind innerType inner) :=
  .expect (by decide) fun _ => .expect (by decide) fun _ => .expect (by decide) fun _ =>
    hk.bind fun _ => .expect (by decide) fun _ => ht.bind fun _ =>
    .expect (by decide) fun _ => he.bind fun _ => .pure _

theorem kindBinding_local (hk : Local innerKind) (he : Local inner) :
    Local (kindBinding innerKind inner) :=
  .expect (by decide) fun _ => .expect (by decide) fun _ => .expect (by decide) fun _ =>
    hk.bind fun _ => .expect (by decide) fun _ => he.bind fun _ => .pure _

theorem abstraction_local (hk : Local innerKind) (ht : Local innerType) (he : Local inner) :
    Local (abstraction innerKind innerType inner) := by
  refine .expect (by decide) fun start ts => .peek ?_
  split
  · rename_i h
    exact .skip h (by decide) (.expect (by decide) fun _ => hk.bind fun _ =>
      .expect (by decide) fun _ => he.bind fun _ => .pure _)
  · have hlam (x : Token) : Local (do
        let _ ← expect .colon
        let t ← innerType
        let _ ← expect .dot
        return Expr.lam x.ident t (← inner) (some start.loc)) :=
      .expect (by decide) fun _ => ht.bind fun _ => .expect (by decide) fun _ =>
        he.bind fun _ => .pure _
    exact Local.expect (by decide) hlam ts

/-- An expression is read without looking past the token behind it. -/
theorem expr_local (D : Nat) : Local (expr D) := by
  induction D with
  | zero => exact .tooDeep
  | succ D ih =>
    have hk := kind_local D
    have ht := type_local D
    intro ts
    rw [expr]
    refine .peek ?_
    split
    · exact letBinding_local ht ih ts
    · exact typeBinding_local hk ht ih ts
    · exact kindBinding_local hk ih ts
    · exact abstraction_local hk ht ih ts
    · exact ((atomicExpr_local ht ih).bind fun f =>
        spine_local rfl argument_less (argument_local ht ih) f) ts

end Readers

end Parser

end SystemFOmega
