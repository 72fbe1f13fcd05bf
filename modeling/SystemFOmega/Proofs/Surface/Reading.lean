import SystemFOmega.Proofs.Run
import SystemFOmega.Proofs.Surface.Grammar
import SystemFOmega.Proofs.Text.Numeral

/-!
# Phrases of the grammar are read

The readers of the surface language follow the derivations of the grammar: in front of anything that
cannot go on with a phrase, the reader of its nonterminal takes the tokens of the phrase and gives
what it denotes, if it does not nest too deep, and otherwise says that it does (`Parser.accepts`).
There is one lemma for each production.
-/

namespace SystemFOmega

open Grammar Grammar.Nonterminal Run

namespace Parser

variable {α β : Type} {p q : Parse α} {f : α → Parse β} {a : α} {b : β} {k : TokenKind}
  {ts mid rest r : List Token} {fits fits' : Prop}

/-! ## Readers that follow a derivation -/

/-- From `ts` the reader gives `a` and leaves `rest` if `fits`, and otherwise finds that the text
nests too deep. -/
def Reads (p : Parse α) (ts : List Token) (a : α) (rest : List Token) (fits : Prop) : Prop :=
  (fits → p ts = .ok a rest) ∧ (¬ fits → ∃ l s, p ts = .error (.tooDeep l) s)

namespace Reads

theorem pure (a : α) (ts : List Token) : Reads (Pure.pure a) ts a ts True :=
  ⟨fun _ => rfl, fun h => absurd trivial h⟩

/-- Two readers, one after the other: there must be room for both. -/
theorem bind (hp : Reads p ts a mid fits) (hf : Reads (f a) mid b rest fits') :
    Reads (p >>= f) ts b rest (fits ∧ fits') := by
  constructor
  · rintro ⟨h, h'⟩
    rw [bind_of_ok f (hp.1 h)]
    exact hf.1 h'
  · intro h
    by_cases hfits : fits
    · rw [bind_of_ok f (hp.1 hfits)]
      exact hf.2 fun h' => h ⟨hfits, h'⟩
    · obtain ⟨l, s, hs⟩ := hp.2 hfits
      exact ⟨l, s, bind_of_error f hs⟩

/-- A first step that does not fail. -/
theorem step (hp : p ts = .ok a mid) (hf : Reads (f a) mid b rest fits) :
    Reads (p >>= f) ts b rest fits := by
  unfold Reads
  rwa [bind_of_ok f hp]

/-- Further steps that do not fail. -/
theorem last (hp : Reads p ts a mid fits) (hf : Reads (f a) mid b rest True) :
    Reads (p >>= f) ts b rest fits := by
  have h := hp.bind hf
  rwa [and_true] at h

/-- What is read is put into a phrase. -/
theorem map (hp : Reads p ts a mid fits) (g : α → β) :
    Reads (p >>= fun a => Pure.pure (g a)) ts (g a) mid fits :=
  hp.last (.pure (g a) mid)

theorem congr (hp : Reads p ts a rest fits) (h : fits ↔ fits') : Reads p ts a rest fits' := by
  rwa [← propext h]

theorem of_eq (h : p ts = q ts) (hq : Reads q ts a rest fits) : Reads p ts a rest fits := by
  unfold Reads
  rwa [h]

/-- Each phrase takes one from the depth. -/
theorem phrase {p : Nat → Parse α} {n : Nat} (h₀ : p 0 = tooDeep)
    (h : ∀ D, Reads (p (D + 1)) ts a rest (n ≤ D)) (D : Nat) :
    Reads (p D) ts a rest (n + 1 ≤ D) := by
  cases D with
  | zero =>
    rw [h₀]
    exact ⟨fun h => absurd h (Nat.not_succ_le_zero n), fun _ => ⟨_, _, rfl⟩⟩
  | succ D => exact (h D).congr (by omega)

end Reads

/-! ## Single tokens -/

theorem peek_ok (ts : List Token) : peek ts = .ok (front ts) ts := rfl

/-- A token of the class that is wanted is taken. -/
theorem expect_terminal (t : Terminal k) (r : List Token) : expect k (t.1 :: r) = .ok t.1 r := by
  show (if t.1.kind = k then _ else _ : Parse Token) (t.1 :: r) = _
  rw [if_pos t.2]
  rfl

theorem accept_terminal (t : Terminal k) (r : List Token) :
    accept k (t.1 :: r) = .ok true r := by
  show (if t.1.kind = k then _ else _ : Parse Bool) (t.1 :: r) = _
  rw [if_pos t.2]
  rfl

/-- A token of another class is left where it is. -/
theorem accept_other (h : (front r).kind ≠ k) : accept k r = .ok false r := by
  show (if (front r).kind = k then _ else _ : Parse Bool) r = _
  rw [if_neg h]
  rfl

/-! ## Numerals -/

end Parser

/-- Phrases of types and kinds have no numerals. -/
def Grammar.Nonterminal.hasNumerals : Nonterminal → Bool
  | .expr | .app | .args | .atom => true
  | .type | .tapp | .targs | .tatom | .kind | .katom => false

/-- The numerals of a phrase can be read. -/
def Grammar.Derivation.Readable : {n : Nonterminal} → Derivation n → Prop
  | _, .letIn _ _ _ _ _ v _ e => v.Readable ∧ e.Readable
  | _, .typeIn _ _ _ _ _ _ _ e => e.Readable
  | _, .kindIn _ _ _ _ _ e => e.Readable
  | _, .lam _ _ _ _ _ e => e.Readable
  | _, .tlam _ _ _ _ _ e => e.Readable
  | _, .exprApp e => e.Readable
  | _, .app f as => f.Readable ∧ as.Readable
  | _, .argsExpr a as => a.Readable ∧ as.Readable
  | _, .argsType _ _ _ as => as.Readable
  | _, .numeral n => ∃ m, Numeral.read n.1.text = .ok m
  | _, .parens _ e _ => e.Readable
  | _, .annotated _ e _ _ _ => e.Readable
  | _, _ => True

/-- A phrase without numerals has none that cannot be read. -/
theorem Grammar.Derivation.readable {n : Nonterminal} (d : Derivation n)
    (h : n.hasNumerals = false) : d.Readable := by
  cases d <;> first | exact trivial | cases h

namespace Parser

/-! ## Phrases are read -/

/-- One more argument for the type `f`. -/
def typeArgument (D : Nat) (f : TypeExpr) : Parse TypeExpr := do
  return .app f (← atomicType (kind D) (type D))

/-- The reader of a phrase, in front of `r` and with the depth `D`, follows its derivation. -/
def Follows : {n : Nonterminal} → Derivation n → List Token → Nat → Prop
  | .kind, d, r, D => Reads (kind D) (d.tokens r) d.tree r (d.nesting ≤ D)
  | .katom, d, r, D => Reads (atomicKind (kind D)) (d.tokens r) d.tree r (d.nesting ≤ D)
  | .type, d, r, D => Reads (type D) (d.tokens r) d.tree r (d.nesting ≤ D)
  | .tapp, d, r, D =>
    Reads (atomicType (kind D) (type D) >>= spine startsAtomicType (typeArgument D))
      (d.tokens r) d.tree r (d.nesting ≤ D)
  | .targs, d, r, D => ∀ room left, (d.tokens r).length ≤ room.length →
    Reads (extend startsAtomicType (typeArgument D) room left) (d.tokens r) (d.tree left) r
      (d.nesting ≤ D)
  | .tatom, d, r, D =>
    Reads (atomicType (kind D) (type D)) (d.tokens r) d.tree r (d.nesting ≤ D)
  | .expr, d, r, D => Reads (expr D) (d.tokens r) d.tree r (d.nesting ≤ D)
  | .app, d, r, D =>
    Reads (atomicExpr (type D) (expr D) >>= spine startsArgument (argument (type D) (expr D)))
      (d.tokens r) d.tree r (d.nesting ≤ D)
  | .args, d, r, D => ∀ room left, (d.tokens r).length ≤ room.length →
    Reads (extend startsArgument (argument (type D) (expr D)) room left) (d.tokens r)
      (d.tree left) r (d.nesting ≤ D)
  | .atom, d, r, D =>
    Reads (atomicExpr (type D) (expr D)) (d.tokens r) d.tree r (d.nesting ≤ D)

/-- The phrase is read wherever it cannot go on. -/
def Accepts {n : Nonterminal} (d : Derivation n) : Prop :=
  ∀ r D, n.Stops r → d.Readable → Follows d r D

section Kinds

open Derivation
open Nonterminal.Stops (terminal)

theorem star_accepts {t} : Accepts (star t) := by
  intro r D _ _
  refine .step (a := t.1) rfl ?_
  rw [t.2]
  exact ⟨fun _ => rfl, fun h => absurd (Nat.zero_le D) h⟩

theorem kindName_accepts {x} : Accepts (kindName x) := by
  intro r D _ _
  refine .step (a := x.1) rfl ?_
  rw [x.2]
  exact ⟨fun _ => rfl, fun h => absurd (Nat.zero_le D) h⟩

theorem kindParens_accepts {left k right} (hk : Accepts k) : Accepts (kindParens left k right) := by
  intro r D _ hn
  refine .step (a := left.1) rfl ?_
  rw [left.2]
  refine .step rfl ?_
  exact .last (hk (right.1 :: r) D (terminal _ rfl) (k.readable rfl))
    (.step (expect_terminal right r) (.pure _ _))

theorem kindAtom_accepts {k} (hk : Accepts k) : Accepts (kindAtom k) := by
  intro r D hr hn
  refine .phrase rfl (fun D => ?_) D
  refine .last (hk r D rfl (k.readable rfl)) ?_
  exact .step (accept_other (of_decide_eq_false hr)) (.pure _ _)

theorem kindArrow_accepts {j arrow k} (hj : Accepts j) (hk : Accepts k) :
    Accepts (kindArrow j arrow k) := by
  intro r D hr hn
  refine .phrase rfl (fun D => ?_) D
  refine .congr (.bind (hj (arrow.1 :: k.tokens r) D rfl (j.readable rfl)) ?_) Nat.max_le.symm
  exact .step (accept_terminal arrow _) (.map (hk r D hr (k.readable rfl)) _)

end Kinds

section Types

open Derivation
open Nonterminal.Stops (terminal)

theorem spine_reads {starts : TokenKind → Bool} {step : α → Parse α} {left : α}
    (h : Reads (extend starts step ts left) ts a rest fits) :
    Reads (spine starts step left) ts a rest fits :=
  .step rfl h

/-- A spine ends at a token at which no argument begins. -/
theorem extend_stops {starts : TokenKind → Bool} (step : α → Parse α) (room : List Token)
    (left : α) (h : starts (front r).kind = false) :
    Reads (extend starts step room left) r left r True := by
  cases room with
  | nil => exact .pure _ _
  | cons t room =>
    refine .step rfl ?_
    rw [if_neg (Bool.eq_false_iff.1 h)]
    exact .pure _ _

/-- A spine goes on with an argument that takes a token, if there is room for the rest. -/
theorem extend_goes {starts : TokenKind → Bool} {step : α → Parse α} {room : List Token}
    {left m : α} (h : starts (front ts).kind) (hstep : Reads (step left) ts m r fits)
    (hroom : ts.length ≤ room.length) (hr : r.length < ts.length)
    (hrest : ∀ room, r.length ≤ room.length → Reads (extend starts step room m) r a rest fits') :
    Reads (extend starts step room left) ts a rest (fits ∧ fits') := by
  cases room with
  | nil => simp only [List.length_nil] at hroom; omega
  | cons t room =>
    refine .step rfl ?_
    rw [if_pos h]
    simp only [List.length_cons] at hroom
    exact .bind hstep (hrest room (by omega))

theorem int_accepts {t} : Accepts (int t) := by
  intro r D _ _
  refine .step (a := t.1) rfl ?_
  rw [t.2]
  exact ⟨fun _ => rfl, fun h => absurd (Nat.zero_le D) h⟩

theorem typeName_accepts {x} : Accepts (typeName x) := by
  intro r D _ _
  refine .step (a := x.1) rfl ?_
  rw [x.2]
  exact ⟨fun _ => rfl, fun h => absurd (Nat.zero_le D) h⟩

theorem typeParens_accepts {left t right} (ht : Accepts t) : Accepts (typeParens left t right) := by
  intro r D _ hn
  refine .step (a := left.1) rfl ?_
  rw [left.2]
  refine .step rfl ?_
  refine .last (ht (right.1 :: r) D (terminal _ rfl) (t.readable rfl)) ?_
  refine .step (accept_other ?_) ?_
  · show right.1.kind ≠ _
    rw [right.2]
    decide
  · exact .step rfl (.step (expect_terminal right r) (.pure _ _))

theorem typeKinded_accepts {left t colon k right} (ht : Accepts t) (hk : Accepts k) :
    Accepts (typeKinded left t colon k right) := by
  intro r D _ hn
  refine .step (a := left.1) rfl ?_
  rw [left.2]
  refine .step rfl ?_
  refine .congr (.bind (ht _ D (terminal colon rfl) (t.readable rfl)) ?_) Nat.max_le.symm
  refine .step (accept_terminal colon _) ?_
  refine .last (hk _ D (terminal right rfl) (k.readable rfl)) ?_
  exact .step rfl (.step (expect_terminal right r) (.pure _ _))

theorem targsNil_accepts : Accepts targsNil := by
  intro r D hr _ room left _
  exact .congr (extend_stops _ room left hr) (iff_of_true trivial (Nat.zero_le D))

/-- An atomic type has a token. -/
theorem length_lt_tatom (a : Derivation .tatom) (r : List Token) :
    r.length < (a.tokens r).length := by
  rw [a.tokens_eq, List.length_append]
  cases a <;> simp [tokens]

theorem targsCons_accepts {a as} (ha : Accepts a) (has : Accepts as) :
    Accepts (targsCons a as) := by
  intro r D hr hn room left hroom
  have hstep : Reads (typeArgument D left) (a.tokens (as.tokens r)) (.app left a.tree) _ _ :=
    .map (ha (as.tokens r) D rfl (a.readable rfl)) _
  refine .congr (extend_goes (a.startsAtomicType_tatom _) hstep hroom (length_lt_tatom a _) ?_)
    Nat.max_le.symm
  exact fun room hroom => has r D hr (as.readable rfl) room _ hroom

theorem tapp_accepts {f as} (hf : Accepts f) (has : Accepts as) : Accepts (tapp f as) := by
  intro r D hr hn
  refine .congr (.bind (hf (as.tokens r) D rfl (f.readable rfl)) (spine_reads ?_)) Nat.max_le.symm
  exact has r D hr (as.readable rfl) _ _ (Nat.le_refl _)

/-- A type with a binder in front. -/
theorem type_sign {b : Binder} (start : Terminal (sign b)) (D : Nat) (r : List Token) :
    type (D + 1) (start.1 :: r) = binderType b (kind D) (type D) (start.1 :: r) := by
  have hstart : (front (start.1 :: r)).kind = sign b := start.2
  rw [type, bind_of_ok _ (peek_ok _), hstart]
  cases b <;> rfl

/-- A type without a binder in front. -/
theorem type_tapp (h : startsAtomicType (front ts).kind) (D : Nat) :
    type (D + 1) ts = (do
      let left ← atomicType (kind D) (type D) >>= spine startsAtomicType (typeArgument D)
      if ← accept .arrow then return .arrow left (← type D)
      else return left : Parse TypeExpr) ts := by
  rw [bind_assoc, type, bind_of_ok _ (peek_ok _)]
  generalize (front ts).kind = k at h
  cases k <;> first | rfl | cases h

theorem typeBinder_accepts {b start x colon k dot t} (hk : Accepts k) (ht : Accepts t) :
    Accepts (typeBinder b start x colon k dot t) := by
  intro r D hr hn
  refine .phrase rfl (fun D => ?_) D
  refine .of_eq (type_sign start D _) ?_
  refine .step rfl (.step (expect_terminal x _) (.step (expect_terminal colon _) ?_))
  refine .congr (.bind (hk _ D (terminal dot rfl) (k.readable rfl)) ?_) Nat.max_le.symm
  exact .step (expect_terminal dot _) (.map (ht r D hr (t.readable rfl)) _)

theorem typeApp_accepts {t} (ht : Accepts t) : Accepts (typeApp t) := by
  intro r D hr hn
  refine .phrase rfl (fun D => ?_) D
  refine .of_eq (type_tapp (t.startsAtomicType_tapp r) D) ?_
  exact .last (ht r D hr.tapp (t.readable rfl)) (.step (accept_other hr.not_arrow) (.pure _ _))

theorem typeArrow_accepts {s arrow t} (hs : Accepts s) (ht : Accepts t) :
    Accepts (typeArrow s arrow t) := by
  intro r D hr hn
  refine .phrase rfl (fun D => ?_) D
  refine .of_eq (type_tapp (s.startsAtomicType_tapp _) D) ?_
  refine .congr (.bind (hs _ D (terminal arrow rfl) (s.readable rfl)) ?_) Nat.max_le.symm
  exact .step (accept_terminal arrow _) (.map (ht r D hr (t.readable rfl)) _)

end Types

section Expressions

open Derivation
open Nonterminal.Stops (terminal)

theorem numeral_accepts {n} : Accepts (numeral n) := by
  intro r D _ hn
  obtain ⟨m, hm⟩ := hn
  have hread : atomicExpr (type D) (expr D) (n.1 :: r) =
      .ok (.lit (Numeral.value n.1.text.toList) (some n.1.loc)) r := by
    have hkind : (front (n.1 :: r)).kind = .numeral := n.2
    have htext : Numeral.read (front (n.1 :: r)).text = .ok m := hm
    rw [atomicExpr, bind_of_ok _ (peek_ok _), Numeral.value_of_read hm]
    simp only [hkind, htext]
    rfl
  exact ⟨fun _ => hread, fun h => absurd (Nat.zero_le D) h⟩

theorem name_accepts {x} : Accepts (name x) := by
  intro r D _ _
  refine .step (a := x.1) rfl ?_
  rw [x.2]
  exact ⟨fun _ => rfl, fun h => absurd (Nat.zero_le D) h⟩

theorem parens_accepts {left e right} (he : Accepts e) : Accepts (parens left e right) := by
  intro r D _ hn
  refine .step (a := left.1) rfl ?_
  rw [left.2]
  refine .step rfl ?_
  refine .last (he (right.1 :: r) D (terminal _ rfl) hn) ?_
  refine .step (accept_other ?_) ?_
  · show right.1.kind ≠ _
    rw [right.2]
    decide
  · exact .step rfl (.step (expect_terminal right r) (.pure _ _))

theorem annotated_accepts {left e colon t right} (he : Accepts e) (ht : Accepts t) :
    Accepts (annotated left e colon t right) := by
  intro r D _ hn
  refine .step (a := left.1) rfl ?_
  rw [left.2]
  refine .step rfl ?_
  refine .congr (.bind (he _ D (terminal colon rfl) hn) ?_) Nat.max_le.symm
  refine .step (accept_terminal colon _) ?_
  refine .last (ht _ D (terminal right rfl) (t.readable rfl)) ?_
  exact .step rfl (.step (expect_terminal right r) (.pure _ _))

theorem argsNil_accepts : Accepts argsNil := by
  intro r D hr _ room left _
  exact .congr (extend_stops _ room left hr) (iff_of_true trivial (Nat.zero_le D))

/-- An atom has a token. -/
theorem length_lt_atom (a : Derivation .atom) (r : List Token) :
    r.length < (a.tokens r).length := by
  rw [a.tokens_eq, List.length_append]
  cases a <;> simp [tokens]

theorem argsExpr_accepts {a as} (ha : Accepts a) (has : Accepts as) : Accepts (argsExpr a as) := by
  intro r D hr hn room left hroom
  have hother : (front (a.tokens (as.tokens r))).kind ≠ .lbracket := by
    cases a with
    | numeral t | name t | parens t | annotated t =>
      show t.1.kind ≠ _
      rw [t.2]
      decide
  have hstep : Reads (argument (type D) (expr D) left) (a.tokens (as.tokens r))
      (.app left a.tree left.loc) _ _ :=
    .step (accept_other hother) (.map (ha (as.tokens r) D rfl hn.1) _)
  refine .congr (extend_goes (a.startsArgument_atom _) hstep hroom (length_lt_atom a _) ?_)
    Nat.max_le.symm
  exact fun room hroom => has r D hr hn.2 room _ hroom

theorem argsType_accepts {left t right as} (ht : Accepts t) (has : Accepts as) :
    Accepts (argsType left t right as) := by
  intro r D hr hn room f hroom
  have hstarts : startsArgument left.1.kind := by
    rw [left.2]
    rfl
  have hstep : Reads (argument (type D) (expr D) f) ((argsType left t right as).tokens r)
      (.tapp f t.tree f.loc) (as.tokens r) (t.nesting ≤ D) := by
    refine .step (accept_terminal left _) ?_
    refine .last (ht _ D (terminal right rfl) (t.readable rfl)) ?_
    exact .step (expect_terminal right _) (.pure _ _)
  have hlength : (as.tokens r).length < ((argsType left t right as).tokens r).length := by
    rw [tokens, t.tokens_eq]
    simp only [List.length_cons, List.length_append]
    omega
  refine .congr (extend_goes hstarts hstep hroom hlength ?_) Nat.max_le.symm
  exact fun room hroom => has r D hr hn room _ hroom

theorem app_accepts {f as} (hf : Accepts f) (has : Accepts as) : Accepts (app f as) := by
  intro r D hr hn
  refine .congr (.bind (hf (as.tokens r) D rfl hn.1) (spine_reads ?_)) Nat.max_le.symm
  exact has r D hr hn.2 _ _ (Nat.le_refl _)

/-- The first token tells which form an expression has. -/
theorem expr_succ (D : Nat) (ts : List Token) : expr (D + 1) ts =
    (match (front ts).kind with
    | .letWord => letBinding (type D) (expr D)
    | .typeWord => typeBinding (kind D) (type D) (expr D)
    | .kindWord => kindBinding (kind D) (expr D)
    | .lambda => abstraction (kind D) (type D) (expr D)
    | _ => atomicExpr (type D) (expr D) >>= spine startsArgument (argument (type D) (expr D))) ts :=
  rfl

theorem exprApp_accepts {e} (he : Accepts e) : Accepts (exprApp e) := by
  intro r D hr hn
  refine .phrase rfl (fun D => .of_eq ?_ (he r D hr hn)) D
  have h := e.startsArgument_app r
  rw [expr_succ]
  generalize (front (e.tokens r)).kind = k at h
  cases k <;> first | rfl | cases h

theorem letIn_accepts {start x colon t equals v within e} (ht : Accepts t) (hv : Accepts v)
    (he : Accepts e) : Accepts (letIn start x colon t equals v within e) := by
  intro r D hr hn
  refine .phrase rfl (fun D => .of_eq (q := letBinding (type D) (expr D)) ?_ ?_) D
  · rw [expr_succ, show (front ((letIn start x colon t equals v within e).tokens r)).kind = _
      from start.2]
  refine .step (expect_terminal start _) ?_
  refine .step (expect_terminal x _) (.step (expect_terminal colon _) ?_)
  refine .congr (.bind (ht _ D (terminal equals rfl) (t.readable rfl)) ?_) Nat.max_le.symm
  refine .step (expect_terminal equals _) ?_
  refine .congr (.bind (hv _ D (terminal within rfl) hn.1) ?_) Nat.max_le.symm
  exact .step (expect_terminal within _) (.map (he r D hr hn.2) _)

theorem typeIn_accepts {start x colon k equals v within e} (hk : Accepts k) (hv : Accepts v)
    (he : Accepts e) : Accepts (typeIn start x colon k equals v within e) := by
  intro r D hr hn
  refine .phrase rfl (fun D => .of_eq (q := typeBinding (kind D) (type D) (expr D)) ?_ ?_) D
  · rw [expr_succ, show (front ((typeIn start x colon k equals v within e).tokens r)).kind = _
      from start.2]
  refine .step (expect_terminal start _) ?_
  refine .step (expect_terminal x _) (.step (expect_terminal colon _) ?_)
  refine .congr (.bind (hk _ D (terminal equals rfl) (k.readable rfl)) ?_) Nat.max_le.symm
  refine .step (expect_terminal equals _) ?_
  refine .congr (.bind (hv _ D (terminal within rfl) (v.readable rfl)) ?_) Nat.max_le.symm
  exact .step (expect_terminal within _) (.map (he r D hr hn) _)

theorem kindIn_accepts {start x equals v within e} (hv : Accepts v) (he : Accepts e) :
    Accepts (kindIn start x equals v within e) := by
  intro r D hr hn
  refine .phrase rfl (fun D => .of_eq (q := kindBinding (kind D) (expr D)) ?_ ?_) D
  · rw [expr_succ, show (front ((kindIn start x equals v within e).tokens r)).kind = _ from start.2]
  refine .step (expect_terminal start _) ?_
  refine .step (expect_terminal x _) (.step (expect_terminal equals _) ?_)
  refine .congr (.bind (hv _ D (terminal within rfl) (v.readable rfl)) ?_) Nat.max_le.symm
  exact .step (expect_terminal within _) (.map (he r D hr hn) _)

theorem lam_accepts {start x colon t dot e} (ht : Accepts t) (he : Accepts e) :
    Accepts (lam start x colon t dot e) := by
  intro r D hr hn
  refine .phrase rfl (fun D => .of_eq (q := abstraction (kind D) (type D) (expr D)) ?_ ?_) D
  · rw [expr_succ, show (front ((lam start x colon t dot e).tokens r)).kind = _ from start.2]
  refine .step (expect_terminal start _) (.step (a := x.1) rfl ?_)
  have hlower : x.1.kind ≠ .upperName := by
    rw [x.2]
    decide
  rw [if_neg hlower]
  refine .step (expect_terminal x _) (.step (expect_terminal colon _) ?_)
  refine .congr (.bind (ht _ D (terminal dot rfl) (t.readable rfl)) ?_) Nat.max_le.symm
  exact .step (expect_terminal dot _) (.map (he r D hr hn) _)

theorem tlam_accepts {start x colon k dot e} (hk : Accepts k) (he : Accepts e) :
    Accepts (tlam start x colon k dot e) := by
  intro r D hr hn
  refine .phrase rfl (fun D => .of_eq (q := abstraction (kind D) (type D) (expr D)) ?_ ?_) D
  · rw [expr_succ, show (front ((tlam start x colon k dot e).tokens r)).kind = _ from start.2]
  refine .step (expect_terminal start _) (.step (a := x.1) rfl ?_)
  rw [if_pos x.2]
  refine .step rfl (.step (expect_terminal colon _) ?_)
  refine .congr (.bind (hk _ D (terminal dot rfl) (k.readable rfl)) ?_) Nat.max_le.symm
  exact .step (expect_terminal dot _) (.map (he r D hr hn) _)

end Expressions

/-- What the grammar derives is read. -/
theorem accepts {n : Nonterminal} (d : Derivation n) : Accepts d := by
  induction d with
  | letIn _ _ _ _ _ _ _ _ ht hv he => exact letIn_accepts ht hv he
  | typeIn _ _ _ _ _ _ _ _ hk hv he => exact typeIn_accepts hk hv he
  | kindIn _ _ _ _ _ _ hv he => exact kindIn_accepts hv he
  | lam _ _ _ _ _ _ ht he => exact lam_accepts ht he
  | tlam _ _ _ _ _ _ hk he => exact tlam_accepts hk he
  | exprApp _ he => exact exprApp_accepts he
  | app _ _ hf has => exact app_accepts hf has
  | argsNil => exact argsNil_accepts
  | argsExpr _ _ ha has => exact argsExpr_accepts ha has
  | argsType _ _ _ _ ht has => exact argsType_accepts ht has
  | numeral => exact numeral_accepts
  | name => exact name_accepts
  | parens _ _ _ he => exact parens_accepts he
  | annotated _ _ _ _ _ he ht => exact annotated_accepts he ht
  | typeBinder _ _ _ _ _ _ _ hk ht => exact typeBinder_accepts hk ht
  | typeApp _ ht => exact typeApp_accepts ht
  | typeArrow _ _ _ hs ht => exact typeArrow_accepts hs ht
  | tapp _ _ hf has => exact tapp_accepts hf has
  | targsNil => exact targsNil_accepts
  | targsCons _ _ ha has => exact targsCons_accepts ha has
  | int => exact int_accepts
  | typeName => exact typeName_accepts
  | typeParens _ _ _ ht => exact typeParens_accepts ht
  | typeKinded _ _ _ _ _ ht hk => exact typeKinded_accepts ht hk
  | kindAtom _ hk => exact kindAtom_accepts hk
  | kindArrow _ _ _ hj hk => exact kindArrow_accepts hj hk
  | star => exact star_accepts
  | kindName => exact kindName_accepts
  | kindParens _ _ _ hk => exact kindParens_accepts hk

end Parser

end SystemFOmega
