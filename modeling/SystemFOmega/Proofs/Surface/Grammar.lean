import SystemFOmega.Surface.Parser

/-!
# The grammar of the surface language

```
expr  ::= let x : type = expr in expr | type X : kind = type in expr | kind X = kind in expr
        | λ x : type . expr | λ X : kind . expr | app
app   ::= atom {atom | [type]}              atom  ::= n | x | (expr [: type])
type  ::= ∀ X : kind . type | λ X : kind . type | tapp [-> type]
tapp  ::= tatom {tatom}                     tatom ::= Int | X | (type [: kind])
kind  ::= katom [-> kind]                   katom ::= * | X | (kind)
```

A derivation is a tree with one constructor for each production (`Derivation`). It has tokens at its
leaves (`Derivation.tokens`), and it denotes a phrase (`Derivation.tree`). No phrase can be read in
two ways: derivations with the same tokens are equal, as long as what follows them could not have
been a part of them (`Derivation.unique`).
-/

namespace SystemFOmega.Grammar

open SystemFOmega.Parser (front startsArgument startsAtomicType)

/-- The nonterminals; `args` and `targs` are the groups that repeat. -/
inductive Nonterminal where
  | expr | app | args | atom
  | type | tapp | targs | tatom
  | kind | katom

/-- A token of the class `k`. -/
@[ext]
structure Terminal (k : TokenKind) where
  token : Token
  kind_eq : token.kind = k

/-- The class of the token that a binder of types starts with. -/
def sign : Binder → TokenKind
  | .all => .forAll
  | .lam => .lambda

/-- Derivations from a nonterminal of the grammar, with the tokens that they stand over. -/
inductive Derivation : Nonterminal → Type
  | letIn (start : Terminal .letWord) (x : Terminal .lowerName) (colon : Terminal .colon)
    (t : Derivation .type) (equals : Terminal .equals) (v : Derivation .expr)
    (within : Terminal .inWord) (e : Derivation .expr) : Derivation .expr
  | typeIn (start : Terminal .typeWord) (x : Terminal .upperName) (colon : Terminal .colon)
    (k : Derivation .kind) (equals : Terminal .equals) (v : Derivation .type)
    (within : Terminal .inWord) (e : Derivation .expr) : Derivation .expr
  | kindIn (start : Terminal .kindWord) (x : Terminal .upperName) (equals : Terminal .equals)
    (v : Derivation .kind) (within : Terminal .inWord) (e : Derivation .expr) : Derivation .expr
  | lam (start : Terminal .lambda) (x : Terminal .lowerName) (colon : Terminal .colon)
    (t : Derivation .type) (dot : Terminal .dot) (e : Derivation .expr) : Derivation .expr
  | tlam (start : Terminal .lambda) (x : Terminal .upperName) (colon : Terminal .colon)
    (k : Derivation .kind) (dot : Terminal .dot) (e : Derivation .expr) : Derivation .expr
  | exprApp (e : Derivation .app) : Derivation .expr
  | app (f : Derivation .atom) (as : Derivation .args) : Derivation .app
  | argsNil : Derivation .args
  | argsExpr (a : Derivation .atom) (as : Derivation .args) : Derivation .args
  | argsType (left : Terminal .lbracket) (t : Derivation .type) (right : Terminal .rbracket)
    (as : Derivation .args) : Derivation .args
  | numeral (n : Terminal .numeral) : Derivation .atom
  | name (x : Terminal .lowerName) : Derivation .atom
  | parens (left : Terminal .lparen) (e : Derivation .expr) (right : Terminal .rparen) :
    Derivation .atom
  | annotated (left : Terminal .lparen) (e : Derivation .expr) (colon : Terminal .colon)
    (t : Derivation .type) (right : Terminal .rparen) : Derivation .atom
  | typeBinder (b : Binder) (start : Terminal (sign b)) (x : Terminal .upperName)
    (colon : Terminal .colon) (k : Derivation .kind) (dot : Terminal .dot) (t : Derivation .type) :
    Derivation .type
  | typeApp (t : Derivation .tapp) : Derivation .type
  | typeArrow (s : Derivation .tapp) (arrow : Terminal .arrow) (t : Derivation .type) :
    Derivation .type
  | tapp (f : Derivation .tatom) (as : Derivation .targs) : Derivation .tapp
  | targsNil : Derivation .targs
  | targsCons (a : Derivation .tatom) (as : Derivation .targs) : Derivation .targs
  | int (t : Terminal .intType) : Derivation .tatom
  | typeName (x : Terminal .upperName) : Derivation .tatom
  | typeParens (left : Terminal .lparen) (t : Derivation .type) (right : Terminal .rparen) :
    Derivation .tatom
  | typeKinded (left : Terminal .lparen) (t : Derivation .type) (colon : Terminal .colon)
    (k : Derivation .kind) (right : Terminal .rparen) : Derivation .tatom
  | kindAtom (k : Derivation .katom) : Derivation .kind
  | kindArrow (j : Derivation .katom) (arrow : Terminal .arrow) (k : Derivation .kind) :
    Derivation .kind
  | star (t : Terminal .star) : Derivation .katom
  | kindName (x : Terminal .upperName) : Derivation .katom
  | kindParens (left : Terminal .lparen) (k : Derivation .kind) (right : Terminal .rparen) :
    Derivation .katom

/-- What the phrases of a nonterminal denote; arguments extend the application before them. -/
abbrev Nonterminal.Meaning : Nonterminal → Type
  | .expr | .app | .atom => Expr
  | .args => Expr → Expr
  | .type | .tapp | .tatom => TypeExpr
  | .targs => TypeExpr → TypeExpr
  | .kind | .katom => KindExpr

namespace Derivation

variable {n : Nonterminal}

/-- The tokens of a phrase, and then `rest`. -/
def tokens : {n : Nonterminal} → Derivation n → List Token → List Token
  | _, letIn start x colon t equals v within e, rest =>
    start.1 :: x.1 :: colon.1 :: t.tokens (equals.1 :: v.tokens (within.1 :: e.tokens rest))
  | _, typeIn start x colon k equals v within e, rest =>
    start.1 :: x.1 :: colon.1 :: k.tokens (equals.1 :: v.tokens (within.1 :: e.tokens rest))
  | _, kindIn start x equals v within e, rest =>
    start.1 :: x.1 :: equals.1 :: v.tokens (within.1 :: e.tokens rest)
  | _, lam start x colon t dot e, rest =>
    start.1 :: x.1 :: colon.1 :: t.tokens (dot.1 :: e.tokens rest)
  | _, tlam start x colon k dot e, rest =>
    start.1 :: x.1 :: colon.1 :: k.tokens (dot.1 :: e.tokens rest)
  | _, exprApp e, rest => e.tokens rest
  | _, app f as, rest => f.tokens (as.tokens rest)
  | _, argsNil, rest => rest
  | _, argsExpr a as, rest => a.tokens (as.tokens rest)
  | _, argsType left t right as, rest => left.1 :: t.tokens (right.1 :: as.tokens rest)
  | _, numeral n, rest => n.1 :: rest
  | _, name x, rest => x.1 :: rest
  | _, parens left e right, rest => left.1 :: e.tokens (right.1 :: rest)
  | _, annotated left e colon t right, rest =>
    left.1 :: e.tokens (colon.1 :: t.tokens (right.1 :: rest))
  | _, typeBinder _ start x colon k dot t, rest =>
    start.1 :: x.1 :: colon.1 :: k.tokens (dot.1 :: t.tokens rest)
  | _, typeApp t, rest => t.tokens rest
  | _, typeArrow s arrow t, rest => s.tokens (arrow.1 :: t.tokens rest)
  | _, tapp f as, rest => f.tokens (as.tokens rest)
  | _, targsNil, rest => rest
  | _, targsCons a as, rest => a.tokens (as.tokens rest)
  | _, int t, rest => t.1 :: rest
  | _, typeName x, rest => x.1 :: rest
  | _, typeParens left t right, rest => left.1 :: t.tokens (right.1 :: rest)
  | _, typeKinded left t colon k right, rest =>
    left.1 :: t.tokens (colon.1 :: k.tokens (right.1 :: rest))
  | _, kindAtom k, rest => k.tokens rest
  | _, kindArrow j arrow k, rest => j.tokens (arrow.1 :: k.tokens rest)
  | _, star t, rest => t.1 :: rest
  | _, kindName x, rest => x.1 :: rest
  | _, kindParens left k right, rest => left.1 :: k.tokens (right.1 :: rest)

/-- The phrase that a derivation denotes. Arrows associate to the right and applications to the
left; the value of a `let` is annotated with its type, and the value of a `type` with its kind. -/
def tree : {n : Nonterminal} → Derivation n → n.Meaning
  | _, letIn start x _ t _ v _ e =>
    Expr.letIn x.1.ident (.ann v.tree t.tree (Expr.loc v.tree)) e.tree (some start.1.loc)
  | _, typeIn start x _ k _ v _ e =>
    Expr.typeIn x.1.ident (.kinded v.tree k.tree) e.tree (some start.1.loc)
  | _, kindIn start x _ v _ e => Expr.kindIn x.1.ident v.tree e.tree (some start.1.loc)
  | _, lam start x _ t _ e => Expr.lam x.1.ident t.tree e.tree (some start.1.loc)
  | _, tlam start x _ k _ e => Expr.tlam x.1.ident k.tree e.tree (some start.1.loc)
  | _, exprApp e => e.tree
  | _, app f as => as.tree f.tree
  | _, argsNil => id
  | _, argsExpr a as => fun f => as.tree (Expr.app f a.tree f.loc)
  | _, argsType _ t _ as => fun f => as.tree (Expr.tapp f t.tree f.loc)
  | _, numeral n => Expr.lit (Numeral.value n.1.text.toList) (some n.1.loc)
  | _, name x => Expr.var x.1.ident (some x.1.loc)
  | _, parens _ e _ => e.tree
  | _, annotated left e _ t _ => Expr.ann e.tree t.tree (some left.1.loc)
  | _, typeBinder b _ x _ k _ t => TypeExpr.bind b x.1.ident k.tree t.tree
  | _, typeApp t => t.tree
  | _, typeArrow s _ t => TypeExpr.arrow s.tree t.tree
  | _, tapp f as => as.tree f.tree
  | _, targsNil => id
  | _, targsCons a as => fun f => as.tree (TypeExpr.app f a.tree)
  | _, int _ => TypeExpr.int
  | _, typeName x => TypeExpr.var x.1.ident
  | _, typeParens _ t _ => t.tree
  | _, typeKinded _ t _ k _ => TypeExpr.kinded t.tree k.tree
  | _, kindAtom k => k.tree
  | _, kindArrow j _ k => KindExpr.arrow j.tree k.tree
  | _, star _ => KindExpr.star
  | _, kindName x => KindExpr.var x.1.ident
  | _, kindParens _ k _ => k.tree

/-- How deep expressions, types and kinds are nested in a phrase. -/
def nesting : {n : Nonterminal} → Derivation n → Nat
  | _, letIn _ _ _ t _ v _ e => max t.nesting (max v.nesting e.nesting) + 1
  | _, typeIn _ _ _ k _ v _ e => max k.nesting (max v.nesting e.nesting) + 1
  | _, kindIn _ _ _ v _ e => max v.nesting e.nesting + 1
  | _, lam _ _ _ t _ e => max t.nesting e.nesting + 1
  | _, tlam _ _ _ k _ e => max k.nesting e.nesting + 1
  | _, exprApp e => e.nesting + 1
  | _, app f as => max f.nesting as.nesting
  | _, argsNil => 0
  | _, argsExpr a as => max a.nesting as.nesting
  | _, argsType _ t _ as => max t.nesting as.nesting
  | _, numeral _ => 0
  | _, name _ => 0
  | _, parens _ e _ => e.nesting
  | _, annotated _ e _ t _ => max e.nesting t.nesting
  | _, typeBinder _ _ _ _ k _ t => max k.nesting t.nesting + 1
  | _, typeApp t => t.nesting + 1
  | _, typeArrow s _ t => max s.nesting t.nesting + 1
  | _, tapp f as => max f.nesting as.nesting
  | _, targsNil => 0
  | _, targsCons a as => max a.nesting as.nesting
  | _, int _ => 0
  | _, typeName _ => 0
  | _, typeParens _ t _ => t.nesting
  | _, typeKinded _ t _ k _ => max t.nesting k.nesting
  | _, kindAtom k => k.nesting + 1
  | _, kindArrow j _ k => max j.nesting k.nesting + 1
  | _, star _ => 0
  | _, kindName _ => 0
  | _, kindParens _ k _ => k.nesting

end Derivation

/-! ## Tokens -/

theorem sign_inj {b b' : Binder} (h : sign b = sign b') : b = b' := by
  cases b <;> cases b' <;> first | rfl | cases h

theorem sign_ne_eof (b : Binder) : sign b ≠ .eof := by cases b <;> decide

namespace Derivation

variable {n : Nonterminal}

/-- What stands behind a phrase has no part in its tokens. -/
theorem tokens_append (d : Derivation n) (r r' : List Token) :
    d.tokens (r ++ r') = d.tokens r ++ r' := by
  induction d generalizing r <;> simp only [tokens, ← List.cons_append, *]

theorem tokens_eq (d : Derivation n) (r : List Token) : d.tokens r = d.tokens [] ++ r :=
  d.tokens_append [] r

/-- No phrase has the token that closes a text. -/
theorem tokens_ne_eof (d : Derivation n) (r : List Token) :
    (∀ t ∈ d.tokens r, t.kind ≠ .eof) ↔ ∀ t ∈ r, t.kind ≠ .eof := by
  induction d generalizing r <;> simp only [tokens, List.forall_mem_cons, Terminal.kind_eq,
    sign_ne_eof, ne_eq, reduceCtorEq, not_false_eq_true, true_and, *]

/-- An atom begins with a token at which an argument may begin. -/
theorem startsArgument_atom (a : Derivation .atom) (r : List Token) :
    startsArgument (front (a.tokens r)).kind := by
  cases a with
  | numeral t | name t | parens t | annotated t =>
    show startsArgument t.1.kind
    rw [t.2]
    rfl

theorem startsArgument_app (e : Derivation .app) (r : List Token) :
    startsArgument (front (e.tokens r)).kind := by
  cases e with
  | app f as => exact f.startsArgument_atom _

/-- An atomic type begins with a token at which one may begin. -/
theorem startsAtomicType_tatom (a : Derivation .tatom) (r : List Token) :
    startsAtomicType (front (a.tokens r)).kind := by
  cases a with
  | int t | typeName t | typeParens t | typeKinded t =>
    show startsAtomicType t.1.kind
    rw [t.2]
    rfl

theorem startsAtomicType_tapp (t : Derivation .tapp) (r : List Token) :
    startsAtomicType (front (t.tokens r)).kind := by
  cases t with
  | tapp f as => exact f.startsAtomicType_tatom _

end Derivation

/-! ## One derivation for each phrase -/

/-- The classes of tokens that would go on with a phrase. -/
def Nonterminal.continues : Nonterminal → TokenKind → Bool
  | .expr, k | .app, k | .args, k => startsArgument k
  | .type, k => startsAtomicType k || k = .arrow
  | .tapp, k | .targs, k => startsAtomicType k
  | .kind, k => k = .arrow
  | .atom, _ | .tatom, _ | .katom, _ => false

/-- The phrase cannot go on with `rest`. -/
def Nonterminal.Stops (n : Nonterminal) (rest : List Token) : Prop :=
  n.continues (front rest).kind = false

/-- A phrase ends in front of a token of a class with which it cannot go on. -/
theorem Nonterminal.Stops.terminal {n : Nonterminal} {k : TokenKind} (t : Terminal k)
    {r : List Token} (h : n.continues k = false) : n.Stops (t.1 :: r) := by
  show n.continues t.1.kind = false
  rw [t.2, h]

/-- A type that stops is an application that stops. -/
theorem Nonterminal.Stops.tapp {r : List Token} (h : Nonterminal.type.Stops r) :
    Nonterminal.tapp.Stops r := by
  have h' := Bool.or_eq_false_iff.1 h
  exact h'.1

theorem Nonterminal.Stops.not_arrow {r : List Token} (h : Nonterminal.type.Stops r) :
    (front r).kind ≠ .arrow := by
  have h' := Bool.or_eq_false_iff.1 h
  exact of_decide_eq_false h'.2

section

variable {k k' : TokenKind} {r r' : List Token}

/-- Two texts that begin with terminals of one class are equal part by part. -/
theorem Terminal.cons_inj {t t' : Terminal k} (h : t.1 :: r = t'.1 :: r') : t = t' ∧ r = r' :=
  ⟨Terminal.ext (List.cons.inj h).1, (List.cons.inj h).2⟩

/-- A text begins with a terminal of one class only. -/
theorem Terminal.kind_inj {t : Terminal k} {t' : Terminal k'} (h : t.1 :: r = t'.1 :: r') :
    k = k' := by
  rw [← t.2, ← t'.2, (List.cons.inj h).1]

/-- No application begins with a token at which no argument may begin. -/
theorem Terminal.ne_app {t : Terminal k} (e : Derivation .app) (hk : startsArgument k = false) :
    t.1 :: r ≠ e.tokens r' := by
  intro h
  have hs := e.startsArgument_app r'
  rw [← h, show (front (t.1 :: r)).kind = k from t.2, hk] at hs
  cases hs

/-- No application of types begins with a token at which no atomic type may begin. -/
theorem Terminal.ne_tapp {t : Terminal k} (u : Derivation .tapp)
    (hk : startsAtomicType k = false) : t.1 :: r ≠ u.tokens r' := by
  intro h
  have hs := u.startsAtomicType_tapp r'
  rw [← h, show (front (t.1 :: r)).kind = k from t.2, hk] at hs
  cases hs

end

namespace Derivation

open Nonterminal.Stops (terminal)
open Terminal (cons_inj kind_inj ne_app ne_tapp)

/-- The phrase is all that can be read in front of a rest with which it cannot go on. -/
def Cuts {n : Nonterminal} (d : Derivation n) : Prop :=
  ∀ (d' : Derivation n) {r r' : List Token}, d.tokens r = d'.tokens r' →
    n.Stops r → n.Stops r' → d = d' ∧ r = r'

theorem letIn_cuts {start x colon t equals v within e} (ht : Cuts t) (hv : Cuts v) (he : Cuts e) :
    Cuts (letIn start x colon t equals v within e) := by
  intro d' r r' h hr hr'
  cases d' with
  | letIn _ _ _ t' _ v' _ e' =>
    obtain ⟨rfl, h₁⟩ := cons_inj h
    obtain ⟨rfl, h₂⟩ := cons_inj h₁
    obtain ⟨rfl, h₃⟩ := cons_inj h₂
    obtain ⟨rfl, h₄⟩ := ht t' h₃ (terminal _ rfl) (terminal _ rfl)
    obtain ⟨rfl, h₅⟩ := cons_inj h₄
    obtain ⟨rfl, h₆⟩ := hv v' h₅ (terminal _ rfl) (terminal _ rfl)
    obtain ⟨rfl, h₇⟩ := cons_inj h₆
    obtain ⟨rfl, rfl⟩ := he e' h₇ hr hr'
    exact ⟨rfl, rfl⟩
  | exprApp e' => exact absurd h (ne_app e' rfl)
  | _ => exact nomatch kind_inj h

theorem typeIn_cuts {start x colon k equals v within e} (hk : Cuts k) (hv : Cuts v)
    (he : Cuts e) : Cuts (typeIn start x colon k equals v within e) := by
  intro d' r r' h hr hr'
  cases d' with
  | typeIn _ _ _ k' _ v' _ e' =>
    obtain ⟨rfl, h₁⟩ := cons_inj h
    obtain ⟨rfl, h₂⟩ := cons_inj h₁
    obtain ⟨rfl, h₃⟩ := cons_inj h₂
    obtain ⟨rfl, h₄⟩ := hk k' h₃ (terminal _ rfl) (terminal _ rfl)
    obtain ⟨rfl, h₅⟩ := cons_inj h₄
    obtain ⟨rfl, h₆⟩ := hv v' h₅ (terminal _ rfl) (terminal _ rfl)
    obtain ⟨rfl, h₇⟩ := cons_inj h₆
    obtain ⟨rfl, rfl⟩ := he e' h₇ hr hr'
    exact ⟨rfl, rfl⟩
  | exprApp e' => exact absurd h (ne_app e' rfl)
  | _ => exact nomatch kind_inj h

theorem kindIn_cuts {start x equals v within e} (hv : Cuts v) (he : Cuts e) :
    Cuts (kindIn start x equals v within e) := by
  intro d' r r' h hr hr'
  cases d' with
  | kindIn _ _ _ v' _ e' =>
    obtain ⟨rfl, h₁⟩ := cons_inj h
    obtain ⟨rfl, h₂⟩ := cons_inj h₁
    obtain ⟨rfl, h₃⟩ := cons_inj h₂
    obtain ⟨rfl, h₄⟩ := hv v' h₃ (terminal _ rfl) (terminal _ rfl)
    obtain ⟨rfl, h₅⟩ := cons_inj h₄
    obtain ⟨rfl, rfl⟩ := he e' h₅ hr hr'
    exact ⟨rfl, rfl⟩
  | exprApp e' => exact absurd h (ne_app e' rfl)
  | _ => exact nomatch kind_inj h

theorem lam_cuts {start x colon t dot e} (ht : Cuts t) (he : Cuts e) :
    Cuts (lam start x colon t dot e) := by
  intro d' r r' h hr hr'
  cases d' with
  | lam _ _ _ t' _ e' =>
    obtain ⟨rfl, h₁⟩ := cons_inj h
    obtain ⟨rfl, h₂⟩ := cons_inj h₁
    obtain ⟨rfl, h₃⟩ := cons_inj h₂
    obtain ⟨rfl, h₄⟩ := ht t' h₃ (terminal _ rfl) (terminal _ rfl)
    obtain ⟨rfl, h₅⟩ := cons_inj h₄
    obtain ⟨rfl, rfl⟩ := he e' h₅ hr hr'
    exact ⟨rfl, rfl⟩
  | tlam => exact nomatch kind_inj (cons_inj h).2
  | exprApp e' => exact absurd h (ne_app e' rfl)
  | _ => exact nomatch kind_inj h

theorem tlam_cuts {start x colon k dot e} (hk : Cuts k) (he : Cuts e) :
    Cuts (tlam start x colon k dot e) := by
  intro d' r r' h hr hr'
  cases d' with
  | tlam _ _ _ k' _ e' =>
    obtain ⟨rfl, h₁⟩ := cons_inj h
    obtain ⟨rfl, h₂⟩ := cons_inj h₁
    obtain ⟨rfl, h₃⟩ := cons_inj h₂
    obtain ⟨rfl, h₄⟩ := hk k' h₃ (terminal _ rfl) (terminal _ rfl)
    obtain ⟨rfl, h₅⟩ := cons_inj h₄
    obtain ⟨rfl, rfl⟩ := he e' h₅ hr hr'
    exact ⟨rfl, rfl⟩
  | lam => exact nomatch kind_inj (cons_inj h).2
  | exprApp e' => exact absurd h (ne_app e' rfl)
  | _ => exact nomatch kind_inj h

theorem exprApp_cuts {e} (he : Cuts e) : Cuts (exprApp e) := by
  intro d' r r' h hr hr'
  cases d' with
  | exprApp e' =>
    obtain ⟨rfl, rfl⟩ := he e' h hr hr'
    exact ⟨rfl, rfl⟩
  | _ => exact absurd h.symm (ne_app e rfl)

theorem app_cuts {f as} (hf : Cuts f) (has : Cuts as) : Cuts (app f as) := by
  intro d' r r' h hr hr'
  cases d' with
  | app f' as' =>
    obtain ⟨rfl, h₁⟩ := hf f' h rfl rfl
    obtain ⟨rfl, rfl⟩ := has as' h₁ hr hr'
    exact ⟨rfl, rfl⟩

/-- No argument starts where arguments end. -/
theorem argsNil_cuts : Cuts argsNil := by
  intro d' r r' h hr hr'
  obtain rfl : r = d'.tokens r' := h
  cases d' with
  | argsNil => exact ⟨rfl, rfl⟩
  | argsExpr a as => exact absurd (a.startsArgument_atom (as.tokens r')) (Bool.eq_false_iff.1 hr)
  | argsType left t right as =>
    have hs : startsArgument left.1.kind = false := hr
    rw [left.2] at hs
    cases hs

theorem argsExpr_cuts {a as} (ha : Cuts a) (has : Cuts as) : Cuts (argsExpr a as) := by
  intro d' r r' h hr hr'
  cases d' with
  | argsNil =>
    obtain ⟨h, -⟩ := argsNil_cuts _ h.symm hr' hr
    cases h
  | argsExpr a' as' =>
    obtain ⟨rfl, h₁⟩ := ha a' h rfl rfl
    obtain ⟨rfl, rfl⟩ := has as' h₁ hr hr'
    exact ⟨rfl, rfl⟩
  | argsType => cases a <;> exact nomatch kind_inj h

theorem argsType_cuts {left t right as} (ht : Cuts t) (has : Cuts as) :
    Cuts (argsType left t right as) := by
  intro d' r r' h hr hr'
  cases d' with
  | argsNil =>
    obtain ⟨h, -⟩ := argsNil_cuts _ h.symm hr' hr
    cases h
  | argsExpr a' => cases a' <;> exact nomatch kind_inj h
  | argsType _ t' _ as' =>
    obtain ⟨rfl, h₁⟩ := cons_inj h
    obtain ⟨rfl, h₂⟩ := ht t' h₁ (terminal _ rfl) (terminal _ rfl)
    obtain ⟨rfl, h₃⟩ := cons_inj h₂
    obtain ⟨rfl, rfl⟩ := has as' h₃ hr hr'
    exact ⟨rfl, rfl⟩

theorem parens_cuts {left e right} (he : Cuts e) : Cuts (parens left e right) := by
  intro d' r r' h hr hr'
  cases d' with
  | parens _ e' _ =>
    obtain ⟨rfl, h₁⟩ := cons_inj h
    obtain ⟨rfl, h₂⟩ := he e' h₁ (terminal _ rfl) (terminal _ rfl)
    obtain ⟨rfl, rfl⟩ := cons_inj h₂
    exact ⟨rfl, rfl⟩
  | annotated _ e' =>
    obtain ⟨-, h₂⟩ := he e' (cons_inj h).2 (terminal _ rfl) (terminal _ rfl)
    exact nomatch kind_inj h₂
  | _ => exact nomatch kind_inj h

theorem annotated_cuts {left e colon t right} (he : Cuts e) (ht : Cuts t) :
    Cuts (annotated left e colon t right) := by
  intro d' r r' h hr hr'
  cases d' with
  | annotated _ e' _ t' _ =>
    obtain ⟨rfl, h₁⟩ := cons_inj h
    obtain ⟨rfl, h₂⟩ := he e' h₁ (terminal _ rfl) (terminal _ rfl)
    obtain ⟨rfl, h₃⟩ := cons_inj h₂
    obtain ⟨rfl, h₄⟩ := ht t' h₃ (terminal _ rfl) (terminal _ rfl)
    obtain ⟨rfl, rfl⟩ := cons_inj h₄
    exact ⟨rfl, rfl⟩
  | parens _ e' =>
    obtain ⟨-, h₂⟩ := he e' (cons_inj h).2 (terminal _ rfl) (terminal _ rfl)
    exact nomatch kind_inj h₂
  | _ => exact nomatch kind_inj h

theorem typeBinder_cuts {b start x colon k dot t} (hk : Cuts k) (ht : Cuts t) :
    Cuts (typeBinder b start x colon k dot t) := by
  intro d' r r' h hr hr'
  have hsign : startsAtomicType (sign b) = false := by cases b <;> rfl
  cases d' with
  | typeBinder b' _ _ _ k' _ t' =>
    obtain rfl : b = b' := sign_inj (kind_inj h)
    obtain ⟨rfl, h₁⟩ := cons_inj h
    obtain ⟨rfl, h₂⟩ := cons_inj h₁
    obtain ⟨rfl, h₃⟩ := cons_inj h₂
    obtain ⟨rfl, h₄⟩ := hk k' h₃ (terminal _ rfl) (terminal _ rfl)
    obtain ⟨rfl, h₅⟩ := cons_inj h₄
    obtain ⟨rfl, rfl⟩ := ht t' h₅ hr hr'
    exact ⟨rfl, rfl⟩
  | typeApp t' | typeArrow t' => exact absurd h (ne_tapp t' hsign)

theorem typeApp_cuts {t} (ht : Cuts t) : Cuts (typeApp t) := by
  intro d' r r' h hr hr'
  cases d' with
  | typeBinder b => exact absurd h.symm (ne_tapp t (by cases b <;> rfl))
  | typeApp t' =>
    obtain ⟨rfl, rfl⟩ := ht t' h hr.tapp hr'.tapp
    exact ⟨rfl, rfl⟩
  | typeArrow s' arrow =>
    obtain ⟨-, rfl⟩ := ht s' h hr.tapp (terminal _ rfl)
    exact absurd arrow.2 hr.not_arrow

theorem typeArrow_cuts {s arrow t} (hs : Cuts s) (ht : Cuts t) : Cuts (typeArrow s arrow t) := by
  intro d' r r' h hr hr'
  cases d' with
  | typeBinder b => exact absurd h.symm (ne_tapp s (by cases b <;> rfl))
  | typeApp t' =>
    obtain ⟨-, rfl⟩ := hs t' h (terminal _ rfl) hr'.tapp
    exact absurd arrow.2 hr'.not_arrow
  | typeArrow s' _ t' =>
    obtain ⟨rfl, h₁⟩ := hs s' h (terminal _ rfl) (terminal _ rfl)
    obtain ⟨rfl, h₂⟩ := cons_inj h₁
    obtain ⟨rfl, rfl⟩ := ht t' h₂ hr hr'
    exact ⟨rfl, rfl⟩

theorem tapp_cuts {f as} (hf : Cuts f) (has : Cuts as) : Cuts (tapp f as) := by
  intro d' r r' h hr hr'
  cases d' with
  | tapp f' as' =>
    obtain ⟨rfl, h₁⟩ := hf f' h rfl rfl
    obtain ⟨rfl, rfl⟩ := has as' h₁ hr hr'
    exact ⟨rfl, rfl⟩

theorem targsNil_cuts : Cuts targsNil := by
  intro d' r r' h hr hr'
  obtain rfl : r = d'.tokens r' := h
  cases d' with
  | targsNil => exact ⟨rfl, rfl⟩
  | targsCons a as =>
    exact absurd (a.startsAtomicType_tatom (as.tokens r')) (Bool.eq_false_iff.1 hr)

theorem targsCons_cuts {a as} (ha : Cuts a) (has : Cuts as) : Cuts (targsCons a as) := by
  intro d' r r' h hr hr'
  cases d' with
  | targsNil =>
    obtain ⟨h, -⟩ := targsNil_cuts _ h.symm hr' hr
    cases h
  | targsCons a' as' =>
    obtain ⟨rfl, h₁⟩ := ha a' h rfl rfl
    obtain ⟨rfl, rfl⟩ := has as' h₁ hr hr'
    exact ⟨rfl, rfl⟩

theorem typeParens_cuts {left t right} (ht : Cuts t) : Cuts (typeParens left t right) := by
  intro d' r r' h hr hr'
  cases d' with
  | typeParens _ t' _ =>
    obtain ⟨rfl, h₁⟩ := cons_inj h
    obtain ⟨rfl, h₂⟩ := ht t' h₁ (terminal _ rfl) (terminal _ rfl)
    obtain ⟨rfl, rfl⟩ := cons_inj h₂
    exact ⟨rfl, rfl⟩
  | typeKinded _ t' =>
    obtain ⟨-, h₂⟩ := ht t' (cons_inj h).2 (terminal _ rfl) (terminal _ rfl)
    exact nomatch kind_inj h₂
  | _ => exact nomatch kind_inj h

theorem typeKinded_cuts {left t colon k right} (ht : Cuts t) (hk : Cuts k) :
    Cuts (typeKinded left t colon k right) := by
  intro d' r r' h hr hr'
  cases d' with
  | typeKinded _ t' _ k' _ =>
    obtain ⟨rfl, h₁⟩ := cons_inj h
    obtain ⟨rfl, h₂⟩ := ht t' h₁ (terminal _ rfl) (terminal _ rfl)
    obtain ⟨rfl, h₃⟩ := cons_inj h₂
    obtain ⟨rfl, h₄⟩ := hk k' h₃ (terminal _ rfl) (terminal _ rfl)
    obtain ⟨rfl, rfl⟩ := cons_inj h₄
    exact ⟨rfl, rfl⟩
  | typeParens _ t' =>
    obtain ⟨-, h₂⟩ := ht t' (cons_inj h).2 (terminal _ rfl) (terminal _ rfl)
    exact nomatch kind_inj h₂
  | _ => exact nomatch kind_inj h

theorem kindAtom_cuts {k} (hk : Cuts k) : Cuts (kindAtom k) := by
  intro d' r r' h hr hr'
  cases d' with
  | kindAtom k' =>
    obtain ⟨rfl, rfl⟩ := hk k' h rfl rfl
    exact ⟨rfl, rfl⟩
  | kindArrow j' arrow =>
    obtain ⟨-, rfl⟩ := hk j' h rfl rfl
    exact absurd arrow.2 (of_decide_eq_false hr)

theorem kindArrow_cuts {j arrow k} (hj : Cuts j) (hk : Cuts k) : Cuts (kindArrow j arrow k) := by
  intro d' r r' h hr hr'
  cases d' with
  | kindAtom k' =>
    obtain ⟨-, rfl⟩ := hj k' h rfl rfl
    exact absurd arrow.2 (of_decide_eq_false hr')
  | kindArrow j' _ k' =>
    obtain ⟨rfl, h₁⟩ := hj j' h rfl rfl
    obtain ⟨rfl, h₂⟩ := cons_inj h₁
    obtain ⟨rfl, rfl⟩ := hk k' h₂ hr hr'
    exact ⟨rfl, rfl⟩

theorem kindParens_cuts {left k right} (hk : Cuts k) : Cuts (kindParens left k right) := by
  intro d' r r' h hr hr'
  cases d' with
  | kindParens _ k' _ =>
    obtain ⟨rfl, h₁⟩ := cons_inj h
    obtain ⟨rfl, h₂⟩ := hk k' h₁ (terminal _ rfl) (terminal _ rfl)
    obtain ⟨rfl, rfl⟩ := cons_inj h₂
    exact ⟨rfl, rfl⟩
  | _ => exact nomatch kind_inj h

/-- Every phrase can be read in one way only. -/
theorem cuts {n : Nonterminal} (d : Derivation n) : d.Cuts := by
  induction d with
  | numeral | name | int | typeName | star | kindName =>
    intro d' r r' h hr hr'
    cases d' <;> first
      | obtain ⟨rfl, rfl⟩ := cons_inj h
        exact ⟨rfl, rfl⟩
      | exact nomatch kind_inj h
  | letIn _ _ _ _ _ _ _ _ ht hv he => exact letIn_cuts ht hv he
  | typeIn _ _ _ _ _ _ _ _ hk hv he => exact typeIn_cuts hk hv he
  | kindIn _ _ _ _ _ _ hv he => exact kindIn_cuts hv he
  | lam _ _ _ _ _ _ ht he => exact lam_cuts ht he
  | tlam _ _ _ _ _ _ hk he => exact tlam_cuts hk he
  | exprApp _ he => exact exprApp_cuts he
  | app _ _ hf has => exact app_cuts hf has
  | argsNil => exact argsNil_cuts
  | argsExpr _ _ ha has => exact argsExpr_cuts ha has
  | argsType _ _ _ _ ht has => exact argsType_cuts ht has
  | parens _ _ _ he => exact parens_cuts he
  | annotated _ _ _ _ _ he ht => exact annotated_cuts he ht
  | typeBinder _ _ _ _ _ _ _ hk ht => exact typeBinder_cuts hk ht
  | typeApp _ ht => exact typeApp_cuts ht
  | typeArrow _ _ _ hs ht => exact typeArrow_cuts hs ht
  | tapp _ _ hf has => exact tapp_cuts hf has
  | targsNil => exact targsNil_cuts
  | targsCons _ _ ha has => exact targsCons_cuts ha has
  | typeParens _ _ _ ht => exact typeParens_cuts ht
  | typeKinded _ _ _ _ _ ht hk => exact typeKinded_cuts ht hk
  | kindAtom _ hk => exact kindAtom_cuts hk
  | kindArrow _ _ _ hj hk => exact kindArrow_cuts hj hk
  | kindParens _ _ _ hk => exact kindParens_cuts hk

/-- The grammar is unambiguous. -/
theorem unique {n : Nonterminal} {d d' : Derivation n} (h : d.tokens [] = d'.tokens []) : d = d' :=
  (d.cuts d' h (by cases n <;> rfl) (by cases n <;> rfl)).1

end Derivation

end SystemFOmega.Grammar
