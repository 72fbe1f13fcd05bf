import SystemFOmega.Proofs.Surface.Recognition
import SystemFOmega.Surface.Printer

/-!
# Printed phrases

The text of a phrase has the tokens of a derivation that denotes the phrase, up to places, if its
names are words and its numerals are short enough (`Expr.Legible.printed` and the same for types and
kinds). A text is followed token by token (`Written`), phrase by phrase (`Prints`), and where the
printer puts a phrase without parentheses, it can be derived there as it stands.
-/

namespace SystemFOmega

open Grammar
open Text (parens parensIf)
open Token (Breaks Spells breaks_space breaks_symbol)

/-! ## Texts with known tokens -/

/-- The text has tokens with the property `P`, wherever it stands, if no word goes on with what
follows it. -/
def Written (cs : List Char) (P : List Token → Prop) : Prop :=
  ∀ (file : Option String) (p : Position), ∃ ts, P ts ∧ ∀ rest acc, Breaks rest →
    Token.lexFrom file p (cs ++ rest) acc =
      Token.lexFrom file (p.after cs) rest (ts.reverse ++ acc)

/-- The text has the tokens of a phrase that denotes something with the property `Q`. -/
def Prints (n : Nonterminal) (text : String) (Q : n.Meaning → Prop) : Prop :=
  Written text.toList fun ts => ∃ d : Derivation n, d.tokens [] = ts ∧ Q d.tree ∧ d.Readable

section

variable {c : Char} {cs w : List Char} {s : String} {k : TokenKind} {P : List Token → Prop}
  {n : Nonterminal} {Q : n.Meaning → Prop}

namespace Written

theorem nil (h : P []) : Written [] P := fun _ _ => ⟨[], h, fun _ _ _ => rfl⟩

theorem space (h : Written cs P) : Written (' ' :: cs) P := by
  intro file p
  obtain ⟨ts, hts, hlex⟩ := h file (p.next ' ')
  exact ⟨ts, hts, fun rest acc hr => (Token.lexFrom_space ..).trans (hlex rest acc hr)⟩

/-- A token `w` that stands in front of `cs`. -/
theorem token
    (hw : ∀ rest, Breaks rest → Token.first? (w ++ (cs ++ rest)) = some (k, w, cs ++ rest))
    (h : ∀ t : Terminal k, t.1.text = String.ofList w → Written cs fun ts => P (t.1 :: ts)) :
    Written (w ++ cs) P := by
  intro file p
  obtain ⟨ts, hts, hlex⟩ := h ⟨⟨k, String.ofList w, p.location file⟩, rfl⟩ rfl file (p.after w)
  refine ⟨_, hts, fun rest acc hr => ?_⟩
  rw [List.append_assoc, Token.lexFrom_first? (hw rest hr), hlex _ _ hr]
  simp [Position.after, List.foldl_append]

/-- A symbol, and then a text. -/
theorem symbol (hc : Token.symbol? c = some k)
    (h : ∀ t : Terminal k, Written cs fun ts => P (t.1 :: ts)) : Written (c :: cs) P :=
  token (w := [c]) (fun _ _ => Token.first?_symbol hc _) fun t _ => h t

theorem arrow (h : ∀ t : Terminal .arrow, Written cs fun ts => P (t.1 :: ts)) :
    Written ('-' :: '>' :: cs) P :=
  token (w := ['-', '>']) (fun _ _ => Token.first?_arrow _) fun t _ => h t

/-- A word or a numeral, and then a text with which it does not go on. -/
theorem word (hs : Spells k s) (hb : Breaks cs)
    (h : ∀ t : Terminal k, t.1.text = s → Written cs fun ts => P (t.1 :: ts)) :
    Written (s.toList ++ cs) P := by
  refine token (fun rest hr => Token.first?_append_of_breaks hs (hb.append hr)) fun t ht => h t ?_
  rw [ht, String.ofList_toList]

/-- The sign of a binder, and then a text. -/
theorem binder (b : Binder) (h : ∀ t : Terminal (sign b), Written cs fun ts => P (t.1 :: ts)) :
    Written (b.symbol.toList ++ cs) P := by
  cases b with
  | all => exact symbol (c := '∀') rfl h
  | lam => exact symbol (c := 'λ') rfl h

/-- A word or a numeral at the end of a text. -/
theorem lastWord (hs : Spells k s) (h : ∀ t : Terminal k, t.1.text = s → P [t.1]) :
    Written s.toList P := by
  have hnil : Written (s.toList ++ []) P := word hs nofun fun t ht => .nil (h t ht)
  rwa [List.append_nil] at hnil

end Written

namespace Prints

/-- A phrase, and then a text. -/
theorem step (h : Prints n s Q) (hb : Breaks cs)
    (hcs : ∀ d : Derivation n, Q d.tree → d.Readable → Written cs fun ts => P (d.tokens ts)) :
    Written (s.toList ++ cs) P := by
  intro file p
  obtain ⟨_, ⟨d, rfl, hd, hr⟩, hlex⟩ := h file p
  obtain ⟨ts, hts, hlex'⟩ := hcs d hd hr file (p.after s.toList)
  refine ⟨_, hts, fun rest acc hr => ?_⟩
  rw [List.append_assoc, hlex _ _ (hb.append hr), hlex' _ _ hr, d.tokens_eq ts]
  simp [Position.after, List.foldl_append]

/-- A phrase at the end of a text. -/
theorem last (h : Prints n s Q) (hP : ∀ d : Derivation n, Q d.tree → d.Readable → P (d.tokens [])) :
    Written s.toList P := by
  have hnil : Written (s.toList ++ []) P := h.step nofun fun d hd hr => .nil (hP d hd hr)
  rwa [List.append_nil] at hnil

/-- A phrase in parentheses is a phrase of another class if the grammar says so. -/
theorem inParens {m : Nonterminal} {R : m.Meaning → Prop} (h : Prints n s Q)
    (hd : ∀ (left : Terminal .lparen) (d : Derivation n) (right : Terminal .rparen), Q d.tree →
      d.Readable → ∃ d' : Derivation m,
        d'.tokens [] = left.1 :: d.tokens [right.1] ∧ R d'.tree ∧ d'.Readable) :
    Prints m (parens s) R := by
  unfold Prints parens
  simp only [String.toList_append, List.append_assoc]
  refine .symbol (c := '(') rfl fun left => h.step (breaks_symbol rfl _) fun d hQ hr => ?_
  exact .symbol (c := ')') rfl fun right => .nil (hd left d right hQ hr)

/-- Parentheses that are put only where they are needed. -/
theorem parensIf {b : Bool} (hp : Prints n (parens s) Q) (h : b = false → Prints n s Q) :
    Prints n (parensIf b s) Q := by
  cases b with
  | true => exact hp
  | false => exact h rfl

end Prints

end

/-! ## Names -/

/-- The name is a word of the class `k`, without a number. -/
def Ident.Legible (k : TokenKind) (x : Ident) : Prop := Spells k x.value ∧ x.name.id = 0

namespace Ident.Legible

variable {k : TokenKind} {x : Ident} {cs : List Char} {P : List Token → Prop}

/-- A token with the text of a legible name is an identifier of that name. -/
theorem unlocated {t : Token} (hx : x.Legible k) (ht : t.text = x.value) :
    t.ident.unlocated = x.unlocated := by
  obtain ⟨⟨v, i⟩, l⟩ := x
  obtain rfl : i = 0 := hx.2
  show (⟨⟨t.text, 0⟩, none⟩ : Ident) = ⟨⟨v, 0⟩, none⟩
  rw [ht]
  rfl

theorem step (hx : x.Legible k) (hb : Breaks cs)
    (h : ∀ t : Terminal k, t.1.ident.unlocated = x.unlocated → Written cs fun ts => P (t.1 :: ts)) :
    Written (x.value.toList ++ cs) P :=
  .word hx.1 hb fun t ht => h t (hx.unlocated ht)

theorem colon (hx : x.Legible k)
    (h : ∀ (t : Terminal k) (colon : Terminal .colon), t.1.ident.unlocated = x.unlocated →
      Written cs fun ts => P (t.1 :: colon.1 :: ts)) :
    Written (x.value.toList ++ (": ".toList ++ cs)) P := by
  refine hx.step (breaks_symbol rfl _) fun t ht => ?_
  exact .symbol (c := ':') rfl fun colon => .space (h t colon ht)

theorem last (hx : x.Legible k)
    (h : ∀ t : Terminal k, t.1.ident.unlocated = x.unlocated → P [t.1]) :
    Written x.value.toList P :=
  .lastWord hx.1 fun t ht => h t (hx.unlocated ht)

end Ident.Legible

/-! ## Kinds -/

/-- The kind can be written with names that are words. -/
inductive KindExpr.Legible : KindExpr → Prop
  | star : Legible .star
  | var {x : Ident} : x.Legible .upperName → Legible (.var x)
  | arrow {j k : KindExpr} : Legible j → Legible k → Legible (.arrow j k)

/-- The text of a kind is read back, as an atom too if it is no arrow. -/
structure KindExpr.Printed (k : KindExpr) : Prop where
  kind : Prints .kind k.print (·.unlocated = k.unlocated)
  katom : k.isArrow = false → Prints .katom k.print (·.unlocated = k.unlocated)

theorem Prints.kindParens {s : String} {Q : KindExpr → Prop} (h : Prints .kind s Q) :
    Prints .katom (parens s) Q :=
  h.inParens fun left k right hk _ => ⟨.kindParens left k right, rfl, hk, trivial⟩

namespace KindExpr

variable {k : KindExpr}

/-- A kind whose text is an atom. -/
theorem Printed.of_katom (h : Prints .katom k.print (·.unlocated = k.unlocated)) : k.Printed where
  kind := h.last fun k hk _ => ⟨.kindAtom k, rfl, hk, trivial⟩
  katom _ := h

/-- A kind to the left of an arrow. -/
theorem Printed.left (h : k.Printed) :
    Prints .katom (parensIf k.isArrow k.print) (·.unlocated = k.unlocated) :=
  .parensIf h.kind.kindParens h.katom

/-- The text of a kind with legible names is a phrase that denotes the kind. -/
theorem Legible.printed (h : k.Legible) : k.Printed := by
  induction h with
  | star =>
    exact .of_katom (.symbol (c := '*') rfl fun t => .nil ⟨.star t, rfl, rfl, trivial⟩)
  | @var x hx =>
    refine .of_katom (hx.last fun t ht => ⟨.kindName t, rfl, ?_, trivial⟩)
    show KindExpr.var t.1.ident.unlocated = .var x.unlocated
    rw [ht]
  | @arrow j k _ _ hj hk =>
    refine ⟨?_, nofun⟩
    unfold Prints print
    simp only [String.toList_append, List.append_assoc]
    refine hj.left.step (breaks_space _) fun j' hj' _ => .space (.arrow fun a => .space ?_)
    refine hk.kind.last fun k' hk' _ => ⟨.kindArrow j' a k', rfl, ?_, trivial⟩
    show KindExpr.arrow (unlocated j'.tree) (unlocated k'.tree) = .arrow j.unlocated k.unlocated
    rw [hj', hk']

end KindExpr

/-! ## Applications -/

namespace Grammar.Derivation

/-- The type arguments `as`, and then `bs`. -/
def appendTypes : Derivation .targs → Derivation .targs → Derivation .targs
  | .targsNil, bs => bs
  | .targsCons a as, bs => .targsCons a (as.appendTypes bs)

theorem tokens_appendTypes (as bs : Derivation .targs) (r : List Token) :
    (as.appendTypes bs).tokens r = as.tokens (bs.tokens r) := by
  fun_induction appendTypes as bs with
  | case1 => rfl
  | case2 a as bs ih => exact congrArg a.tokens ih

/-- A type is applied to the first arguments before it is to the others. -/
theorem tree_appendTypes (as bs : Derivation .targs) (f : TypeExpr) :
    (as.appendTypes bs).tree f = bs.tree (as.tree f) := by
  fun_induction appendTypes as bs generalizing f with
  | case1 => rfl
  | case2 a as bs ih => exact ih (.app f a.tree)

/-- More arguments behind a type. -/
theorem exists_tapp (d : Derivation .tapp) (bs : Derivation .targs) : ∃ d' : Derivation .tapp,
    d'.tokens [] = d.tokens (bs.tokens []) ∧ d'.tree = bs.tree d.tree := by
  cases d with
  | tapp f as =>
    exact ⟨.tapp f (as.appendTypes bs), congrArg f.tokens (as.tokens_appendTypes bs []),
      as.tree_appendTypes bs f.tree⟩

/-- The arguments `as`, and then `bs`. -/
def appendArgs : Derivation .args → Derivation .args → Derivation .args
  | .argsNil, bs => bs
  | .argsExpr a as, bs => .argsExpr a (as.appendArgs bs)
  | .argsType left t right as, bs => .argsType left t right (as.appendArgs bs)

theorem tokens_appendArgs (as bs : Derivation .args) (r : List Token) :
    (as.appendArgs bs).tokens r = as.tokens (bs.tokens r) := by
  fun_induction appendArgs as bs with
  | case1 => rfl
  | case2 a as bs ih => exact congrArg a.tokens ih
  | case3 left t right as bs ih => exact congrArg (fun ts => left.1 :: t.tokens (right.1 :: ts)) ih

/-- An expression is applied to the first arguments before it is to the others. -/
theorem tree_appendArgs (as bs : Derivation .args) (f : Expr) :
    (as.appendArgs bs).tree f = bs.tree (as.tree f) := by
  fun_induction appendArgs as bs generalizing f with
  | case1 => rfl
  | case2 a as bs ih => exact ih (.app f a.tree f.loc)
  | case3 left t right as bs ih => exact ih (.tapp f t.tree f.loc)

theorem readable_appendArgs {as bs : Derivation .args} (ha : as.Readable) (hb : bs.Readable) :
    (as.appendArgs bs).Readable := by
  fun_induction appendArgs as bs with
  | case1 => exact hb
  | case2 a as bs ih => exact ⟨ha.1, ih ha.2 hb⟩
  | case3 left t right as bs ih => exact ih ha hb

/-- More arguments behind an expression. -/
theorem exists_app {d : Derivation .app} (hd : d.Readable) (bs : Derivation .args)
    (hb : bs.Readable) : ∃ d' : Derivation .app,
    d'.tokens [] = d.tokens (bs.tokens []) ∧ d'.tree = bs.tree d.tree ∧ d'.Readable := by
  cases d with
  | app f as =>
    exact ⟨.app f (as.appendArgs bs), congrArg f.tokens (as.tokens_appendArgs bs []),
      as.tree_appendArgs bs f.tree, hd.1, readable_appendArgs hd.2 hb⟩

end Grammar.Derivation

/-! ## Types -/

/-- The type can be written with names that are words. -/
inductive TypeExpr.Legible : TypeExpr → Prop
  | int : Legible .int
  | var {x : Ident} : x.Legible .upperName → Legible (.var x)
  | arrow {s t : TypeExpr} : Legible s → Legible t → Legible (.arrow s t)
  | bind {b : Binder} {x : Ident} {k : KindExpr} {t : TypeExpr} :
    x.Legible .upperName → k.Legible → Legible t → Legible (.bind b x k t)
  | app {f a : TypeExpr} : Legible f → Legible a → Legible (.app f a)
  | kinded {t : TypeExpr} {k : KindExpr} : Legible t → k.Legible → Legible (.kinded t k)

/-- The text of a type is read back, before an argument or an arrow if it is not open, and as an
argument if it is one word. -/
structure TypeExpr.Printed (t : TypeExpr) : Prop where
  type : Prints .type t.print (·.unlocated = t.unlocated)
  tapp : t.isOpen = false → Prints .tapp t.print (·.unlocated = t.unlocated)
  tatom : t.isWord = true → Prints .tatom t.print (·.unlocated = t.unlocated)

namespace Prints

variable {s : String} {Q : TypeExpr → Prop}

theorem typeApp (h : Prints .tapp s Q) : Prints .type s Q :=
  h.last fun t ht _ => ⟨.typeApp t, rfl, ht, trivial⟩

theorem tapp (h : Prints .tatom s Q) : Prints .tapp s Q :=
  h.last fun t ht _ => ⟨.tapp t .targsNil, rfl, ht, trivial⟩

theorem typeParens (h : Prints .type s Q) : Prints .tatom (parens s) Q :=
  h.inParens fun left t right ht _ => ⟨.typeParens left t right, rfl, ht, trivial⟩

end Prints

namespace TypeExpr

variable {t : TypeExpr}

/-- A type whose text is an atom. -/
theorem Printed.of_tatom (h : Prints .tatom t.print (·.unlocated = t.unlocated)) : t.Printed where
  type := h.tapp.typeApp
  tapp _ := h.tapp
  tatom _ := h

/-- A type whose text needs parentheses everywhere but at the top. -/
theorem Printed.of_type (ho : t.isOpen = true) (hw : t.isWord = false)
    (h : Prints .type t.print (·.unlocated = t.unlocated)) : t.Printed where
  type := h
  tapp ho' := Bool.noConfusion (ho.symm.trans ho')
  tatom hw' := Bool.noConfusion (hw.symm.trans hw')

/-- A type to the left of an arrow. -/
theorem Printed.left (h : t.Printed) :
    Prints .tapp (parensIf t.isOpen t.print) (·.unlocated = t.unlocated) :=
  .parensIf h.type.typeParens.tapp h.tapp

/-- A type that is applied. -/
theorem Printed.head (h : t.Printed) :
    Prints .tapp (parensIf (!t.isHead) t.print) (·.unlocated = t.unlocated) := by
  refine .parensIf h.type.typeParens.tapp fun hb => h.tapp ?_
  cases t <;> first | rfl | cases hb

/-- A type as an argument. -/
theorem Printed.argument (h : t.Printed) :
    Prints .tatom (parensIf (!t.isWord) t.print) (·.unlocated = t.unlocated) :=
  .parensIf h.type.typeParens fun hb => h.tatom (by simpa using hb)

/-- The text of a type with legible names is a phrase that denotes the type. -/
theorem Legible.printed (h : t.Legible) : t.Printed := by
  induction h with
  | int =>
    have hint : Spells .intType "Int" := by decide +kernel
    exact .of_tatom (.lastWord hint fun t _ => ⟨.int t, rfl, rfl, trivial⟩)
  | @var x hx =>
    refine .of_tatom (hx.last fun t ht => ⟨.typeName t, rfl, ?_, trivial⟩)
    show TypeExpr.var t.1.ident.unlocated = .var x.unlocated
    rw [ht]
  | @arrow s t _ _ hs ht =>
    refine .of_type rfl rfl ?_
    unfold Prints print
    simp only [String.toList_append, List.append_assoc]
    refine hs.left.step (breaks_space _) fun s' hs' _ => .space (.arrow fun a => .space ?_)
    refine ht.type.last fun t' ht' _ => ⟨.typeArrow s' a t', rfl, ?_, trivial⟩
    show TypeExpr.arrow (unlocated s'.tree) (unlocated t'.tree) = .arrow s.unlocated t.unlocated
    rw [hs', ht']
  | @bind b x k t hx hk _ ht =>
    refine .of_type rfl rfl ?_
    unfold Prints print
    simp only [String.toList_append, List.append_assoc]
    refine .binder b fun start => ?_
    refine hx.colon fun x' colon hx' => ?_
    refine hk.printed.kind.step (breaks_symbol rfl _) fun k' hk' _ => ?_
    refine .symbol (c := '.') rfl fun dot => .space ?_
    refine ht.type.last fun t' ht' _ => ⟨.typeBinder b start x' colon k' dot t', rfl, ?_, trivial⟩
    show TypeExpr.bind b x'.1.ident.unlocated (KindExpr.unlocated k'.tree) (unlocated t'.tree) =
      .bind b x.unlocated k.unlocated t.unlocated
    rw [hx', hk', ht']
  | @app f a _ _ hf ha =>
    have happ : Prints .tapp (TypeExpr.app f a).print
        (·.unlocated = (TypeExpr.app f a).unlocated) := by
      unfold Prints print
      simp only [String.toList_append, List.append_assoc]
      refine hf.head.step (breaks_space _) fun f' hf' _ => .space ?_
      refine ha.argument.last fun a' ha' _ => ?_
      obtain ⟨d, hd, hd'⟩ := f'.exists_tapp (.targsCons a' .targsNil)
      refine ⟨d, hd, ?_, d.readable rfl⟩
      rw [hd']
      show TypeExpr.app (unlocated f'.tree) (unlocated a'.tree) = .app f.unlocated a.unlocated
      rw [hf', ha']
    exact ⟨happ.typeApp, fun _ => happ, nofun⟩
  | @kinded t k _ hk ht =>
    refine .of_tatom ?_
    unfold Prints print parens
    simp only [String.toList_append, List.append_assoc]
    refine .symbol (c := '(') rfl fun left => ht.type.step (breaks_space _) fun t' ht' _ => ?_
    refine .space (.symbol (c := ':') rfl fun colon => .space ?_)
    refine hk.printed.kind.step (breaks_symbol rfl _) fun k' hk' _ => ?_
    refine .symbol (c := ')') rfl fun right => .nil ?_
    refine ⟨.typeKinded left t' colon k' right, rfl, ?_, trivial⟩
    show TypeExpr.kinded (unlocated t'.tree) (KindExpr.unlocated k'.tree) =
      .kinded t.unlocated k.unlocated
    rw [ht', hk']

end TypeExpr

/-! ## Expressions -/

/-- The decimal digits of a number are one numeral. -/
theorem spells_repr (n : Nat) : Spells .numeral n.repr := by
  have hdigit : ∀ c ∈ Nat.toDigits 10 n, Text.isDigit c = true :=
    fun c hc => (Numeral.isDigit_of_mem hc).1
  unfold Spells
  rw [Nat.toList_repr]
  cases hd : Nat.toDigits 10 n with
  | nil => exact absurd hd Nat.toDigits_ne_nil
  | cons c cs =>
    rw [hd] at hdigit
    obtain ⟨hc, hcs⟩ := List.forall_mem_cons.1 hdigit
    simp only [Token.first?, hc, if_true, List.takeWhile_eq_self_iff.2 hcs,
      List.dropWhile_eq_nil_iff.2 hcs]

/-- The expression can be written with names that are words and numerals that are not too long, and
its definitions tell the types and kinds of their values. -/
inductive Expr.Legible : Expr → Prop
  | lit {n : Nat} {l : Option Location} :
    (Nat.toDigits 10 n).length ≤ Numeral.maxDigits → Legible (.lit n l)
  | var {x : Ident} {l : Option Location} : x.Legible .lowerName → Legible (.var x l)
  | lam {x : Ident} {t : TypeExpr} {e : Expr} {l : Option Location} :
    x.Legible .lowerName → t.Legible → Legible e → Legible (.lam x t e l)
  | app {f a : Expr} {l : Option Location} : Legible f → Legible a → Legible (.app f a l)
  | tlam {x : Ident} {k : KindExpr} {e : Expr} {l : Option Location} :
    x.Legible .upperName → k.Legible → Legible e → Legible (.tlam x k e l)
  | tapp {f : Expr} {t : TypeExpr} {l : Option Location} :
    Legible f → t.Legible → Legible (.tapp f t l)
  | ann {e : Expr} {t : TypeExpr} {l : Option Location} :
    Legible e → t.Legible → Legible (.ann e t l)
  | letIn {x : Ident} {t : TypeExpr} {v e : Expr} {l l' : Option Location} :
    x.Legible .lowerName → t.Legible → Legible v → Legible e → Legible (.letIn x (.ann v t l') e l)
  | typeIn {x : Ident} {k : KindExpr} {v : TypeExpr} {e : Expr} {l : Option Location} :
    x.Legible .upperName → k.Legible → v.Legible → Legible e → Legible (.typeIn x (.kinded v k) e l)
  | kindIn {x : Ident} {v : KindExpr} {e : Expr} {l : Option Location} :
    x.Legible .upperName → v.Legible → Legible e → Legible (.kindIn x v e l)

/-- The text of an expression is read back, before an argument if it is a head, and as an argument
if it is an atom. -/
structure Expr.Printed (e : Expr) : Prop where
  expr : Prints .expr e.print (·.unlocated = e.unlocated)
  app : e.isHead = true → Prints .app e.print (·.unlocated = e.unlocated)
  atom : e.isAtom = true → Prints .atom e.print (·.unlocated = e.unlocated)

namespace Prints

variable {s : String} {Q : Expr → Prop}

theorem exprApp (h : Prints .app s Q) : Prints .expr s Q :=
  h.last fun e he hr => ⟨.exprApp e, rfl, he, hr⟩

theorem app (h : Prints .atom s Q) : Prints .app s Q :=
  h.last fun e he hr => ⟨.app e .argsNil, rfl, he, hr, trivial⟩

theorem exprParens (h : Prints .expr s Q) : Prints .atom (parens s) Q :=
  h.inParens fun left e right he hr => ⟨.parens left e right, rfl, he, hr⟩

/-- The body of a definition. -/
theorem body {P : List Token → Prop} (h : Prints .expr s Q)
    (hP : ∀ (within : Terminal .inWord) (e : Derivation .expr), Q e.tree → e.Readable →
      P (within.1 :: e.tokens [])) :
    Written (" in ".toList ++ s.toList) P := by
  have hin : Spells .inWord "in" := by decide +kernel
  refine .space (.word hin (breaks_space _) fun within _ => .space ?_)
  exact h.last (hP within)

end Prints

namespace Expr

variable {e : Expr}

/-- An expression whose text is an atom. -/
theorem Printed.of_atom (h : Prints .atom e.print (·.unlocated = e.unlocated)) : e.Printed where
  expr := h.app.exprApp
  app _ := h.app
  atom _ := h

/-- An expression whose text is an application. -/
theorem Printed.of_app (ha : e.isAtom = false)
    (h : Prints .app e.print (·.unlocated = e.unlocated)) : e.Printed where
  expr := h.exprApp
  app _ := h
  atom ha' := Bool.noConfusion (ha.symm.trans ha')

/-- An expression whose text needs parentheses everywhere but at the top. -/
theorem Printed.of_expr (hh : e.isHead = false) (ha : e.isAtom = false)
    (h : Prints .expr e.print (·.unlocated = e.unlocated)) : e.Printed where
  expr := h
  app hh' := Bool.noConfusion (hh.symm.trans hh')
  atom ha' := Bool.noConfusion (ha.symm.trans ha')

/-- An expression that is applied. -/
theorem Printed.head (h : e.Printed) :
    Prints .app (parensIf (!e.isHead) e.print) (·.unlocated = e.unlocated) :=
  .parensIf h.expr.exprParens.app fun hb => h.app (by simpa using hb)

/-- An expression as an argument. -/
theorem Printed.argument (h : e.Printed) :
    Prints .atom (parensIf (!e.isAtom) e.print) (·.unlocated = e.unlocated) :=
  .parensIf h.expr.exprParens fun hb => h.atom (by simpa using hb)

/-- The text of a legible expression is a phrase that denotes the expression. -/
theorem Legible.printed (h : e.Legible) : e.Printed := by
  induction h with
  | @lit n l hn =>
    refine .of_atom (.lastWord (spells_repr n) fun t ht => ?_)
    have ht : t.1.text = n.repr := ht
    refine ⟨.numeral t, rfl, ?_, n, ?_⟩
    · show Expr.lit (Numeral.value t.1.text.toList) none = .lit n none
      rw [ht, Nat.toList_repr, Numeral.value_toDigits]
    · rw [ht]
      exact Numeral.read_repr hn
  | @var x l hx =>
    refine .of_atom (hx.last fun t ht => ⟨.name t, rfl, ?_, trivial⟩)
    show Expr.var t.1.ident.unlocated none = .var x.unlocated none
    rw [ht]
  | @lam x t e l hx ht _ he =>
    refine .of_expr rfl rfl ?_
    unfold Prints print
    simp only [String.toList_append, List.append_assoc]
    refine .symbol (c := 'λ') rfl fun start => ?_
    refine hx.colon fun x' colon hx' => ?_
    refine ht.printed.type.step (breaks_symbol rfl _) fun t' ht' _ => ?_
    refine .symbol (c := '.') rfl fun dot => .space ?_
    refine he.expr.last fun e' he' hr => ⟨.lam start x' colon t' dot e', rfl, ?_, hr⟩
    show Expr.lam x'.1.ident.unlocated (TypeExpr.unlocated t'.tree) (unlocated e'.tree) none =
      .lam x.unlocated t.unlocated e.unlocated none
    rw [hx', ht', he']
  | @app f a l _ _ hf ha =>
    refine .of_app rfl ?_
    unfold Prints print
    simp only [String.toList_append, List.append_assoc]
    refine hf.head.step (breaks_space _) fun f' hf' hfr => .space ?_
    refine ha.argument.last fun a' ha' har => ?_
    -- the argument goes behind those that the head has already
    obtain ⟨d, hd, hd', hr⟩ :=
      Derivation.exists_app hfr (.argsExpr a' .argsNil) ⟨har, trivial⟩
    refine ⟨d, hd, ?_, hr⟩
    rw [hd']
    show Expr.app (unlocated f'.tree) (unlocated a'.tree) none = .app f.unlocated a.unlocated none
    rw [hf', ha']
  | @tlam x k e l hx hk _ he =>
    refine .of_expr rfl rfl ?_
    unfold Prints print
    simp only [String.toList_append, List.append_assoc]
    refine .symbol (c := 'λ') rfl fun start => ?_
    refine hx.colon fun x' colon hx' => ?_
    refine hk.printed.kind.step (breaks_symbol rfl _) fun k' hk' _ => ?_
    refine .symbol (c := '.') rfl fun dot => .space ?_
    refine he.expr.last fun e' he' hr => ⟨.tlam start x' colon k' dot e', rfl, ?_, hr⟩
    show Expr.tlam x'.1.ident.unlocated (KindExpr.unlocated k'.tree) (unlocated e'.tree) none =
      .tlam x.unlocated k.unlocated e.unlocated none
    rw [hx', hk', he']
  | @tapp f t l _ ht hf =>
    refine .of_app rfl ?_
    unfold Prints print
    simp only [String.toList_append, List.append_assoc]
    refine hf.head.step (breaks_space _) fun f' hf' hfr => .space ?_
    refine .symbol (c := '[') rfl fun left => ?_
    refine ht.printed.type.step (breaks_symbol rfl _) fun t' ht' _ => ?_
    refine .symbol (c := ']') rfl fun right => .nil ?_
    obtain ⟨d, hd, hd', hr⟩ :=
      Derivation.exists_app hfr (.argsType left t' right .argsNil) trivial
    refine ⟨d, hd, ?_, hr⟩
    rw [hd']
    show Expr.tapp (unlocated f'.tree) (TypeExpr.unlocated t'.tree) none =
      .tapp f.unlocated t.unlocated none
    rw [hf', ht']
  | @ann e t l _ ht he =>
    refine .of_atom ?_
    unfold Prints print parens
    simp only [String.toList_append, List.append_assoc]
    refine .symbol (c := '(') rfl fun left => he.expr.step (breaks_space _) fun e' he' hr => ?_
    refine .space (.symbol (c := ':') rfl fun colon => .space ?_)
    refine ht.printed.type.step (breaks_symbol rfl _) fun t' ht' _ => ?_
    refine .symbol (c := ')') rfl fun right => .nil ⟨.annotated left e' colon t' right, rfl, ?_, hr⟩
    show Expr.ann (unlocated e'.tree) (TypeExpr.unlocated t'.tree) none =
      .ann e.unlocated t.unlocated none
    rw [he', ht']
  | @letIn x t v e l l' hx ht _ _ hv he =>
    have hlet : Spells .letWord "let" := by decide +kernel
    refine .of_expr rfl rfl ?_
    unfold Prints print
    simp only [String.toList_append, List.append_assoc]
    show Written ("let".toList ++ ' ' :: _) _
    refine .word hlet (breaks_space _) fun start _ => .space ?_
    refine hx.colon fun x' colon hx' => ?_
    refine ht.printed.type.step (breaks_space _) fun t' ht' _ => ?_
    refine .space (.symbol (c := '=') rfl fun equals => .space ?_)
    refine hv.expr.step (breaks_space _) fun v' hv' hvr => he.expr.body fun within e' he' her => ?_
    refine ⟨.letIn start x' colon t' equals v' within e', rfl, ?_, hvr, her⟩
    show Expr.letIn x'.1.ident.unlocated
        (.ann (unlocated v'.tree) (TypeExpr.unlocated t'.tree) none) (unlocated e'.tree) none =
      .letIn x.unlocated (.ann v.unlocated t.unlocated none) e.unlocated none
    rw [hx', ht', hv', he']
  | @typeIn x k v e l hx hk hv _ he =>
    have htype : Spells .typeWord "type" := by decide +kernel
    refine .of_expr rfl rfl ?_
    unfold Prints print
    simp only [String.toList_append, List.append_assoc]
    show Written ("type".toList ++ ' ' :: _) _
    refine .word htype (breaks_space _) fun start _ => .space ?_
    refine hx.colon fun x' colon hx' => ?_
    refine hk.printed.kind.step (breaks_space _) fun k' hk' _ => ?_
    refine .space (.symbol (c := '=') rfl fun equals => .space ?_)
    refine hv.printed.type.step (breaks_space _) fun v' hv' _ =>
      he.expr.body fun within e' he' her => ?_
    refine ⟨.typeIn start x' colon k' equals v' within e', rfl, ?_, her⟩
    show Expr.typeIn x'.1.ident.unlocated
        (.kinded (TypeExpr.unlocated v'.tree) (KindExpr.unlocated k'.tree))
        (unlocated e'.tree) none =
      .typeIn x.unlocated (.kinded v.unlocated k.unlocated) e.unlocated none
    rw [hx', hk', hv', he']
  | @kindIn x v e l hx hv _ he =>
    have hkind : Spells .kindWord "kind" := by decide +kernel
    refine .of_expr rfl rfl ?_
    unfold Prints print
    simp only [String.toList_append, List.append_assoc]
    show Written ("kind".toList ++ ' ' :: _) _
    refine .word hkind (breaks_space _) fun start _ => .space ?_
    refine hx.step (breaks_space _) fun x' hx' => ?_
    refine .space (.symbol (c := '=') rfl fun equals => .space ?_)
    refine hv.printed.kind.step (breaks_space _) fun v' hv' _ =>
      he.expr.body fun within e' he' her => ?_
    refine ⟨.kindIn start x' equals v' within e', rfl, ?_, her⟩
    show Expr.kindIn x'.1.ident.unlocated (KindExpr.unlocated v'.tree) (unlocated e'.tree) none =
      .kindIn x.unlocated v.unlocated e.unlocated none
    rw [hx', hv', he']

end Expr

end SystemFOmega
