import SystemFOmega.Proofs.Surface.Printing

/-!
# Reading what was printed

Whatever is read from a text is legible (`Parser.Faithful.legible`): its names are words and its
numerals short. So the text that it is printed with is read back as the same phrase, up to places,
unless it nests too deep (`Parser.parse_print`).
-/

namespace SystemFOmega

open Grammar

/-- What a phrase of the nonterminal denotes is legible. -/
def Grammar.Nonterminal.Legible : (n : Nonterminal) → n.Meaning → Prop
  | .expr | .app | .atom => Expr.Legible
  | .args => fun as => ∀ e : Expr, e.Legible → (as e).Legible
  | .type | .tapp | .tatom => TypeExpr.Legible
  | .targs => fun as => ∀ t : TypeExpr, t.Legible → (as t).Legible
  | .kind | .katom => KindExpr.Legible

namespace Grammar

/-- A token that is spelled out is a legible name. -/
theorem Terminal.legible {k : TokenKind} (t : Terminal k) (h : t.1.Spelled) :
    t.1.ident.Legible k := by
  obtain ⟨t, rfl⟩ := t
  exact ⟨h, rfl⟩

namespace Derivation

variable {n : Nonterminal}

/-- The tokens of the phrase are spelled out. -/
def Spelled (d : Derivation n) : Prop := ∀ t ∈ d.tokens [], t.Spelled

theorem forall_spelled {d : Derivation n} {r : List Token} :
    (∀ t ∈ d.tokens r, t.Spelled) ↔ d.Spelled ∧ ∀ t ∈ r, t.Spelled := by
  rw [d.tokens_eq r, List.forall_mem_append]
  rfl

/-- What the tokens of a phrase denote can be written with the same words. -/
theorem legible (d : Derivation n) (h : ∀ t ∈ d.tokens [], t.Spelled) (hr : d.Readable) :
    n.Legible d.tree := by
  induction d with simp only [tokens, List.forall_mem_cons, forall_spelled] at h
  | letIn start x colon t equals v within e ht hv he =>
    obtain ⟨-, hx, -, ht', -, hv', -, he', -⟩ := h
    exact .letIn (x.legible hx) (ht ht' (t.readable rfl)) (hv hv' hr.1) (he he' hr.2)
  | typeIn start x colon k equals v within e hk hv he =>
    obtain ⟨-, hx, -, hk', -, hv', -, he', -⟩ := h
    exact .typeIn (x.legible hx) (hk hk' (k.readable rfl)) (hv hv' (v.readable rfl)) (he he' hr)
  | kindIn start x equals v within e hv he =>
    obtain ⟨-, hx, -, hv', -, he', -⟩ := h
    exact .kindIn (x.legible hx) (hv hv' (v.readable rfl)) (he he' hr)
  | lam start x colon t dot e ht he =>
    obtain ⟨-, hx, -, ht', -, he', -⟩ := h
    exact .lam (x.legible hx) (ht ht' (t.readable rfl)) (he he' hr)
  | tlam start x colon k dot e hk he =>
    obtain ⟨-, hx, -, hk', -, he', -⟩ := h
    exact .tlam (x.legible hx) (hk hk' (k.readable rfl)) (he he' hr)
  | exprApp e he => exact he h.1 hr
  | app f as hf has => exact has h.2.1 hr.2 _ (hf h.1 hr.1)
  | argsNil => exact fun e he => he
  | argsExpr a as ha has => exact fun f hf => has h.2.1 hr.2 _ (.app hf (ha h.1 hr.1))
  | argsType left t right as ht has =>
    obtain ⟨-, ht', -, has', -⟩ := h
    exact fun f hf => has has' hr _ (.tapp hf (ht ht' (t.readable rfl)))
  | numeral n =>
    -- leading zeros are not printed, so that the numeral does not get longer
    obtain ⟨m, hm⟩ := hr
    obtain ⟨hne, -, hlen, -⟩ := Numeral.read_ok_iff.1 hm
    exact .lit ((Numeral.length_toDigits_value hne).trans hlen)
  | name x => exact .var (x.legible h.1)
  | parens left e right he => exact he h.2.1 hr
  | annotated left e colon t right he ht =>
    obtain ⟨-, he', -, ht', -⟩ := h
    exact .ann (he he' hr) (ht ht' (t.readable rfl))
  | typeBinder b start x colon k dot t hk ht =>
    obtain ⟨-, hx, -, hk', -, ht', -⟩ := h
    exact .bind (x.legible hx) (hk hk' (k.readable rfl)) (ht ht' (t.readable rfl))
  | typeApp t ht => exact ht h.1 (t.readable rfl)
  | typeArrow s arrow t hs ht =>
    obtain ⟨hs', -, ht', -⟩ := h
    exact .arrow (hs hs' (s.readable rfl)) (ht ht' (t.readable rfl))
  | tapp f as hf has => exact has h.2.1 (as.readable rfl) _ (hf h.1 (f.readable rfl))
  | targsNil => exact fun t ht => ht
  | targsCons a as ha has =>
    exact fun f hf => has h.2.1 (as.readable rfl) _ (.app hf (ha h.1 (a.readable rfl)))
  | int t => exact .int
  | typeName x => exact .var (x.legible h.1)
  | typeParens left t right ht => exact ht h.2.1 (t.readable rfl)
  | typeKinded left t colon k right ht hk =>
    obtain ⟨-, ht', -, hk', -⟩ := h
    exact .kinded (ht ht' (t.readable rfl)) (hk hk' (k.readable rfl))
  | kindAtom k hk => exact hk h.1 (k.readable rfl)
  | kindArrow j arrow k hj hk =>
    obtain ⟨hj', -, hk', -⟩ := h
    exact .arrow (hj hj' (j.readable rfl)) (hk hk' (k.readable rfl))
  | star t => exact .star
  | kindName x => exact .var (x.legible h.1)
  | kindParens left k right hk => exact hk h.2.1 (k.readable rfl)

end Derivation

end Grammar

namespace Parser

variable {n : Nonterminal} {q : Nat → Parse n.Meaning} {D : Nat} {file : Option String}
  {text : String}

/-- What is read from a text is legible. -/
theorem Faithful.legible {v : n.Meaning} (hq : Faithful n q) (h : run (q D) file text = .ok v) :
    n.Legible v := by
  obtain ⟨ts, hlex⟩ : ∃ ts, Token.lex file text = .ok ts := by
    unfold run at h
    split at h
    · cases h
    · rename_i ts hlex
      exact ⟨ts, hlex⟩
  obtain ⟨d, hd, -, rfl, hr⟩ := hq.exists_derivation hlex h
  obtain ⟨body, l, rfl, hbody⟩ := Token.lex_ok hlex
  refine d.legible ?_ hr
  rw [hd, List.dropLast_concat]
  exact hbody

/-- There is a depth from which on a text is read with a result that has the property `Q`; below it,
the text nests too deep. -/
def ReadsBack {α : Type} (read : Nat → Except ReadFault α) (Q : α → Prop) : Prop :=
  ∃ D, ∀ depth, (D ≤ depth → ∃ v, read depth = .ok v ∧ Q v) ∧
    (depth < D → ∃ l, read depth = .error (.tooDeep l))

/-- A text that is a phrase is read, from some depth on. -/
theorem Faithful.readsBack {Q : n.Meaning → Prop} (hq : Faithful n q) (h : Prints n text Q)
    (file : Option String) : ReadsBack (fun D => run (q D) file text) Q := by
  obtain ⟨_, ⟨d, rfl, hd, hr⟩, hlex⟩ := h file {}
  let p := Position.after {} text.toList
  have hlex : Token.lex file text = .ok (d.tokens [⟨.eof, "", p.location file⟩]) := by
    have h := hlex [] [] nofun
    rw [List.append_nil, List.append_nil, Token.lexFrom_nil, List.reverse_reverse] at h
    rw [d.tokens_eq]
    exact h
  exact ⟨d.nesting, fun D => ⟨fun hD => ⟨d.tree, hq.run_ok rfl hlex hr hD, hd⟩,
    fun hD => hq.run_tooDeep rfl hlex hr hD⟩⟩

theorem ReadsBack.mono {α : Type} {read : Nat → Except ReadFault α} {Q R : α → Prop}
    (h : ReadsBack read Q) (hQR : ∀ v, Q v → R v) : ReadsBack read R := by
  obtain ⟨D, hD⟩ := h
  refine ⟨D, fun depth => ⟨fun hle => ?_, (hD depth).2⟩⟩
  obtain ⟨v, hv, hQ⟩ := (hD depth).1 hle
  exact ⟨v, hv, hQR v hQ⟩

/-- What is read from a text can be printed and read again, up to places, with the depth that the
printed text needs. -/
theorem parse_print :
    (∀ (text : String) (file : Option String) (D : Nat) (e : Expr),
      Expr.parse text file D = .ok e →
      ∀ file', ReadsBack (Expr.parse e.print file' ·) fun e' => Tree.Same (.expr e') (.expr e)) ∧
    (∀ (text : String) (D : Nat) (t : TypeExpr),
      TypeExpr.parse text D = .ok t →
      ReadsBack (TypeExpr.parse t.print ·) fun t' => Tree.Same (.type t') (.type t)) ∧
    (∀ (text : String) (D : Nat) (k : KindExpr),
      KindExpr.parse text D = .ok k →
      ReadsBack (KindExpr.parse k.print ·) fun k' => Tree.Same (.kind k') (.kind k)) := by
  refine ⟨fun text file D e h file' => ?_, fun text D t h => ?_, fun text D k h => ?_⟩
  · have he := Expr.Legible.printed (program_faithful.legible h)
    exact (program_faithful.readsBack he.expr file').mono fun _ => congrArg Tree.expr
  · have ht := TypeExpr.Legible.printed (type_faithful.legible h)
    exact (type_faithful.readsBack ht.type none).mono fun _ => congrArg Tree.type
  · have hk := KindExpr.Legible.printed (kind_faithful.legible h)
    exact (kind_faithful.readsBack hk.kind none).mono fun _ => congrArg Tree.kind

/-- Phrases of the three levels that are printed otherwise than they were written. -/
theorem parse_print_shorter :
    (∃ e, Expr.parse "let f: (Int) -> Int = (λx: Int. (x)) in ((f) (f 007))" none 8 = .ok e ∧
      e.print = "let f: Int -> Int = λx: Int. x in f (f 7)" ∧
      ReadsBack (Expr.parse e.print none ·) fun e' => Tree.Same (.expr e') (.expr e)) ∧
    (∃ t, TypeExpr.parse "forall F: (* -> (*)). ((F) Int) -> (Int)" 8 = .ok t ∧
      t.print = "∀F: * -> *. F Int -> Int" ∧
      ReadsBack (TypeExpr.parse t.print ·) fun t' => Tree.Same (.type t') (.type t)) ∧
    (∃ k, KindExpr.parse "((*) -> *) -> (* -> *)" 8 = .ok k ∧ k.print = "(* -> *) -> * -> *" ∧
      ReadsBack (KindExpr.parse k.print ·) fun k' => Tree.Same (.kind k') (.kind k)) := by
  have run {α : Type} {r : Except ReadFault α} {f : α → String} {s : String} {R : α → Prop}
      (h : r.toOption.map f = some s) (hR : ∀ a, r = .ok a → R a) :
      ∃ a, r = .ok a ∧ f a = s ∧ R a := by
    obtain ⟨a, ha, hs⟩ := Option.map_eq_some_iff.1 h
    have ha := Run.toOption_eq_some.1 ha
    exact ⟨a, ha, hs, hR a ha⟩
  refine ⟨run ?_ fun e he => parse_print.1 _ none 8 e he none,
    run ?_ fun t ht => parse_print.2.1 _ 8 t ht, run ?_ fun k hk => parse_print.2.2 _ 8 k hk⟩ <;>
    decide +kernel

end Parser

end SystemFOmega
