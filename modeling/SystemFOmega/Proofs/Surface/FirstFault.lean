import SystemFOmega.Fault
import SystemFOmega.Proofs.Surface.Lookahead

/-!
# Faults are found at the first impossible token

Where a text is no phrase of the grammar, the fault is that of the first token with which no phrase
can go on (`Parser.blames_first_impossible`). The tokens in front of it begin a phrase, as every
reader stops within one (`Parser.Explained`). With this token they do not: a reader does the same
whatever comes behind it (`Parser.Local`), but it reads phrases.
-/

namespace SystemFOmega

open Grammar Run

/-! ## Other tokens in a phrase -/

namespace Grammar

variable {g : Token → Token} (hg : ∀ t, (g t).kind = t.kind)

/-- Another token of the same class. -/
def Terminal.map {k : TokenKind} (t : Terminal k) : Terminal k := ⟨g t.1, (hg t.1).trans t.2⟩

namespace Derivation

/-- The phrase with each token `t` replaced by `g t`, which is of the same class. -/
def map : {n : Nonterminal} → Derivation n → Derivation n
  | _, letIn start x colon t equals v within e => letIn (start.map hg) (x.map hg) (colon.map hg)
    t.map (equals.map hg) v.map (within.map hg) e.map
  | _, typeIn start x colon k equals v within e => typeIn (start.map hg) (x.map hg) (colon.map hg)
    k.map (equals.map hg) v.map (within.map hg) e.map
  | _, kindIn start x equals v within e =>
    kindIn (start.map hg) (x.map hg) (equals.map hg) v.map (within.map hg) e.map
  | _, lam start x colon t dot e =>
    lam (start.map hg) (x.map hg) (colon.map hg) t.map (dot.map hg) e.map
  | _, tlam start x colon k dot e =>
    tlam (start.map hg) (x.map hg) (colon.map hg) k.map (dot.map hg) e.map
  | _, exprApp e => exprApp e.map
  | _, app f as => app f.map as.map
  | _, argsNil => argsNil
  | _, argsExpr a as => argsExpr a.map as.map
  | _, argsType left t right as => argsType (left.map hg) t.map (right.map hg) as.map
  | _, numeral n => numeral (n.map hg)
  | _, name x => name (x.map hg)
  | _, parens left e right => parens (left.map hg) e.map (right.map hg)
  | _, annotated left e colon t right =>
    annotated (left.map hg) e.map (colon.map hg) t.map (right.map hg)
  | _, typeBinder b start x colon k dot t =>
    typeBinder b (start.map hg) (x.map hg) (colon.map hg) k.map (dot.map hg) t.map
  | _, typeApp t => typeApp t.map
  | _, typeArrow s arrow t => typeArrow s.map (arrow.map hg) t.map
  | _, tapp f as => tapp f.map as.map
  | _, targsNil => targsNil
  | _, targsCons a as => targsCons a.map as.map
  | _, int t => int (t.map hg)
  | _, typeName x => typeName (x.map hg)
  | _, typeParens left t right => typeParens (left.map hg) t.map (right.map hg)
  | _, typeKinded left t colon k right =>
    typeKinded (left.map hg) t.map (colon.map hg) k.map (right.map hg)
  | _, kindAtom k => kindAtom k.map
  | _, kindArrow j arrow k => kindArrow j.map (arrow.map hg) k.map
  | _, star t => star (t.map hg)
  | _, kindName x => kindName (x.map hg)
  | _, kindParens left k right => kindParens (left.map hg) k.map (right.map hg)

/-- The tokens of the phrase are replaced one by one. -/
theorem tokens_map {n : Nonterminal} (d : Derivation n) (r : List Token) :
    (d.map hg).tokens (r.map g) = (d.tokens r).map g := by
  induction d generalizing r <;> simp only [map, tokens, Terminal.map, ← List.map_cons, *]

end Derivation

end Grammar

/-- A numeral that can be read in place of one that cannot. -/
def Token.readable (t : Token) : Token :=
  match t.kind, Numeral.read t.text with
  | .numeral, .error _ => { t with text := "0" }
  | _, _ => t

namespace Token

variable {t : Token}

theorem readable_kind (t : Token) : t.readable.kind = t.kind := by
  unfold readable
  split <;> rfl

theorem read_zero : Numeral.read "0" = .ok 0 := toOption_eq_some.1 (by decide +kernel)

/-- A token that can be read stays as it is. -/
theorem readable_eq (h : t.kind = .numeral → ∃ n, Numeral.read t.text = .ok n) :
    t.readable = t := by
  unfold readable
  split
  · rename_i hkind herror
    obtain ⟨n, hn⟩ := h hkind
    cases hn.symm.trans herror
  · rfl

/-- The numeral that takes the place of another one can be read. -/
theorem exists_read_readable (h : t.readable.kind = .numeral) :
    ∃ n, Numeral.read t.readable.text = .ok n := by
  rw [readable_kind] at h
  cases hread : Numeral.read t.text with
  | ok n =>
    rw [readable_eq fun _ => ⟨n, hread⟩]
    exact ⟨n, hread⟩
  | error f =>
    have heq : t.readable = { t with text := "0" } := by
      simp only [readable, h, hread]
    rw [heq]
    exact ⟨0, read_zero⟩

end Token

namespace Parser

variable {n : Nonterminal} {us ts : List Token}

/-! ## Tokens that begin a phrase -/

/-- The tokens `us` are the first ones of a text that is a phrase of `n`. -/
def Viable (n : Nonterminal) (us : List Token) : Prop :=
  ∃ (d : Derivation n) (e : Token), e.kind = .eof ∧ us <+: d.tokens [e]

theorem Viable.of_begins {d : Derivation n} (h : us <+: d.tokens []) : Viable n us := by
  refine ⟨d, front [], rfl, ?_⟩
  rw [d.tokens_eq]
  exact h.trans (List.prefix_append _ _)

/-- Tokens with readable numerals may go on with readable numerals. -/
theorem Viable.exists_readable (h : Viable n us) (hus : Readable us) :
    ∃ (d : Derivation n) (e : Token), e.kind = .eof ∧ d.Readable ∧ us <+: d.tokens [e] := by
  obtain ⟨d, e, he, hd⟩ := h
  have htokens := d.tokens_map Token.readable_kind [e]
  refine ⟨d.map Token.readable_kind, e.readable, (Token.readable_kind e).trans he, ?_, ?_⟩
  · refine Readable.derivation (r := [e.readable]) ?_
    rw [← List.map_singleton, htokens]
    exact List.forall_mem_map.2 fun t _ => Token.exists_read_readable
  · have heq : us.map Token.readable = us :=
      (List.map_congr_left fun t ht => Token.readable_eq (hus t ht)).trans (List.map_id us)
    rw [← List.map_singleton, htokens, ← heq]
    exact hd.map Token.readable

/-! ## Faults -/

/-- A token that is not wanted is reported as an error of the grammar, at its place. -/
theorem Blames.diagnostic {t : Token} {f : ReadFault} (h : Blames t f) :
    ∃ m, f.fault = .diagnostic (.grammar m t.loc) := by
  rcases h with ⟨w, rfl⟩ | rfl
  · exact ⟨_, rfl⟩
  · exact ⟨_, rfl⟩

theorem Blames.ne_tooDeep {t : Token} {f : ReadFault} (h : Blames t f) (l : Location) :
    f ≠ .tooDeep l := by
  rcases h with ⟨w, rfl⟩ | rfl
  · exact ReadFault.noConfusion
  · exact ReadFault.noConfusion

/-- What is read from the tokens `ts` as a phrase of `n` is refused only for its depth, or for the
first token with which no phrase can go on. -/
def BlamesFirst {α : Type} (n : Nonterminal) (ts : List Token) (r : Except ReadFault α) : Prop :=
  ∀ f, r = .error f → (∃ l, f = .tooDeep l) ∨
    ∃ us t rest m, ts = us ++ t :: rest ∧ f.fault = .diagnostic (.grammar m t.loc) ∧
      Viable n us ∧ ¬ Viable n (us ++ [t])

/-- What is known of the readers `p` of phrases of `n`, and of the readers `q` of texts that are one
such phrase. -/
structure Strict (n : Nonterminal) (q p : Nat → Parse n.Meaning) : Prop where
  faithful : Faithful n q
  closes (D : Nat) : Closes (q D) (p D)
  derives (D : Nat) : Derives n (p D) D
  isLocal (D : Nat) : Local (p D)

namespace Strict

variable {D : Nat} {q p : Nat → Parse n.Meaning} {f : ReadFault} {s s' rest : List Token}
  {t : Token}

/-- A reader stops within a phrase. -/
theorem stops (hq : Strict n q p) (hn : Readable ts) (h : q D ts = .error f s) :
    (∃ l, f = .tooDeep l) ∨ Blames (front s) f ∧
      ∃ (us : List Token) (d : Derivation n), ts = us ++ s ∧ us <+: d.tokens [] := by
  rcases (hq.closes D).error h with hp | ⟨a, hp, -, hblames⟩
  · cases (hq.derives D ts).of_error hp with
    | tooDeep l => exact .inl ⟨l, rfl⟩
    | numeral hnot => exact absurd hn hnot
    | unwanted d hd hblames =>
      obtain ⟨us, hts, hus⟩ := hd
      exact .inr ⟨hblames, us, d, hts, hus⟩
  · obtain ⟨d, hts, -⟩ := (hq.derives D ts).of_ok hp
    rw [d.tokens_eq] at hts
    exact .inr ⟨hblames, d.tokens [], d, hts, List.prefix_rfl⟩

/-- A reader stops there whatever is behind the token to blame. -/
theorem stops_again (hq : Strict n q p) (h : q D (us ++ s) = .error f s) (hf : Blames (front s) f)
    (hs : front s' = front s) :
    ∃ f', q D (us ++ s') = .error f' s' ∧ Blames (front s') f' := by
  obtain ⟨vs, hvs, hlocal⟩ := hq.isLocal D (us ++ s)
  rcases (hq.closes D).error h with hp | ⟨a, hp, heof, -⟩
  · rw [hp] at hvs hlocal
    obtain rfl : us = vs := List.append_cancel_right hvs
    exact ⟨f, (hq.closes D).of_error (hlocal s' hs), hs ▸ hf⟩
  · rw [hp] at hvs hlocal
    obtain rfl : us = vs := List.append_cancel_right hvs
    exact (hq.closes D).of_more (hlocal s' hs) (hs ▸ heof)

/-- No phrase goes on with the token at which a reader stops. -/
theorem not_viable (hq : Strict n q p) (hn : Readable (us ++ [t]))
    (h : q D (us ++ t :: rest) = .error f (t :: rest)) (hf : Blames t f) :
    ¬ Viable n (us ++ [t]) := by
  intro hviable
  obtain ⟨d, e, he, hd, more, hmore⟩ := hviable.exists_readable hn
  have htokens : us ++ t :: more = d.tokens [e] := by
    rw [← hmore, List.append_assoc, List.singleton_append]
  have hfront : front (t :: more) = front (t :: rest) := rfl
  obtain ⟨f', hf', hblames⟩ := hq.stops_again h hf hfront
  rw [htokens] at hf'
  by_cases hD : d.nesting ≤ D
  · obtain ⟨r, hr⟩ := hq.faithful.ok he hd hD
    cases hr.symm.trans hf'
  · obtain ⟨l, r, hr⟩ := hq.faithful.tooDeep he hd (Nat.not_le.1 hD)
    obtain ⟨rfl, -⟩ := EStateM.Result.error.inj (hr.symm.trans hf')
    exact absurd rfl (hblames.ne_tooDeep l)

/-- A strict reader of texts blames the first token with which no phrase can go on. -/
theorem blamesFirst (hq : Strict n q p) {file : Option String} {text : String}
    (hlex : Token.lex file text = .ok ts) (hn : Readable ts) (D : Nat) :
    BlamesFirst n ts (run (q D) file text) := by
  intro f hf
  obtain ⟨s, hs⟩ := exists_of_run_error hlex hf
  refine (hq.stops hn hs).imp_right ?_
  rintro ⟨hblames, us, d, rfl, hus⟩
  cases s with
  | nil =>
    -- the text is closed, and no phrase has the token that closes it
    obtain ⟨body, l, hbody, -⟩ := Token.lex_ok hlex
    rw [List.append_nil] at hbody
    have hne := (d.tokens_ne_eof []).2 (List.forall_mem_nil _)
    exact absurd rfl (hne _ (hus.mem (hbody ▸ List.mem_concat_self)))
  | cons t rest =>
    obtain ⟨m, hm⟩ := hblames.diagnostic
    have hsub : us ++ [t] ⊆ us ++ t :: rest := by simp
    have hn' : Readable (us ++ [t]) := fun u hu => hn u (hsub hu)
    exact ⟨us, t, rest, m, rfl, hm, .of_begins hus, hq.not_viable hn' hs hblames⟩

end Strict

theorem program_strict : Strict .expr program expr :=
  ⟨program_faithful, program_closes, expr_derives, expr_local⟩

theorem type_strict : Strict .type (fun D => closed (type D)) type :=
  ⟨type_faithful, fun D => closed_closes (type D), type_derives, type_local⟩

theorem kind_strict : Strict .kind (fun D => closed (kind D)) kind :=
  ⟨kind_faithful, fun D => closed_closes (kind D), kind_derives, kind_local⟩

/-- Of a text whose tokens can be told apart and whose numerals can be read, expressions, types and
kinds that do not nest too deep are refused at the first token with which no phrase can go on. -/
theorem blames_first_impossible {file : Option String} {text : String} {ts : List Token}
    (hlex : Token.lex file text = .ok ts) (hn : Readable ts) (depth : Nat) :
    BlamesFirst .expr ts (Expr.parse text file depth) ∧
      (file = none →
        BlamesFirst .type ts (TypeExpr.parse text depth) ∧
        BlamesFirst .kind ts (KindExpr.parse text depth)) := by
  refine ⟨program_strict.blamesFirst hlex hn depth, ?_⟩
  rintro rfl
  exact ⟨type_strict.blamesFirst hlex hn depth, kind_strict.blamesFirst hlex hn depth⟩

/-- A number among the arguments of a type: the bracket in front of it could have been closed. -/
theorem blames_first_impossible_number :
    let text := "f [X 7]"
    ∃ ts, Token.lex none text = .ok ts ∧ Readable ts ∧
      Expr.parse text = .error (.unexpected (.token .rbracket) .numeral ⟨1, 6, none⟩) ∧
      ∃ us t rest, ts = us ++ t :: rest ∧ t.loc = ⟨1, 6, none⟩ ∧
        Viable .expr us ∧ ¬ Viable .expr (us ++ [t]) := by
  intro text
  let ts : List Token := [⟨.lowerName, "f", ⟨1, 1, none⟩⟩, ⟨.lbracket, "[", ⟨1, 3, none⟩⟩,
    ⟨.upperName, "X", ⟨1, 4, none⟩⟩, ⟨.numeral, "7", ⟨1, 6, none⟩⟩, ⟨.rbracket, "]", ⟨1, 7, none⟩⟩,
    ⟨.eof, "", ⟨1, 8, none⟩⟩]
  have hlex : Token.lex none text = .ok ts := toOption_eq_some.1 (by decide +kernel)
  have hseven : Numeral.read "7" = .ok 7 := toOption_eq_some.1 (by decide +kernel)
  have hn : Readable ts := by
    have htext : ∀ t ∈ ts, t.kind = .numeral → t.text = "7" := by decide
    exact fun t ht hk => ⟨7, htext t ht hk ▸ hseven⟩
  have herror : Expr.parse text =
      .error (.unexpected (.token .rbracket) .numeral ⟨1, 6, none⟩) :=
    error?_eq_some.1 (by decide +kernel)
  obtain ⟨l, hl⟩ | ⟨us, t, rest, m, hts, hfault, hus, hnot⟩ :=
    (blames_first_impossible hlex hn maxDepth).1 _ herror
  · cases hl
  · refine ⟨ts, hlex, hn, herror, us, t, rest, hts, ?_, hus, hnot⟩
    have hloc : some _ = some t.loc := congrArg (·.details.loc) (Fault.diagnostic.inj hfault)
    exact (Option.some.inj hloc).symm

end Parser

end SystemFOmega
