import SystemFOmega.Proofs.Surface.Reading
import SystemFOmega.Proofs.Token.Lexer

/-!
# Readers recognize the grammar

What a reader gives is denoted by a derivation of the tokens that it has taken
(`Parser.expr_derives`), so that the texts that are read are the texts of the grammar
(`Parser.recognizes_grammar`). Where a reader fails at a token, those that it has taken are the
first ones of a phrase (`Parser.Explained`).
-/

namespace SystemFOmega

open Grammar Run

namespace Parser

variable {α β : Type} {k : TokenKind} {ts r : List Token}

/-! ## Phrases that have begun -/

/-- A token of the class `k` that nobody has written. -/
instance (k : TokenKind) : Inhabited (Terminal k) := ⟨⟨⟨k, "", ⟨1, 1, none⟩⟩, rfl⟩⟩

/-- Every nonterminal has a phrase. -/
instance (n : Nonterminal) : Inhabited (Derivation n) where
  default := match n with
    | .expr => .exprApp (.app (.name default) .argsNil)
    | .app => .app (.name default) .argsNil
    | .args => .argsNil
    | .atom => .name default
    | .type => .typeApp (.tapp (.int default) .targsNil)
    | .tapp => .tapp (.int default) .targsNil
    | .targs => .targsNil
    | .tatom => .int default
    | .kind => .kindAtom (.star default)
    | .katom => .star default

/-- The tokens of `whole` in front of `s` are the first ones of `sentence`. -/
def Begins (s whole sentence : List Token) : Prop := ∃ us, whole = us ++ s ∧ us <+: sentence

namespace Begins

variable {s whole sentence : List Token}

theorem self (s sentence : List Token) : Begins s s sentence := ⟨[], rfl, List.nil_prefix⟩

theorem cons (t : Token) (h : Begins s whole sentence) :
    Begins s (t :: whole) (t :: sentence) := by
  obtain ⟨us, rfl, hus⟩ := h
  exact ⟨t :: us, rfl, List.cons_prefix_cons.2 ⟨rfl, hus⟩⟩

/-- A phrase in front of what begins a sentence begins one as well. -/
theorem phrase {n : Nonterminal} (d : Derivation n) (h : Begins s whole sentence) :
    Begins s (d.tokens whole) (d.tokens sentence) := by
  obtain ⟨us, rfl, hus⟩ := h
  refine ⟨d.tokens us, d.tokens_append us s, ?_⟩
  rw [d.tokens_eq us, d.tokens_eq sentence]
  exact (List.prefix_append_right_inj _).2 hus

/-- What begins a phrase begins it in front of anything. -/
theorem more {n : Nonterminal} {d : Derivation n} (h : Begins s whole (d.tokens []))
    (r : List Token) : Begins s whole (d.tokens r) := by
  obtain ⟨us, hwhole, hus⟩ := h
  refine ⟨us, hwhole, ?_⟩
  rw [d.tokens_eq]
  exact hus.trans (List.prefix_append _ _)

end Begins

/-- The fault is that of the token `t`, which is not wanted where it stands. -/
def Blames (t : Token) (f : ReadFault) : Prop :=
  (∃ w, f = .unexpected w t.kind t.loc) ∨ f = .trailing t.kind t.loc

/-- The numerals among the tokens can be read. -/
def Readable (ts : List Token) : Prop :=
  ∀ t ∈ ts, t.kind = .numeral → ∃ n, Numeral.read t.text = .ok n

/-- Why the tokens `whole` are not read as a phrase of `n` by a reader that fails with `f` in front
of `s`: the phrase nests too deep, a numeral cannot be read, or a phrase begins with the tokens in
front of `s`, and the first token of `s` is to blame. -/
inductive Explained (n : Nonterminal) (whole : List Token) : ReadFault → List Token → Prop
  | tooDeep (l : Location) (s : List Token) : Explained n whole (.tooDeep l) s
  | numeral {g : Numeral.Fault} {s : List Token} : ¬ Readable whole →
    Explained n whole (.numeral g) s
  | unwanted {f : ReadFault} {s : List Token} (d : Derivation n) : Begins s whole (d.tokens []) →
    Blames (front s) f → Explained n whole f s

/-- A fault in a part of a phrase. -/
theorem Explained.within {m n : Nonterminal} {whole s : List Token} {f : ReadFault}
    (h : Explained m ts f s) (C : Derivation m → Derivation n)
    (hC : ∀ d s, (∀ r, Begins s ts (d.tokens r)) → Begins s whole ((C d).tokens [])) :
    Explained n whole f s := by
  cases h with
  | tooDeep => exact .tooDeep _ _
  | numeral hn =>
    obtain ⟨us, rfl, -⟩ := hC default ts fun _ => .self _ _
    exact .numeral fun hr => hn (List.forall_mem_append.1 hr).2
  | unwanted d hd hf => exact .unwanted (C d) (hC d _ hd.more) hf

/-! ## What is read is derived -/

/-- `p` from `ts` ends well with a result and tokens that satisfy `P`, or fails to read a phrase of
`n` from `whole`. -/
def Tries (n : Nonterminal) (whole : List Token) (p : Parse α) (ts : List Token)
    (P : α → List Token → Prop) : Prop :=
  match p ts with
  | .ok a rest => P a rest
  | .error f s => Explained n whole f s

/-- What the reader gives is denoted by a derivation of the tokens that it takes. -/
def Derives (n : Nonterminal) (p : Parse n.Meaning) (D : Nat) : Prop :=
  ∀ ts, Tries n ts p ts fun v rest => ∃ d : Derivation n,
    ts = d.tokens rest ∧ d.tree = v ∧ d.nesting ≤ D ∧ d.Readable

/-- If the token in front is not `eof`, the text begins with it. -/
theorem exists_terminal (h : (front ts).kind = k) (hk : k ≠ .eof) :
    ∃ (t : Terminal k) (r : List Token), ts = t.1 :: r := by
  cases ts with
  | nil => exact absurd h.symm hk
  | cons t r => exact ⟨⟨t, h⟩, r, rfl⟩

/-- A token of another class is to blame. -/
theorem expect_other (h : (front ts).kind ≠ k) :
    expect k ts = .error (.unexpected (.token k) (front ts).kind (front ts).loc) ts := by
  show (if (front ts).kind = k then _ else _ : Parse Token) ts = _
  rw [if_neg h]
  rfl

namespace Tries

variable {m n : Nonterminal} {whole : List Token} {P : β → List Token → Prop}

theorem pure {b : β} (h : P b ts) : Tries n whole (Pure.pure b) ts P := h

/-- What is known of what has been read. -/
theorem of_ok {p : Parse β} {b : β} (h : Tries n whole p ts P) (hp : p ts = .ok b r) : P b r := by
  unfold Tries at h
  rwa [hp] at h

/-- What is known of a fault. -/
theorem of_error {p : Parse β} {f : ReadFault} (h : Tries n whole p ts P)
    (hp : p ts = .error f r) : Explained n whole f r := by
  unfold Tries at h
  rwa [hp] at h

theorem mono {p : Parse β} {R : β → List Token → Prop} (h : Tries n whole p ts P)
    (hPR : ∀ b r, P b r → R b r) : Tries n whole p ts R := by
  unfold Tries at h ⊢
  split at h
  · exact hPR _ _ h
  · exact h

/-- What is tried for a part of a phrase. -/
theorem within {p : Parse β} (h : Tries m ts p ts P) (C : Derivation m → Derivation n)
    (hC : ∀ d s, (∀ r, Begins s ts (d.tokens r)) → Begins s whole ((C d).tokens [])) :
    Tries n whole p ts P := by
  unfold Tries at h ⊢
  split at h
  · exact h
  · exact h.within C hC

/-- One reader after the other. -/
theorem bind {p : Parse α} {f : α → Parse β} {R : α → List Token → Prop} (h : Tries n whole p ts R)
    (hf : ∀ a r, R a r → Tries n whole (f a) r P) : Tries n whole (p >>= f) ts P := by
  cases hp : p ts with
  | ok a r =>
    unfold Tries
    rw [bind_of_ok f hp]
    exact hf a r (h.of_ok hp)
  | error e r =>
    unfold Tries
    rw [bind_of_error f hp]
    exact h.of_error hp

theorem peek {f : Token → Parse β} (hf : Tries n whole (f (front ts)) ts P) :
    Tries n whole (peek >>= f) ts P :=
  hf

theorem skip {f : Unit → Parse β} {t : Token} (hf : Tries n whole (f ()) r P) :
    Tries n whole (skip >>= f) (t :: r) P :=
  hf

/-- A reader may give up where a phrase has begun. -/
theorem failWanted {w : Wanted} (d : Derivation n) (hd : Begins ts whole (d.tokens [])) :
    Tries n whole (failWanted w) ts P :=
  .unwanted d hd (.inl ⟨w, rfl⟩)

/-- A reader may want a token where a phrase has begun. -/
theorem expect {f : Token → Parse β} (hk : k ≠ .eof) (d : Derivation n)
    (hd : Begins ts whole (d.tokens []))
    (hf : ∀ (t : Terminal k) (r : List Token), ts = t.1 :: r → Tries n whole (f t.1) r P) :
    Tries n whole (expect k >>= f) ts P := by
  by_cases h : (front ts).kind = k
  · obtain ⟨t, r, rfl⟩ := exists_terminal h hk
    unfold Tries
    rw [bind_of_ok f (expect_terminal t r)]
    exact hf t r rfl
  · unfold Tries
    rw [bind_of_error f (expect_other h)]
    exact .unwanted d hd (.inl ⟨_, rfl⟩)

theorem accept {f : Bool → Parse β} (hk : k ≠ .eof)
    (htrue : ∀ (t : Terminal k) (r : List Token), ts = t.1 :: r → Tries n whole (f true) r P)
    (hfalse : Tries n whole (f false) ts P) : Tries n whole (accept k >>= f) ts P := by
  by_cases h : (front ts).kind = k
  · obtain ⟨t, r, rfl⟩ := exists_terminal h hk
    unfold Tries
    rw [bind_of_ok f (accept_terminal t r)]
    exact htrue t r rfl
  · unfold Tries
    rw [bind_of_ok f (accept_other h)]
    exact hfalse

/-- A part of a phrase is read. -/
theorem part {p : Parse m.Meaning} {D : Nat} {f : m.Meaning → Parse β} (hp : Derives m p D)
    (C : Derivation m → Derivation n)
    (hC : ∀ d s, (∀ r, Begins s ts (d.tokens r)) → Begins s whole ((C d).tokens []))
    (hf : ∀ (d : Derivation m) (r : List Token), ts = d.tokens r → d.nesting ≤ D → d.Readable →
      Tries n whole (f d.tree) r P) : Tries n whole (p >>= f) ts P := by
  refine ((hp ts).within C hC).bind ?_
  rintro _ r ⟨d, hts, rfl, hD, hd⟩
  exact hf d r hts hD hd

end Tries

section Sound

open Derivation Begins

variable {D : Nat} {innerKind : Parse KindExpr} {innerType : Parse TypeExpr} {inner : Parse Expr}

theorem atomicKind_derives (hk : Derives .kind innerKind D) :
    Derives .katom (atomicKind innerKind) D := by
  intro ts
  unfold atomicKind
  refine .peek ?_
  split
  · rename_i h
    obtain ⟨t, r, rfl⟩ := exists_terminal h (by decide)
    exact ⟨star t, rfl, rfl, Nat.zero_le D, trivial⟩
  · rename_i h
    obtain ⟨x, r, rfl⟩ := exists_terminal h (by decide)
    exact ⟨kindName x, rfl, rfl, Nat.zero_le D, trivial⟩
  · rename_i h
    obtain ⟨left, r, rfl⟩ := exists_terminal h (by decide)
    refine .skip (.part hk (kindParens left · default) (fun _ _ h => (h _).cons _) ?_)
    rintro k s rfl hk -
    refine .expect (by decide) (kindParens left k default) ((phrase _ (self _ _)).cons _) ?_
    rintro right s rfl
    exact .pure ⟨kindParens left k right, rfl, rfl, hk, trivial⟩
  · exact .failWanted default (self _ _)

/-- What is read as a kind is derived by the grammar. -/
theorem kind_derives (D : Nat) : Derives .kind (kind D) D := by
  induction D with
  | zero => exact fun _ => .tooDeep _ _
  | succ D ih =>
    intro ts
    refine .part (atomicKind_derives ih) kindAtom (fun _ _ h => h _) ?_
    rintro j s rfl hj -
    refine .accept (by decide) ?_ ?_
    · rintro arrow s rfl
      refine .part ih (kindArrow j arrow ·) (fun _ _ h => phrase _ ((h _).cons _)) ?_
      rintro k s rfl hk -
      exact .pure ⟨kindArrow j arrow k, rfl, rfl, Nat.succ_le_succ (Nat.max_le.2 ⟨hj, hk⟩), trivial⟩
    · exact .pure ⟨kindAtom j, rfl, rfl, Nat.succ_le_succ hj, trivial⟩

theorem atomicType_derives (hk : Derives .kind innerKind D) (ht : Derives .type innerType D) :
    Derives .tatom (atomicType innerKind innerType) D := by
  intro ts
  unfold atomicType
  refine .peek ?_
  split
  · rename_i h
    obtain ⟨t, r, rfl⟩ := exists_terminal h (by decide)
    exact ⟨int t, rfl, rfl, Nat.zero_le D, trivial⟩
  · rename_i h
    obtain ⟨x, r, rfl⟩ := exists_terminal h (by decide)
    exact ⟨typeName x, rfl, rfl, Nat.zero_le D, trivial⟩
  · rename_i h
    obtain ⟨left, r, rfl⟩ := exists_terminal h (by decide)
    refine .skip (.part ht (typeParens left · default) (fun _ _ h => (h _).cons _) ?_)
    rintro t s rfl ht -
    refine .accept (by decide) ?_ ?_
    · rintro colon s rfl
      refine .part hk (typeKinded left t colon · default)
        (fun _ _ h => (phrase _ ((h _).cons _)).cons _) ?_
      rintro k s rfl hk -
      refine .expect (by decide) (typeKinded left t colon k default)
        ((phrase _ ((phrase _ (self _ _)).cons _)).cons _) ?_
      rintro right s rfl
      exact .pure ⟨typeKinded left t colon k right, rfl, rfl, Nat.max_le.2 ⟨ht, hk⟩, trivial⟩
    · refine .expect (by decide) (typeParens left t default) ((phrase _ (self _ _)).cons _) ?_
      rintro right s rfl
      exact .pure ⟨typeParens left t right, rfl, rfl, ht, trivial⟩
  · exact .failWanted default (self _ _)

/-- Arguments of a type. -/
theorem typeArguments_derives (ha : Derives .tatom (atomicType (kind D) (type D)) D)
    (room : List Token) (left : TypeExpr) (ts : List Token) :
    Tries .targs ts (extend startsAtomicType (typeArgument D) room left) ts fun v rest =>
      ∃ as : Derivation .targs, ts = as.tokens rest ∧ as.tree left = v ∧ as.nesting ≤ D := by
  induction room generalizing left ts with
  | nil => exact ⟨targsNil, rfl, rfl, Nat.zero_le D⟩
  | cons t room ih =>
    show Tries _ _ (if startsAtomicType (front ts).kind = true then _ else _) ts _
    split
    · show Tries _ _ ((atomicType (kind D) (type D) >>= _) >>= _) ts _
      rw [bind_assoc]
      refine .part ha (targsCons · targsNil) (fun _ _ h => h _) ?_
      rintro a s rfl ha -
      refine ((ih (.app left a.tree) s).within (targsCons a ·) fun _ _ h => phrase _ (h _)).mono ?_
      rintro _ s ⟨as, rfl, rfl, has⟩
      exact ⟨targsCons a as, rfl, rfl, Nat.max_le.2 ⟨ha, has⟩⟩
    · exact ⟨targsNil, rfl, rfl, Nat.zero_le D⟩

theorem tapp_derives (ha : Derives .tatom (atomicType (kind D) (type D)) D) :
    Derives .tapp (atomicType (kind D) (type D) >>= spine startsAtomicType (typeArgument D)) D := by
  intro ts
  refine .part ha (tapp · targsNil) (fun _ _ h => h _) ?_
  rintro f s rfl hf -
  refine ((typeArguments_derives ha s f.tree s).within (tapp f ·)
    fun _ _ h => phrase _ (h _)).mono ?_
  rintro _ s ⟨as, rfl, rfl, has⟩
  exact ⟨tapp f as, rfl, rfl, Nat.max_le.2 ⟨hf, has⟩, trivial⟩

theorem binderType_derives {b : Binder} {start : Terminal (sign b)} (hk : Derives .kind innerKind D)
    (ht : Derives .type innerType D) :
    Tries .type (start.1 :: r) (binderType b innerKind innerType) (start.1 :: r) fun v rest =>
      ∃ d : Derivation .type,
        start.1 :: r = d.tokens rest ∧ d.tree = v ∧ d.nesting ≤ D + 1 ∧ d.Readable := by
  refine .skip (.expect (by decide) (typeBinder b start default default default default default)
    ((self _ _).cons _) ?_)
  rintro x s rfl
  refine .expect (by decide) (typeBinder b start x default default default default)
    (((self _ _).cons _).cons _) ?_
  rintro colon s rfl
  refine .part hk (typeBinder b start x colon · default default)
    (fun _ _ h => (((h _).cons _).cons _).cons _) ?_
  rintro k s rfl hk -
  refine .expect (by decide) (typeBinder b start x colon k default default)
    ((((phrase _ (self _ _)).cons _).cons _).cons _) ?_
  rintro dot s rfl
  refine .part ht (typeBinder b start x colon k dot ·)
    (fun _ _ h => (((phrase _ ((h _).cons _)).cons _).cons _).cons _) ?_
  rintro t s rfl ht -
  exact .pure ⟨typeBinder b start x colon k dot t, rfl, rfl,
    Nat.succ_le_succ (Nat.max_le.2 ⟨hk, ht⟩), trivial⟩

/-- What is read as a type is derived by the grammar. -/
theorem type_derives (D : Nat) : Derives .type (type D) D := by
  induction D with
  | zero => exact fun _ => .tooDeep _ _
  | succ D ih =>
    have hk := kind_derives D
    intro ts
    rw [type]
    refine .peek ?_
    split
    · rename_i h
      obtain ⟨start, r, rfl⟩ := exists_terminal (k := sign .all) h (by decide)
      exact binderType_derives hk ih
    · rename_i h
      obtain ⟨start, r, rfl⟩ := exists_terminal (k := sign .lam) h (by decide)
      exact binderType_derives hk ih
    · show Tries _ _ (atomicType (kind D) (type D) >>= fun f =>
        spine startsAtomicType (typeArgument D) f >>= _) ts _
      rw [← bind_assoc]
      refine .part (tapp_derives (atomicType_derives hk ih)) typeApp (fun _ _ h => h _) ?_
      rintro t s rfl ht -
      refine .accept (by decide) ?_ ?_
      · rintro arrow s rfl
        refine .part ih (typeArrow t arrow ·) (fun _ _ h => phrase _ ((h _).cons _)) ?_
        rintro u s rfl hu -
        exact .pure ⟨typeArrow t arrow u, rfl, rfl,
          Nat.succ_le_succ (Nat.max_le.2 ⟨ht, hu⟩), trivial⟩
      · exact .pure ⟨typeApp t, rfl, rfl, Nat.succ_le_succ ht, trivial⟩

theorem atomicExpr_derives (ht : Derives .type innerType D) (he : Derives .expr inner D) :
    Derives .atom (atomicExpr innerType inner) D := by
  intro ts
  unfold atomicExpr
  refine .peek ?_
  split
  · rename_i h
    obtain ⟨n, r, rfl⟩ := exists_terminal h (by decide)
    refine .skip ?_
    split
    · rename_i m hm
      exact .pure ⟨numeral n, rfl, by rw [← Numeral.value_of_read hm]; rfl, Nat.zero_le D, m, hm⟩
    · rename_i g hg
      -- a numeral that cannot be read is explained by itself
      refine .numeral fun hr => ?_
      obtain ⟨m, hm⟩ := hr n.1 List.mem_cons_self n.2
      cases hm.symm.trans hg
  · rename_i h
    obtain ⟨x, r, rfl⟩ := exists_terminal h (by decide)
    exact ⟨name x, rfl, rfl, Nat.zero_le D, trivial⟩
  · rename_i h
    obtain ⟨left, r, rfl⟩ := exists_terminal h (by decide)
    refine .skip (.part he (parens left · default) (fun _ _ h => (h _).cons _) ?_)
    rintro e s rfl he he'
    refine .accept (by decide) ?_ ?_
    · rintro colon s rfl
      refine .part ht (annotated left e colon · default)
        (fun _ _ h => (phrase _ ((h _).cons _)).cons _) ?_
      rintro t s rfl ht -
      refine .expect (by decide) (annotated left e colon t default)
        ((phrase _ ((phrase _ (self _ _)).cons _)).cons _) ?_
      rintro right s rfl
      exact .pure ⟨annotated left e colon t right, rfl, rfl, Nat.max_le.2 ⟨he, ht⟩, he'⟩
    · refine .expect (by decide) (parens left e default) ((phrase _ (self _ _)).cons _) ?_
      rintro right s rfl
      exact .pure ⟨parens left e right, rfl, rfl, he, he'⟩
  · exact .failWanted default (self _ _)

/-- Arguments of an expression. -/
theorem arguments_derives (ht : Derives .type innerType D) (he : Derives .expr inner D)
    (room : List Token) (left : Expr) (ts : List Token) :
    Tries .args ts (extend startsArgument (argument innerType inner) room left) ts fun v rest =>
      ∃ as : Derivation .args,
        ts = as.tokens rest ∧ as.tree left = v ∧ as.nesting ≤ D ∧ as.Readable := by
  induction room generalizing left ts with
  | nil => exact ⟨argsNil, rfl, rfl, Nat.zero_le D, trivial⟩
  | cons t room ih =>
    show Tries _ _ (if startsArgument (front ts).kind = true then _ else _) ts _
    split
    -- what has been read is still a phrase, with no further arguments, should the next one fail
    · show Tries _ _ ((accept .lbracket >>= _) >>= _) ts _
      rw [bind_assoc]
      refine .accept (by decide) ?_ ?_
      · rintro bracket s rfl
        show Tries _ _ ((innerType >>= _) >>= _) s _
        rw [bind_assoc]
        refine .part ht (argsType bracket · default argsNil) (fun _ _ h => (h _).cons _) ?_
        rintro t s rfl ht -
        show Tries _ _ ((expect .rbracket >>= _) >>= _) s _
        rw [bind_assoc]
        refine .expect (by decide) (argsType bracket t default argsNil)
          ((phrase _ (self _ _)).cons _) ?_
        rintro right s rfl
        refine ((ih (.tapp left t.tree left.loc) s).within (argsType bracket t right ·)
          fun _ _ h => (phrase _ ((h _).cons _)).cons _).mono ?_
        rintro _ r ⟨as, rfl, rfl, has, has'⟩
        exact ⟨argsType bracket t right as, rfl, rfl, Nat.max_le.2 ⟨ht, has⟩, has'⟩
      · show Tries _ _ ((atomicExpr innerType inner >>= _) >>= _) ts _
        rw [bind_assoc]
        refine .part (atomicExpr_derives ht he) (argsExpr · argsNil) (fun _ _ h => h _) ?_
        rintro a s rfl ha ha'
        refine ((ih (.app left a.tree left.loc) s).within (argsExpr a ·)
          fun _ _ h => phrase _ (h _)).mono ?_
        rintro _ r ⟨as, rfl, rfl, has, has'⟩
        exact ⟨argsExpr a as, rfl, rfl, Nat.max_le.2 ⟨ha, has⟩, ha', has'⟩
    · exact ⟨argsNil, rfl, rfl, Nat.zero_le D, trivial⟩

theorem app_derives (ht : Derives .type innerType D) (he : Derives .expr inner D) :
    Derives .app
      (atomicExpr innerType inner >>= spine startsArgument (argument innerType inner)) D := by
  intro ts
  refine .part (atomicExpr_derives ht he) (app · argsNil) (fun _ _ h => h _) ?_
  rintro f s rfl hf hf'
  refine ((arguments_derives ht he s f.tree s).within (app f ·) fun _ _ h => phrase _ (h _)).mono ?_
  rintro _ s ⟨as, rfl, rfl, has, has'⟩
  exact ⟨app f as, rfl, rfl, Nat.max_le.2 ⟨hf, has⟩, hf', has'⟩

theorem letBinding_derives (ht : Derives .type innerType D) (he : Derives .expr inner D) :
    Derives .expr (letBinding innerType inner) (D + 1) := by
  intro ts
  refine .expect (by decide) default (self _ _) ?_
  rintro start s rfl
  refine .expect (by decide) (letIn start default default default default default default default)
    ((self _ _).cons _) ?_
  rintro x s rfl
  refine .expect (by decide) (letIn start x default default default default default default)
    (((self _ _).cons _).cons _) ?_
  rintro colon s rfl
  refine .part ht (letIn start x colon · default default default default)
    (fun _ _ h => (((h _).cons _).cons _).cons _) ?_
  rintro t s rfl ht -
  refine .expect (by decide) (letIn start x colon t default default default default)
    ((((phrase _ (self _ _)).cons _).cons _).cons _) ?_
  rintro equals s rfl
  refine .part he (letIn start x colon t equals · default default)
    (fun _ _ h => (((phrase _ ((h _).cons _)).cons _).cons _).cons _) ?_
  rintro v s rfl hv hv'
  refine .expect (by decide) (letIn start x colon t equals v default default)
    ((((phrase _ ((phrase _ (self _ _)).cons _)).cons _).cons _).cons _) ?_
  rintro within s rfl
  refine .part he (letIn start x colon t equals v within ·)
    (fun _ _ h => (((phrase _ ((phrase _ ((h _).cons _)).cons _)).cons _).cons _).cons _) ?_
  rintro e s rfl he he'
  exact .pure ⟨letIn start x colon t equals v within e, rfl, rfl,
    Nat.succ_le_succ (Nat.max_le.2 ⟨ht, Nat.max_le.2 ⟨hv, he⟩⟩), hv', he'⟩

theorem typeBinding_derives (hk : Derives .kind innerKind D) (ht : Derives .type innerType D)
    (he : Derives .expr inner D) :
    Derives .expr (typeBinding innerKind innerType inner) (D + 1) := by
  intro ts
  refine .expect (by decide) default (self _ _) ?_
  rintro start s rfl
  refine .expect (by decide) (typeIn start default default default default default default default)
    ((self _ _).cons _) ?_
  rintro x s rfl
  refine .expect (by decide) (typeIn start x default default default default default default)
    (((self _ _).cons _).cons _) ?_
  rintro colon s rfl
  refine .part hk (typeIn start x colon · default default default default)
    (fun _ _ h => (((h _).cons _).cons _).cons _) ?_
  rintro k s rfl hk -
  refine .expect (by decide) (typeIn start x colon k default default default default)
    ((((phrase _ (self _ _)).cons _).cons _).cons _) ?_
  rintro equals s rfl
  refine .part ht (typeIn start x colon k equals · default default)
    (fun _ _ h => (((phrase _ ((h _).cons _)).cons _).cons _).cons _) ?_
  rintro v s rfl hv -
  refine .expect (by decide) (typeIn start x colon k equals v default default)
    ((((phrase _ ((phrase _ (self _ _)).cons _)).cons _).cons _).cons _) ?_
  rintro within s rfl
  refine .part he (typeIn start x colon k equals v within ·)
    (fun _ _ h => (((phrase _ ((phrase _ ((h _).cons _)).cons _)).cons _).cons _).cons _) ?_
  rintro e s rfl he he'
  exact .pure ⟨typeIn start x colon k equals v within e, rfl, rfl,
    Nat.succ_le_succ (Nat.max_le.2 ⟨hk, Nat.max_le.2 ⟨hv, he⟩⟩), he'⟩

theorem kindBinding_derives (hk : Derives .kind innerKind D) (he : Derives .expr inner D) :
    Derives .expr (kindBinding innerKind inner) (D + 1) := by
  intro ts
  refine .expect (by decide) default (self _ _) ?_
  rintro start s rfl
  refine .expect (by decide) (kindIn start default default default default default)
    ((self _ _).cons _) ?_
  rintro x s rfl
  refine .expect (by decide) (kindIn start x default default default default)
    (((self _ _).cons _).cons _) ?_
  rintro equals s rfl
  refine .part hk (kindIn start x equals · default default)
    (fun _ _ h => (((h _).cons _).cons _).cons _) ?_
  rintro v s rfl hv -
  refine .expect (by decide) (kindIn start x equals v default default)
    ((((phrase _ (self _ _)).cons _).cons _).cons _) ?_
  rintro within s rfl
  refine .part he (kindIn start x equals v within ·)
    (fun _ _ h => (((phrase _ ((h _).cons _)).cons _).cons _).cons _) ?_
  rintro e s rfl he he'
  exact .pure ⟨kindIn start x equals v within e, rfl, rfl,
    Nat.succ_le_succ (Nat.max_le.2 ⟨hv, he⟩), he'⟩

theorem abstraction_derives (hk : Derives .kind innerKind D) (ht : Derives .type innerType D)
    (he : Derives .expr inner D) :
    Derives .expr (abstraction innerKind innerType inner) (D + 1) := by
  intro ts
  -- at each token that is wanted, the phrase is completed by default parts
  refine .expect (by decide) default (self _ _) ?_
  rintro start ts rfl
  show Tries _ _ (if (front ts).kind = .upperName then _ else _) ts _
  split
  · rename_i h
    obtain ⟨x, s, rfl⟩ := exists_terminal h (by decide)
    refine .skip (.expect (by decide) (tlam start x default default default default)
      (((self _ _).cons _).cons _) ?_)
    rintro colon s rfl
    refine .part hk (tlam start x colon · default default)
      (fun _ _ h => (((h _).cons _).cons _).cons _) ?_
    rintro k s rfl hk -
    refine .expect (by decide) (tlam start x colon k default default)
      ((((phrase _ (self _ _)).cons _).cons _).cons _) ?_
    rintro dot s rfl
    refine .part he (tlam start x colon k dot ·)
      (fun _ _ h => (((phrase _ ((h _).cons _)).cons _).cons _).cons _) ?_
    rintro e s rfl he he'
    exact .pure ⟨tlam start x colon k dot e, rfl, rfl,
      Nat.succ_le_succ (Nat.max_le.2 ⟨hk, he⟩), he'⟩
  · refine .expect (by decide) (lam start default default default default default)
      ((self _ _).cons _) ?_
    rintro x s rfl
    refine .expect (by decide) (lam start x default default default default)
      (((self _ _).cons _).cons _) ?_
    rintro colon s rfl
    refine .part ht (lam start x colon · default default)
      (fun _ _ h => (((h _).cons _).cons _).cons _) ?_
    rintro t s rfl ht -
    refine .expect (by decide) (lam start x colon t default default)
      ((((phrase _ (self _ _)).cons _).cons _).cons _) ?_
    rintro dot s rfl
    refine .part he (lam start x colon t dot ·)
      (fun _ _ h => (((phrase _ ((h _).cons _)).cons _).cons _).cons _) ?_
    rintro e s rfl he he'
    exact .pure ⟨lam start x colon t dot e, rfl, rfl,
      Nat.succ_le_succ (Nat.max_le.2 ⟨ht, he⟩), he'⟩

/-- What is read as an expression is derived by the grammar. -/
theorem expr_derives (D : Nat) : Derives .expr (expr D) D := by
  induction D with
  | zero => exact fun _ => .tooDeep _ _
  | succ D ih =>
    have hk := kind_derives D
    have ht := type_derives D
    intro ts
    unfold Tries
    rw [expr_succ]
    show Tries _ _ _ ts _
    split
    · exact letBinding_derives ht ih ts
    · exact typeBinding_derives hk ht ih ts
    · exact kindBinding_derives hk ih ts
    · exact abstraction_derives hk ht ih ts
    · refine ((app_derives ht ih ts).within exprApp fun _ _ h => h _).mono ?_
      rintro _ s ⟨e, rfl, rfl, he, he'⟩
      exact ⟨exprApp e, rfl, rfl, Nat.succ_le_succ he, he'⟩

end Sound

/-! ## Whole texts -/

/-- The reader `q` reads as `p` does, and then nothing but `eof`. -/
structure Closes (q p : Parse α) : Prop where
  of_ok {ts rest : List Token} {a : α} : p ts = .ok a rest → (front rest).kind = .eof →
    ∃ s, q ts = .ok a s
  ok {ts s : List Token} {a : α} : q ts = .ok a s →
    ∃ rest, p ts = .ok a rest ∧ (front rest).kind = .eof
  of_error {ts s : List Token} {f : ReadFault} : p ts = .error f s → q ts = .error f s
  of_more {ts rest : List Token} {a : α} : p ts = .ok a rest → (front rest).kind ≠ .eof →
    ∃ f, q ts = .error f rest ∧ Blames (front rest) f

/-- The closed reader fails where the other does, or at what is left behind the phrase. -/
theorem Closes.error {q p : Parse α} {s : List Token} {f : ReadFault} (hq : Closes q p)
    (h : q ts = .error f s) :
    p ts = .error f s ∨ ∃ a, p ts = .ok a s ∧ (front s).kind ≠ .eof ∧ Blames (front s) f := by
  cases hp : p ts with
  | error g r =>
    obtain ⟨rfl, rfl⟩ := EStateM.Result.error.inj ((hq.of_error hp).symm.trans h)
    exact .inl rfl
  | ok a r =>
    by_cases heof : (front r).kind = .eof
    · obtain ⟨s', hs'⟩ := hq.of_ok hp heof
      cases hs'.symm.trans h
    · obtain ⟨g, hg, hblames⟩ := hq.of_more hp heof
      obtain ⟨rfl, rfl⟩ := EStateM.Result.error.inj (hg.symm.trans h)
      exact .inr ⟨a, rfl, heof, hblames⟩

/-- A program is an expression and nothing else. -/
theorem program_closes (D : Nat) : Closes (program D) (expr D) where
  of_ok {ts rest a} h heof := by
    refine ⟨rest, ?_⟩
    unfold program
    rw [bind_of_ok _ h]
    show (if (front rest).kind = .eof then _ else _ : Parse Expr) rest = _
    rw [if_pos heof]
    rfl
  ok {ts s a} h := by
    obtain ⟨e, rest, he, h⟩ := bind_ok.1 h
    have h : (if (front rest).kind = .eof then pure e else _ : Parse Expr) rest = .ok a s := h
    split at h
    · rename_i heof
      obtain ⟨rfl, -⟩ := pure_ok.1 h
      exact ⟨rest, he, heof⟩
    · exact absurd h throw_ok
  of_error h := bind_of_error _ h
  of_more {ts rest a} h heof := by
    refine ⟨.trailing (front rest).kind (front rest).loc, ?_, .inr rfl⟩
    unfold program
    rw [bind_of_ok _ h]
    show (if (front rest).kind = .eof then _ else _ : Parse Expr) rest = _
    rw [if_neg heof]
    rfl

/-- A closed text is one phrase and nothing else. -/
theorem closed_closes (p : Parse α) : Closes (closed p) p where
  of_ok {ts rest a} h heof := by
    refine ⟨rest.tail, ?_⟩
    unfold closed
    rw [bind_of_ok _ h]
    have hexpect : expect .eof rest = .ok (front rest) rest.tail := by
      show (if (front rest).kind = .eof then _ else _ : Parse Token) rest = _
      rw [if_pos heof]
      rfl
    rw [bind_of_ok _ hexpect]
    rfl
  ok {ts s a} h := by
    obtain ⟨b, rest, hb, h⟩ := bind_ok.1 h
    obtain ⟨t, s', ht, h⟩ := bind_ok.1 h
    obtain ⟨rfl, -⟩ := pure_ok.1 h
    have ht : (if (front rest).kind = .eof then _ else _ : Parse Token) rest = .ok t s' := ht
    split at ht
    · rename_i heof
      exact ⟨rest, hb, heof⟩
    · cases ht
  of_error h := bind_of_error _ h
  of_more {ts rest a} h heof := by
    refine ⟨_, ?_, .inl ⟨.token .eof, rfl⟩⟩
    unfold closed
    rw [bind_of_ok _ h, bind_of_error _ (expect_other heof)]

/-- The numerals of a phrase are among its tokens. -/
theorem Readable.derivation {n : Nonterminal} {d : Derivation n} (h : Readable (d.tokens r)) :
    d.Readable := by
  have hrest {n : Nonterminal} (d : Derivation n) {r : List Token} (h : Readable (d.tokens r)) :
      Readable r := by
    rw [d.tokens_eq] at h
    exact (List.forall_mem_append.1 h).2
  have htail {t : Token} {r : List Token} (h : Readable (t :: r)) : Readable r :=
    (List.forall_mem_cons.1 h).2
  induction d generalizing r with
  | letIn _ _ _ t _ v _ e ht hv he =>
    have h := htail (hrest t (htail (htail (htail h))))
    exact ⟨hv h, he (htail (hrest v h))⟩
  | typeIn _ _ _ k _ v _ e hk hv he =>
    exact he (htail (hrest v (htail (hrest k (htail (htail (htail h)))))))
  | kindIn _ _ _ v _ e hv he => exact he (htail (hrest v (htail (htail (htail h)))))
  | lam _ _ _ t _ e ht he => exact he (htail (hrest t (htail (htail (htail h)))))
  | tlam _ _ _ k _ e hk he => exact he (htail (hrest k (htail (htail (htail h)))))
  | exprApp e he => exact he h
  | app f as hf has | argsExpr f as hf has => exact ⟨hf h, has (hrest f h)⟩
  | argsType _ t _ as ht has => exact has (htail (hrest t (htail h)))
  | numeral n => exact h n.1 List.mem_cons_self n.2
  | parens _ e _ he | annotated _ e _ _ _ he => exact he (htail h)
  | _ => trivial

/-- The tokens `ts` are read as the grammar says, by a reader that is given the depth to which
phrases may nest. -/
structure Recognizes (n : Nonterminal) (ts : List Token)
    (read : Nat → Except ReadFault n.Meaning) : Prop where
  /-- There is at most one derivation. -/
  unique (d d' : Derivation n) : d.tokens [] = ts → d'.tokens [] = ts → d = d'
  /-- What is read is what is derived within the depth. -/
  ok_iff (depth : Nat) (v : n.Meaning) : read depth = .ok v ↔
    ∃ d : Derivation n, d.tokens [] = ts ∧ d.nesting ≤ depth ∧ d.tree = v
  /-- A phrase is refused only for its depth. -/
  too_deep (depth : Nat) (d : Derivation n) : d.tokens [] = ts → depth < d.nesting →
    ∃ l, read depth = .error (.tooDeep l)

/-- A text is split at its end in one way. -/
theorem eq_body {body xs rest : List Token} {e : Token} (h : body ++ [e] = xs ++ rest)
    (he : e.kind = .eof) (hbody : ∀ t ∈ body, t.kind ≠ .eof) (hxs : ∀ t ∈ xs, t.kind ≠ .eof)
    (hrest : (front rest).kind = .eof) : xs = body := by
  rcases List.append_eq_append_iff.1 h with ⟨as, rfl, has⟩ | ⟨bs, rfl, rfl⟩
  · cases as with
    | nil => exact List.append_nil body
    | cons a as =>
      obtain rfl : e = a := (List.cons.inj has).1
      exact absurd he (hxs e (by simp))
  · cases bs with
    | nil => exact (List.append_nil xs).symm
    | cons b bs => exact absurd hrest (hbody b (by simp))

section

variable {file : Option String} {text : String} {p : Parse α} {a : α} {s : List Token}

theorem run_ok (hlex : Token.lex file text = .ok ts) (h : p ts = .ok a s) :
    run p file text = .ok a := by
  simp only [run, hlex, EStateM.run, h]

theorem run_error {f : ReadFault} (hlex : Token.lex file text = .ok ts) (h : p ts = .error f s) :
    run p file text = .error f := by
  simp only [run, hlex, EStateM.run, h]

/-- What is read from a text is read from its tokens. -/
theorem exists_of_run (hlex : Token.lex file text = .ok ts) (h : run p file text = .ok a) :
    ∃ s, p ts = .ok a s := by
  cases hp : p ts with
  | ok b s =>
    obtain rfl := Except.ok.inj ((run_ok hlex hp).symm.trans h)
    exact ⟨s, rfl⟩
  | error f s => cases (run_error hlex hp).symm.trans h

theorem exists_of_run_error {f : ReadFault} (hlex : Token.lex file text = .ok ts)
    (h : run p file text = .error f) : ∃ s, p ts = .error f s := by
  cases hp : p ts with
  | ok b s => cases (run_ok hlex hp).symm.trans h
  | error g s =>
    obtain rfl := Except.error.inj ((run_error hlex hp).symm.trans h)
    exact ⟨s, rfl⟩

end

/-- What a reader of texts with one phrase of the nonterminal `n` does. -/
structure Faithful (n : Nonterminal) (q : Nat → Parse n.Meaning) : Prop where
  sound {D : Nat} {ts s : List Token} {v : n.Meaning} : q D ts = .ok v s →
    ∃ (d : Derivation n) (rest : List Token), ts = d.tokens rest ∧ (front rest).kind = .eof ∧
      d.tree = v ∧ d.nesting ≤ D ∧ d.Readable
  ok {D : Nat} {d : Derivation n} {e : Token} : e.kind = .eof → d.Readable → d.nesting ≤ D →
    ∃ s, q D (d.tokens [e]) = .ok d.tree s
  tooDeep {D : Nat} {d : Derivation n} {e : Token} : e.kind = .eof → d.Readable → D < d.nesting →
    ∃ l s, q D (d.tokens [e]) = .error (.tooDeep l) s

/-- Every phrase can end at the end of the text. -/
theorem stops_eof (n : Nonterminal) {e : Token} (he : e.kind = .eof) : n.Stops [e] := by
  show n.continues e.kind = false
  rw [he]
  cases n <;> rfl

/-- A reader of phrases that follows the grammar both ways gives a faithful reader of texts. -/
theorem Faithful.of_closes {n : Nonterminal} {p q : Nat → Parse n.Meaning}
    (hq : ∀ D, Closes (q D) (p D)) (hsound : ∀ D, Derives n (p D) D)
    (hcomplete : ∀ (d : Derivation n) r D, n.Stops r → d.Readable →
      Reads (p D) (d.tokens r) d.tree r (d.nesting ≤ D)) : Faithful n q where
  sound {D ts s v} h := by
    obtain ⟨rest, hp, heof⟩ := (hq D).ok h
    obtain ⟨d, htokens, hd⟩ := (hsound D ts).of_ok hp
    exact ⟨d, rest, htokens, heof, hd⟩
  ok {D d e} he hd hD := (hq D).of_ok ((hcomplete d [e] D (stops_eof n he) hd).1 hD) he
  tooDeep {D d e} he hd hD := by
    obtain ⟨l, s, hs⟩ := (hcomplete d [e] D (stops_eof n he) hd).2 (Nat.not_le.2 hD)
    exact ⟨l, s, (hq D).of_error hs⟩

theorem program_faithful : Faithful .expr program :=
  .of_closes program_closes expr_derives fun d => accepts d

theorem type_faithful : Faithful .type fun D => closed (type D) :=
  .of_closes (fun D => closed_closes (type D)) type_derives fun d => accepts d

theorem kind_faithful : Faithful .kind fun D => closed (kind D) :=
  .of_closes (fun D => closed_closes (kind D)) kind_derives fun d => accepts d

section

variable {n : Nonterminal} {q : Nat → Parse n.Meaning} {D : Nat} {file : Option String}
  {text : String} {v : n.Meaning}

/-- What is read from a text is derived from its tokens. -/
theorem Faithful.exists_derivation (hq : Faithful n q) (hlex : Token.lex file text = .ok ts)
    (h : run (q D) file text = .ok v) :
    ∃ d : Derivation n, d.tokens [] = ts.dropLast ∧ d.nesting ≤ D ∧ d.tree = v ∧ d.Readable := by
  obtain ⟨s, hs⟩ := exists_of_run hlex h
  obtain ⟨d, rest, htokens, heof, rfl, hD, hd⟩ := hq.sound hs
  obtain ⟨body, l, rfl, hbody⟩ := Token.lex_ok hlex
  rw [d.tokens_eq] at htokens
  refine ⟨d, ?_, hD, rfl, hd⟩
  rw [List.dropLast_concat]
  have htokens_ne : ∀ t ∈ d.tokens [], t.kind ≠ .eof :=
    (d.tokens_ne_eof []).2 (List.forall_mem_nil _)
  exact eq_body htokens rfl (fun t ht => (hbody t ht).kind_ne_eof) htokens_ne heof

theorem Faithful.run_ok (hq : Faithful n q) {d : Derivation n} {e : Token} (he : e.kind = .eof)
    (hlex : Token.lex file text = .ok (d.tokens [e])) (hd : d.Readable) (hD : d.nesting ≤ D) :
    run (q D) file text = .ok d.tree := by
  obtain ⟨s, hs⟩ := hq.ok he hd hD
  exact Parser.run_ok hlex hs

/-- A text that nests deeper than is allowed is refused for that. -/
theorem Faithful.run_tooDeep (hq : Faithful n q) {d : Derivation n} {e : Token} (he : e.kind = .eof)
    (hlex : Token.lex file text = .ok (d.tokens [e])) (hd : d.Readable) (hD : D < d.nesting) :
    ∃ l, run (q D) file text = .error (.tooDeep l) := by
  obtain ⟨l, s, hs⟩ := hq.tooDeep he hd hD
  exact ⟨l, run_error hlex hs⟩

/-- A faithful reader reads the phrases of its nonterminal and no others. -/
theorem Faithful.recognizes (hq : Faithful n q) (hlex : Token.lex file text = .ok ts)
    (hn : Readable ts) : Recognizes n ts.dropLast fun D => run (q D) file text := by
  obtain ⟨body, l, rfl, -⟩ := Token.lex_ok hlex
  have htokens {d : Derivation n} {e : Token} (hd : d.tokens [] = (body ++ [e]).dropLast) :
      body ++ [e] = d.tokens [e] := by
    rw [d.tokens_eq, hd, List.dropLast_concat]
  constructor
  case unique => exact fun d d' hd hd' => Derivation.unique (hd.trans hd'.symm)
  case ok_iff =>
    refine fun D v => ⟨fun h => ?_, ?_⟩
    · obtain ⟨d, hd, hD, hv, -⟩ := hq.exists_derivation hlex h
      exact ⟨d, hd, hD, hv⟩
    · rintro ⟨d, hd, hD, rfl⟩
      rw [htokens hd] at hlex hn
      exact hq.run_ok rfl hlex hn.derivation hD
  case too_deep =>
    intro D d hd hD
    rw [htokens hd] at hlex hn
    exact hq.run_tooDeep rfl hlex hn.derivation hD

end

/-- Of a text whose tokens can be told apart and whose numerals can be read, expressions, types and
kinds are read exactly as the grammar derives them. -/
theorem recognizes_grammar {file : Option String} {text : String} {ts : List Token}
    (hlex : Token.lex file text = .ok ts) (hn : Readable ts) :
    Recognizes .expr ts.dropLast (Expr.parse text file ·) ∧
      (file = none →
        Recognizes .type ts.dropLast (TypeExpr.parse text ·) ∧
        Recognizes .kind ts.dropLast (KindExpr.parse text ·)) := by
  refine ⟨program_faithful.recognizes hlex hn, ?_⟩
  rintro rfl
  exact ⟨type_faithful.recognizes hlex hn, kind_faithful.recognizes hlex hn⟩

/-- An application to a number and a type. -/
theorem recognizes_grammar_application :
    let text := "f 7 [X]"
    ∃ ts, Token.lex none text = .ok ts ∧ Readable ts ∧ ts.length = 6 ∧
      Recognizes .expr ts.dropLast (Expr.parse text none ·) ∧
      Recognizes .type ts.dropLast (TypeExpr.parse text ·) ∧
      Recognizes .kind ts.dropLast (KindExpr.parse text ·) := by
  intro text
  let ts : List Token := [⟨.lowerName, "f", ⟨1, 1, none⟩⟩, ⟨.numeral, "7", ⟨1, 3, none⟩⟩,
    ⟨.lbracket, "[", ⟨1, 5, none⟩⟩, ⟨.upperName, "X", ⟨1, 6, none⟩⟩, ⟨.rbracket, "]", ⟨1, 7, none⟩⟩,
    ⟨.eof, "", ⟨1, 8, none⟩⟩]
  have hlex : Token.lex none text = .ok ts := Run.toOption_eq_some.1 (by decide +kernel)
  have hseven : Numeral.read "7" = .ok 7 := Run.toOption_eq_some.1 (by decide +kernel)
  have hn : Readable ts := by
    have htext : ∀ t ∈ ts, t.kind = .numeral → t.text = "7" := by decide
    exact fun t ht hk => ⟨7, htext t ht hk ▸ hseven⟩
  exact ⟨ts, hlex, hn, rfl, (recognizes_grammar hlex hn).1, (recognizes_grammar hlex hn).2 rfl⟩

end Parser

end SystemFOmega
