import SystemFOmega.Proofs.Run
import SystemFOmega.Proofs.Surface.Each
import SystemFOmega.Surface.Parser

/-!
# Names and places that are read

A reader makes phrases of tokens: every identifier is that of a token, every place is that of a
token, and so is the place at which it fails (`Parser.expr_yields`). In particular every name has
the number zero (`Expr.parse_plain`), so that renaming, which counts from one, makes no two names
equal.
-/

namespace SystemFOmega

/-- The names have no numbers yet. -/
def Plain (xs : List Name) : Prop := ∀ x ∈ xs, x.id = 0

/-- The place of a fault, if it has one. -/
def ReadFault.loc : ReadFault → Option Location
  | .stray s => some s.loc
  | .unexpected _ _ l | .trailing _ l | .tooDeep l => some l
  | .numeral _ => none

namespace Parser

open Run

variable {T : Token → Prop} {α β : Type} {p : Parse α} {f : α → Parse β} {P : α → Prop}
  {R : β → Prop}

/-- The identifier is that of a token. -/
def Written (T : Token → Prop) (x : Ident) : Prop := ∃ t, T t ∧ x = t.ident

/-- The place is that of a token. -/
def Placed (T : Token → Prop) (l : Option Location) : Prop := ∃ t, T t ∧ l = some t.loc

/-- From tokens that satisfy `T`, what the reader gives satisfies `P`, and where it fails, it does
so at such a token. -/
def Yields (T : Token → Prop) (p : Parse α) (P : α → Prop) : Prop :=
  T (front []) → ∀ ts, (∀ t ∈ ts, T t) →
    Settles p ts (fun a ts' => P a ∧ ∀ t ∈ ts', T t) (fun f => ∀ l ∈ f.loc, Placed T (some l))

namespace Yields

theorem pure {a : α} (h : P a) : Yields T (Pure.pure a) P := fun _ _ hts => Settles.pure ⟨h, hts⟩

theorem throw {e : ReadFault} (h : ∀ l ∈ e.loc, Placed T (some l)) :
    Yields T (MonadExcept.throw e : Parse α) P :=
  fun _ _ _ => Settles.throw h

theorem bind (h : Yields T p P) (hf : ∀ a, P a → Yields T (f a) R) : Yields T (p >>= f) R :=
  fun hT ts hts => .bind (h hT ts hts) fun a ts' ha => hf a ha.1 hT ts' ha.2

/-- The token in front, `eof` behind the last one, is one of the tokens. -/
theorem peek {f : Token → Parse β} (hf : ∀ t, T t → Yields T (f t) R) :
    Yields T (Parser.peek >>= f) R := by
  have hpeek : Yields T Parser.peek T := by
    intro hT ts hts
    refine ⟨?_, hts⟩
    cases ts with
    | nil => exact hT
    | cons t ts => exact hts t List.mem_cons_self
  exact hpeek.bind hf

theorem skip {f : Unit → Parse β} (hf : Yields T (f ()) R) : Yields T (Parser.skip >>= f) R := by
  have hskip : Yields T Parser.skip fun _ => True :=
    fun _ ts hts => ⟨trivial, fun t ht => hts t (List.mem_of_mem_tail ht)⟩
  exact hskip.bind fun _ _ => hf

/-- A fault at the token in front. -/
theorem fail {fault : Token → ReadFault} (h : ∀ t, (fault t).loc = some t.loc) :
    Yields T (Parser.fail fault : Parse α) P := by
  refine .peek fun t ht => .throw fun l hl => ?_
  rw [h t] at hl
  exact ⟨t, ht, hl.symm⟩

theorem failWanted (w : Wanted) : Yields T (Parser.failWanted w : Parse α) P := fail fun _ => rfl

theorem tooDeep : Yields T (Parser.tooDeep : Parse α) P := fail fun _ => rfl

theorem accept {k : TokenKind} {f : Bool → Parse β} (hf : ∀ b, Yields T (f b) R) :
    Yields T (Parser.accept k >>= f) R := by
  have haccept : Yields T (Parser.accept k) fun _ => True := by
    refine .peek fun t _ => ?_
    split
    · exact .skip (.pure trivial)
    · exact .pure trivial
  exact haccept.bind fun b _ => hf b

theorem expect {k : TokenKind} {f : Token → Parse β} (hf : ∀ t, T t → Yields T (f t) R) :
    Yields T (Parser.expect k >>= f) R := by
  have hexpect : Yields T (Parser.expect k) T := by
    refine .peek fun t ht => ?_
    split
    · exact .skip (.pure ht)
    · exact .failWanted _
  exact hexpect.bind hf

/-- One of two readers, by whether a token is in front. -/
theorem cond {k : TokenKind} {p p' : Parse α} (h : Yields T p P) (h' : Yields T p' P) :
    Yields T (do if ← Parser.accept k then p else p') P := by
  refine .accept fun b => ?_
  cases b
  · exact h'
  · exact h

end Yields

/-- A phrase before a closing token. -/
theorem closing_yields {a : α} {k : TokenKind} (h : P a) :
    Yields T (do let a ← Pure.pure a; let _ ← expect k; return a) P :=
  (Yields.pure h).bind fun _ hb => .expect fun _ _ => .pure hb

/-- A spine has the property as long as each step keeps it. -/
theorem extend_yields {starts : TokenKind → Bool} {step : α → Parse α}
    (hstep : ∀ a, P a → Yields T (step a) P) (room : List Token) {a : α} (ha : P a) :
    Yields T (extend starts step room a) P := by
  induction room generalizing a with
  | nil => exact .pure ha
  | cons t room ih =>
    refine .peek fun t _ => ?_
    split
    · exact (hstep a ha).bind fun b hb => ih hb
    · exact .pure ha

theorem spine_yields {starts : TokenKind → Bool} {step : α → Parse α}
    (hstep : ∀ a, P a → Yields T (step a) P) {a : α} (ha : P a) :
    Yields T (spine starts step a) P :=
  fun hT ts hts => extend_yields hstep ts ha hT ts hts

/-! ## Kinds -/

theorem atomicKind_yields {inner : Parse KindExpr} (h : Yields T inner (·.Each (Written T))) :
    Yields T (atomicKind inner) (·.Each (Written T)) := by
  refine .peek fun t ht => ?_
  split
  · exact .skip (.pure trivial)
  · exact .skip (.pure ⟨t, ht, rfl⟩)
  · exact .skip (h.bind fun k hk => .expect fun _ _ => .pure hk)
  · exact .failWanted _

/-- A kind is made of the names of its tokens. -/
theorem kind_yields (d : Nat) : Yields T (kind d) (·.Each (Written T)) := by
  induction d with
  | zero => exact .tooDeep
  | succ d ih =>
    refine (atomicKind_yields ih).bind fun k hk => .cond ?_ (.pure hk)
    exact ih.bind fun l hl => .pure ⟨hk, hl⟩

/-! ## Types -/

section

variable {innerKind : Parse KindExpr} {inner : Parse TypeExpr}

theorem atomicType_yields (hk : Yields T innerKind (·.Each (Written T)))
    (h : Yields T inner (·.Each (Written T))) :
    Yields T (atomicType innerKind inner) (·.Each (Written T)) := by
  refine .peek fun t ht => ?_
  split
  · exact .skip (.pure trivial)
  · exact .skip (.pure ⟨t, ht, rfl⟩)
  · refine .skip (h.bind fun u hu => .accept fun b => ?_)
    cases b
    · exact closing_yields hu
    · exact hk.bind fun k hk => closing_yields (P := TypeExpr.Each (Written T)) ⟨hu, hk⟩
  · exact .failWanted _

theorem binderType_yields (b : Binder) (hk : Yields T innerKind (·.Each (Written T)))
    (h : Yields T inner (·.Each (Written T))) :
    Yields T (binderType b innerKind inner) (·.Each (Written T)) := by
  refine .skip (.expect fun x hx => .expect fun _ _ => ?_)
  refine hk.bind fun k hk => .expect fun _ _ => h.bind fun t ht => ?_
  exact .pure ⟨⟨x, hx, rfl⟩, hk, ht⟩

end

/-- A type is made of the names of its tokens. -/
theorem type_yields (d : Nat) : Yields T (type d) (·.Each (Written T)) := by
  induction d with
  | zero => exact .tooDeep
  | succ d ih =>
    refine .peek fun t _ => ?_
    split
    · exact binderType_yields .all (kind_yields d) ih
    · exact binderType_yields .lam (kind_yields d) ih
    · have hatom := atomicType_yields (kind_yields d) ih
      have hargs (f : TypeExpr) (hf : f.Each (Written T)) :
          Yields T (do return TypeExpr.app f (← atomicType (kind d) (type d)))
            (·.Each (Written T)) :=
        hatom.bind fun a ha => .pure ⟨hf, ha⟩
      refine hatom.bind fun f hf => (spine_yields hargs hf).bind fun t ht => ?_
      exact .cond (ih.bind fun u hu => .pure ⟨ht, hu⟩) (.pure ht)

/-! ## Expressions -/

section

variable {innerKind : Parse KindExpr} {innerType : Parse TypeExpr} {inner : Parse Expr}

theorem atomicExpr_yields (ht : Yields T innerType (·.Each (Written T)))
    (h : Yields T inner (·.Each (Written T) (Placed T))) :
    Yields T (atomicExpr innerType inner) (·.Each (Written T) (Placed T)) := by
  refine .peek fun t hT => ?_
  split
  · refine .skip ?_
    split
    · exact .pure ⟨t, hT, rfl⟩
    · exact .throw (by simp [ReadFault.loc])
  · exact .skip (.pure ⟨⟨t, hT, rfl⟩, t, hT, rfl⟩)
  · refine .skip (h.bind fun e he => .accept fun b => ?_)
    cases b
    · exact closing_yields he
    · exact ht.bind fun u hu =>
        closing_yields (P := Expr.Each (Written T) (Placed T)) ⟨⟨t, hT, rfl⟩, he, hu⟩
  · exact .failWanted _

theorem argument_yields (ht : Yields T innerType (·.Each (Written T)))
    (h : Yields T inner (·.Each (Written T) (Placed T))) (f : Expr)
    (hf : f.Each (Written T) (Placed T)) :
    Yields T (argument innerType inner f) (·.Each (Written T) (Placed T)) := by
  refine .cond ?_ ?_
  · exact ht.bind fun t ht => .expect fun _ _ => .pure ⟨hf.loc, hf, ht⟩
  · exact (atomicExpr_yields ht h).bind fun a ha => .pure ⟨hf.loc, hf, ha⟩

theorem abstraction_yields (hk : Yields T innerKind (·.Each (Written T)))
    (ht : Yields T innerType (·.Each (Written T)))
    (h : Yields T inner (·.Each (Written T) (Placed T))) :
    Yields T (abstraction innerKind innerType inner) (·.Each (Written T) (Placed T)) := by
  refine .expect fun start hstart => .peek fun x hx => ?_
  split
  · refine .skip (.expect fun _ _ => hk.bind fun k hk => .expect fun _ _ => ?_)
    exact h.bind fun e he => .pure ⟨⟨start, hstart, rfl⟩, ⟨x, hx, rfl⟩, hk, he⟩
  · refine .expect fun x hx => .expect fun _ _ => ht.bind fun t ht => .expect fun _ _ => ?_
    exact h.bind fun e he => .pure ⟨⟨start, hstart, rfl⟩, ⟨x, hx, rfl⟩, ht, he⟩

theorem letBinding_yields (ht : Yields T innerType (·.Each (Written T)))
    (h : Yields T inner (·.Each (Written T) (Placed T))) :
    Yields T (letBinding innerType inner) (·.Each (Written T) (Placed T)) := by
  refine .expect fun start hstart => .expect fun x hx => .expect fun _ _ => ?_
  refine ht.bind fun t ht => .expect fun _ _ => ?_
  refine h.bind fun v hv => .expect fun _ _ => h.bind fun e he => ?_
  exact .pure ⟨⟨start, hstart, rfl⟩, ⟨x, hx, rfl⟩, ⟨hv.loc, hv, ht⟩, he⟩

theorem typeBinding_yields (hk : Yields T innerKind (·.Each (Written T)))
    (ht : Yields T innerType (·.Each (Written T)))
    (h : Yields T inner (·.Each (Written T) (Placed T))) :
    Yields T (typeBinding innerKind innerType inner) (·.Each (Written T) (Placed T)) := by
  refine .expect fun start hstart => .expect fun x hx => .expect fun _ _ => ?_
  refine hk.bind fun k hk => .expect fun _ _ => ?_
  refine ht.bind fun v hv => .expect fun _ _ => h.bind fun e he => ?_
  exact .pure ⟨⟨start, hstart, rfl⟩, ⟨x, hx, rfl⟩, ⟨hv, hk⟩, he⟩

theorem kindBinding_yields (hk : Yields T innerKind (·.Each (Written T)))
    (h : Yields T inner (·.Each (Written T) (Placed T))) :
    Yields T (kindBinding innerKind inner) (·.Each (Written T) (Placed T)) := by
  refine .expect fun start hstart => .expect fun x hx => .expect fun _ _ => ?_
  refine hk.bind fun k hk => .expect fun _ _ => h.bind fun e he => ?_
  exact .pure ⟨⟨start, hstart, rfl⟩, ⟨x, hx, rfl⟩, hk, he⟩

end

/-- An expression is made of the names and the places of its tokens. -/
theorem expr_yields (d : Nat) : Yields T (expr d) (·.Each (Written T) (Placed T)) := by
  induction d with
  | zero => exact .tooDeep
  | succ d ih =>
    have hk := kind_yields (T := T) d
    have ht := type_yields (T := T) d
    refine .peek fun t _ => ?_
    split
    · exact letBinding_yields ht ih
    · exact typeBinding_yields hk ht ih
    · exact kindBinding_yields hk ih
    · exact abstraction_yields hk ht ih
    · exact (atomicExpr_yields ht ih).bind fun e he => spine_yields (argument_yields ht ih) he

theorem program_yields (d : Nat) : Yields T (program d) (·.Each (Written T) (Placed T)) := by
  refine (expr_yields d).bind fun e he => .peek fun t ht => ?_
  split
  · exact .pure he
  · exact .throw fun l hl => ⟨t, ht, hl.symm⟩

end Parser

/-- An expression that is read from a text is made of its tokens, and where it cannot be read, that
is so at a token. -/
theorem Expr.parse_written {text : String} {file : Option String} (depth : Nat) {T : Token → Prop}
    {ts : List Token} (hlex : Token.lex file text = .ok ts) (hT : T (Parser.front []))
    (hts : ∀ t ∈ ts, T t) :
    (∀ e, Expr.parse text file depth = .ok e → e.Each (Parser.Written T) (Parser.Placed T)) ∧
      ∀ f, Expr.parse text file depth = .error f → ∀ l ∈ f.loc, Parser.Placed T (some l) := by
  have hrun := Parser.program_yields depth hT ts hts
  simp only [Expr.parse, Parser.run, hlex, EStateM.run]
  cases h : Parser.program depth ts with
  | ok e ts' =>
    refine ⟨fun e' he => ?_, fun f hf => ?_⟩
    · cases he
      exact (hrun.of_ok h).1
    · cases hf
  | error f ts' =>
    refine ⟨fun e he => ?_, fun f' hf => ?_⟩
    · cases he
    · cases hf
      exact hrun.of_error h

/-- The names of an expression that is read from a text have no numbers. -/
theorem Expr.parse_plain {text : String} {file : Option String} {depth : Nat} {e : Expr}
    (h : Expr.parse text file depth = .ok e) : Plain e.names := by
  cases hlex : Token.lex file text with
  | error s =>
    simp only [Expr.parse, Parser.run, hlex] at h
    cases h
  | ok ts =>
    have heach := (parse_written (T := fun _ => True) depth hlex trivial fun _ _ => trivial).1 e h
    refine (heach.mono (fun x hx => ?_) fun _ h => h).names
    obtain ⟨t, -, rfl⟩ := hx
    rfl

end SystemFOmega
