import SystemFOmega.Fault
import SystemFOmega.Proofs.Run
import SystemFOmega.Proofs.Token.Spacing

/-!
# Layout does not matter

Two texts with the same tokens are read with the same result, whatever layout stands between the
tokens: as phrases that differ in places only, or with faults of one class and wording
(`Parser.layout_irrelevant`). Readers look at the classes and the texts of tokens and take over
their places without looking at them: from tokens that differ in places only, a reader does the same
up to places (`Parser.Alike`).
-/

namespace SystemFOmega

/-- The two faults differ at most in places. -/
inductive ReadFault.Same : ReadFault → ReadFault → Prop
  | stray (c : Char) (l l' : Location) : Same (.stray ⟨c, l⟩) (.stray ⟨c, l'⟩)
  | unexpected (w : Wanted) (k : TokenKind) (l l' : Location) :
    Same (.unexpected w k l) (.unexpected w k l')
  | trailing (k : TokenKind) (l l' : Location) : Same (.trailing k l) (.trailing k l')
  | tooDeep (l l' : Location) : Same (.tooDeep l) (.tooDeep l')
  | numeral (f : Numeral.Fault) : Same (.numeral f) (.numeral f)

/-- The class of a fault, if it has a diagnostic. -/
def Fault.code? : Fault → Option Diagnostic.Code
  | .diagnostic d => some d.code
  | .refusal _ => none

theorem ReadFault.Same.code? {f f' : ReadFault} (h : f.Same f') :
    f.fault.code? = f'.fault.code? := by
  -- a class is compared at once, without the words of the two diagnostics
  cases h with
  | stray => show some Diagnostic.Code.lexical = some .lexical; rfl
  | unexpected => show some Diagnostic.Code.grammar = some .grammar; rfl
  | trailing => show some Diagnostic.Code.grammar = some .grammar; rfl
  | tooDeep => show some Diagnostic.Code.nesting = some .nesting; rfl
  | numeral => rfl

namespace Parser

open Run

variable {α β γ δ : Type} {e : α → β} {e' : γ → δ} {p p' : Parse α} {f f' : α → Parse γ}

/-- Tokens that differ at most in places have the same one in front, up to its place. -/
theorem unlocated_front {ts ts' : List Token}
    (h : ts.map Token.unlocated = ts'.map Token.unlocated) :
    (front ts).unlocated = (front ts').unlocated := by
  cases ts with
  | nil =>
    obtain rfl : ts' = [] := List.map_eq_nil_iff.1 h.symm
    rfl
  | cons t ts =>
    cases ts' with
    | nil => cases h
    | cons t' ts' => exact (List.cons.inj h).1

/-- From tokens that differ at most in places both readers end well, with results that `e` makes
equal, or both fail, and they differ at most in places then too. -/
def Alike (e : α → β) (p p' : Parse α) : Prop :=
  ∀ ts ts' : List Token, ts.map Token.unlocated = ts'.map Token.unlocated →
    Pairs p ts p' ts'
      (fun a r a' r' => e a = e a' ∧ r.map Token.unlocated = r'.map Token.unlocated)
      ReadFault.Same

/-- The reader does not look at places, which `e` takes from its results. -/
abbrev Blind (e : α → α) (p : Parse α) : Prop := Alike e p p

namespace Alike

theorem pure {a a' : α} (h : e a = e a') : Alike e (Pure.pure a) (Pure.pure a') :=
  fun _ _ hts => Pairs.pure ⟨h, hts⟩

theorem throw {g g' : ReadFault} (h : g.Same g') :
    Alike e (MonadExcept.throw g : Parse α) (MonadExcept.throw g') :=
  fun _ _ _ => Pairs.throw h

/-- One reader after the other. -/
theorem bind (hp : Alike e p p') (hf : ∀ a a', e a = e a' → Alike e' (f a) (f' a')) :
    Alike e' (p >>= f) (p' >>= f') :=
  fun ts ts' hts => (hp ts ts' hts).bind fun a _ a' _ h => hf a a' h.1 _ _ h.2

/-- A token has the same class and the same text in both runs. -/
theorem bind_token {q q' : Parse Token} {f f' : Token → Parse γ} (hq : Alike Token.unlocated q q')
    (hf : ∀ k s l l', Alike e' (f ⟨k, s, l⟩) (f' ⟨k, s, l'⟩)) :
    Alike e' (q >>= f) (q' >>= f') := by
  refine hq.bind fun t t' h => ?_
  obtain ⟨k, s, l⟩ := t
  obtain ⟨k', s', l'⟩ := t'
  obtain ⟨rfl, rfl⟩ := Prod.mk.inj h
  exact hf k s l l'

/-- The tokens in front differ at most in their places. -/
theorem peek {f f' : Token → Parse γ}
    (hf : ∀ k s l l', Alike e' (f ⟨k, s, l⟩) (f' ⟨k, s, l'⟩)) :
    Alike e' (Parser.peek >>= f) (Parser.peek >>= f') := by
  have hpeek : Alike Token.unlocated Parser.peek Parser.peek :=
    fun ts ts' hts => .ok rfl rfl ⟨unlocated_front hts, hts⟩
  exact hpeek.bind_token hf

theorem skip {f f' : Unit → Parse γ} (hf : Alike e' (f ()) (f' ())) :
    Alike e' (Parser.skip >>= f) (Parser.skip >>= f') := by
  have hskip : Alike id Parser.skip Parser.skip := by
    refine fun ts ts' hts => .ok rfl rfl ⟨rfl, ?_⟩
    rw [List.map_tail, List.map_tail, hts]
  exact hskip.bind fun _ _ _ => hf

theorem failWanted (w : Wanted) : Alike e (Parser.failWanted w) (Parser.failWanted w) :=
  .peek fun _ _ _ _ => .throw (.unexpected ..)

theorem tooDeep : Alike e Parser.tooDeep Parser.tooDeep :=
  .peek fun _ _ _ _ => .throw (.tooDeep ..)

theorem accept {k : TokenKind} {f f' : Bool → Parse γ} (hf : ∀ b, Alike e' (f b) (f' b)) :
    Alike e' (Parser.accept k >>= f) (Parser.accept k >>= f') := by
  have haccept : Alike id (Parser.accept k) (Parser.accept k) := by
    refine .peek fun _ _ _ _ => ?_
    dsimp only
    split
    · exact .skip (.pure rfl)
    · exact .pure rfl
  refine haccept.bind fun b b' h => ?_
  obtain rfl : b = b' := h
  exact hf b

/-- The tokens that are taken differ at most in their places. -/
theorem expect {k : TokenKind} {f f' : Token → Parse γ}
    (hf : ∀ k s l l', Alike e' (f ⟨k, s, l⟩) (f' ⟨k, s, l'⟩)) :
    Alike e' (Parser.expect k >>= f) (Parser.expect k >>= f') := by
  have hexpect : Alike Token.unlocated (Parser.expect k) (Parser.expect k) := by
    refine .peek fun _ _ _ _ => ?_
    dsimp only
    split
    · exact .skip (.pure rfl)
    · exact .failWanted _
  exact hexpect.bind_token hf

/-- One of two readers, by whether a token is in front. -/
theorem cond {k : TokenKind} {q q' : Parse α} (hp : Alike e p p') (hq : Alike e q q') :
    Alike e (do if ← Parser.accept k then p else q) (do if ← Parser.accept k then p' else q') := by
  refine .accept fun b => ?_
  cases b with
  | false => exact hq
  | true => exact hp

end Alike

/-- A phrase before a closing token. -/
theorem closing_alike {a a' : α} {k : TokenKind} (h : e a = e a') :
    Alike e (do let a ← pure a; let _ ← expect k; return a)
      (do let a ← pure a'; let _ ← expect k; return a) :=
  (Alike.pure h).bind fun _ _ h => .expect fun _ _ _ _ => .pure h

/-- Two spines with as much room go on side by side. -/
theorem extend_alike {starts : TokenKind → Bool} {step : α → Parse α}
    (hstep : ∀ a a', e a = e a' → Alike e (step a) (step a')) {room room' : List Token}
    (hroom : room.length = room'.length) {a a' : α} (h : e a = e a') :
    Alike e (extend starts step room a) (extend starts step room' a') := by
  induction room generalizing room' a a' with
  | nil =>
    obtain rfl : room' = [] := List.length_eq_zero_iff.1 hroom.symm
    exact .pure h
  | cons t room ih =>
    cases room' with
    | nil => cases hroom
    | cons t' room' =>
      refine .peek fun _ _ _ _ => ?_
      dsimp only
      split
      · exact (hstep a a' h).bind fun b b' hb => ih (Nat.succ.inj hroom) hb
      · exact .pure h

theorem spine_alike {starts : TokenKind → Bool} {step : α → Parse α}
    (hstep : ∀ a a', e a = e a' → Alike e (step a) (step a')) {a a' : α} (h : e a = e a') :
    Alike e (spine starts step a) (spine starts step a') := by
  have hget : Alike List.length (get : Parse (List Token)) get :=
    fun ts ts' hts => .ok rfl rfl ⟨by simpa using congrArg List.length hts, hts⟩
  exact hget.bind fun _ _ hroom => extend_alike hstep hroom h

/-! ## Kinds -/

theorem atomicKind_blind {inner : Parse KindExpr} (h : Blind KindExpr.unlocated inner) :
    Blind KindExpr.unlocated (atomicKind inner) := by
  refine .peek fun k s l l' => ?_
  cases k with
  | star => exact .skip (.pure rfl)
  | upperName => exact .skip (.pure rfl)
  | lparen => exact .skip (h.bind fun j j' hj => .expect fun _ _ _ _ => .pure hj)
  | _ => exact .failWanted _

/-- The reader of kinds does not look at places. -/
theorem kind_blind (d : Nat) : Blind KindExpr.unlocated (kind d) := by
  induction d with
  | zero => exact .tooDeep
  | succ d ih =>
    refine (atomicKind_blind ih).bind fun j j' hj => .cond ?_ (.pure hj)
    exact ih.bind fun k k' hk => .pure (congrArg₂ KindExpr.arrow hj hk)

/-! ## Types -/

section

variable {innerKind : Parse KindExpr} {inner : Parse TypeExpr}

theorem atomicType_blind (hk : Blind KindExpr.unlocated innerKind)
    (h : Blind TypeExpr.unlocated inner) :
    Blind TypeExpr.unlocated (atomicType innerKind inner) := by
  refine .peek fun k s l l' => ?_
  cases k with
  | intType => exact .skip (.pure rfl)
  | upperName => exact .skip (.pure rfl)
  | lparen =>
    refine .skip (h.bind fun t t' ht => .accept fun b => ?_)
    cases b with
    | false => exact closing_alike ht
    | true => exact hk.bind fun k k' hk => closing_alike (congrArg₂ TypeExpr.kinded ht hk)
  | _ => exact .failWanted _

theorem binderType_blind (b : Binder) (hk : Blind KindExpr.unlocated innerKind)
    (h : Blind TypeExpr.unlocated inner) :
    Blind TypeExpr.unlocated (binderType b innerKind inner) := by
  refine .skip (.expect fun _ s _ _ => .expect fun _ _ _ _ => hk.bind fun k k' hk => ?_)
  refine .expect fun _ _ _ _ => h.bind fun t t' ht => .pure ?_
  exact congrArg₂ (TypeExpr.bind b ⟨⟨s, 0⟩, none⟩) hk ht

end

/-- The reader of types does not look at places. -/
theorem type_blind (d : Nat) : Blind TypeExpr.unlocated (type d) := by
  induction d with
  | zero => exact .tooDeep
  | succ d ih =>
    have hatom := atomicType_blind (kind_blind d) ih
    have hfunction : Blind TypeExpr.unlocated (do
        let atom := atomicType (kind d) (type d)
        let left ← spine startsAtomicType (fun f => return .app f (← atom)) (← atom)
        if ← accept .arrow then return .arrow left (← type d) else return left) := by
      have hargument (f f' : TypeExpr) (hf : f.unlocated = f'.unlocated) :
          Alike TypeExpr.unlocated (do return TypeExpr.app f (← atomicType (kind d) (type d)))
            (do return TypeExpr.app f' (← atomicType (kind d) (type d))) :=
        hatom.bind fun a a' ha => .pure (congrArg₂ TypeExpr.app hf ha)
      refine hatom.bind fun f f' hf => (spine_alike hargument hf).bind fun t t' ht => ?_
      exact .cond (ih.bind fun u u' hu => .pure (congrArg₂ TypeExpr.arrow ht hu)) (.pure ht)
    refine .peek fun k s l l' => ?_
    cases k with
    | forAll => exact binderType_blind .all (kind_blind d) ih
    | lambda => exact binderType_blind .lam (kind_blind d) ih
    | _ => exact hfunction

/-! ## Expressions -/

section

variable {innerKind : Parse KindExpr} {innerType : Parse TypeExpr} {inner : Parse Expr}

theorem atomicExpr_blind (ht : Blind TypeExpr.unlocated innerType)
    (h : Blind Expr.unlocated inner) : Blind Expr.unlocated (atomicExpr innerType inner) := by
  refine .peek fun k s l l' => ?_
  cases k with
  | numeral =>
    refine .skip ?_
    dsimp only
    cases Numeral.read s with
    | ok n => exact .pure rfl
    | error f => exact .throw (.numeral f)
  | lowerName => exact .skip (.pure rfl)
  | lparen =>
    refine .skip (h.bind fun v v' hv => .accept fun b => ?_)
    cases b with
    | false => exact closing_alike hv
    | true =>
      refine ht.bind fun t t' ht => closing_alike ?_
      exact congrArg₂ (Expr.ann · · none) hv ht
  | _ => exact .failWanted _

theorem argument_blind (ht : Blind TypeExpr.unlocated innerType) (h : Blind Expr.unlocated inner)
    (f f' : Expr) (hf : f.unlocated = f'.unlocated) :
    Alike Expr.unlocated (argument innerType inner f) (argument innerType inner f') := by
  refine .cond ?_ ?_
  · refine ht.bind fun t t' ht => .expect fun _ _ _ _ => .pure ?_
    exact congrArg₂ (Expr.tapp · · none) hf ht
  · exact (atomicExpr_blind ht h).bind fun a a' ha => .pure (congrArg₂ (Expr.app · · none) hf ha)

theorem abstraction_blind (hk : Blind KindExpr.unlocated innerKind)
    (ht : Blind TypeExpr.unlocated innerType) (h : Blind Expr.unlocated inner) :
    Blind Expr.unlocated (abstraction innerKind innerType inner) := by
  refine .expect fun _ _ _ _ => .peek fun k s _ _ => ?_
  dsimp only
  split
  · refine .skip (.expect fun _ _ _ _ => hk.bind fun k k' hk => .expect fun _ _ _ _ => ?_)
    refine h.bind fun v v' hv => .pure ?_
    exact congrArg₂ (Expr.tlam ⟨⟨s, 0⟩, none⟩ · · none) hk hv
  · refine .expect fun _ s _ _ => .expect fun _ _ _ _ => ht.bind fun t t' ht => ?_
    refine .expect fun _ _ _ _ => h.bind fun v v' hv => .pure ?_
    exact congrArg₂ (Expr.lam ⟨⟨s, 0⟩, none⟩ · · none) ht hv

theorem letBinding_blind (ht : Blind TypeExpr.unlocated innerType)
    (h : Blind Expr.unlocated inner) : Blind Expr.unlocated (letBinding innerType inner) := by
  refine .expect fun _ _ _ _ => .expect fun _ s _ _ => .expect fun _ _ _ _ => ?_
  refine ht.bind fun t t' ht => .expect fun _ _ _ _ => h.bind fun v v' hv => ?_
  refine .expect fun _ _ _ _ => h.bind fun w w' hw => .pure ?_
  exact congrArg₂ (Expr.letIn ⟨⟨s, 0⟩, none⟩ · · none) (congrArg₂ (Expr.ann · · none) hv ht) hw

theorem typeBinding_blind (hk : Blind KindExpr.unlocated innerKind)
    (ht : Blind TypeExpr.unlocated innerType) (h : Blind Expr.unlocated inner) :
    Blind Expr.unlocated (typeBinding innerKind innerType inner) := by
  refine .expect fun _ _ _ _ => .expect fun _ s _ _ => .expect fun _ _ _ _ => ?_
  refine hk.bind fun k k' hk => .expect fun _ _ _ _ => ht.bind fun t t' ht => ?_
  refine .expect fun _ _ _ _ => h.bind fun w w' hw => .pure ?_
  exact congrArg₂ (Expr.typeIn ⟨⟨s, 0⟩, none⟩ · · none) (congrArg₂ TypeExpr.kinded ht hk) hw

theorem kindBinding_blind (hk : Blind KindExpr.unlocated innerKind)
    (h : Blind Expr.unlocated inner) : Blind Expr.unlocated (kindBinding innerKind inner) := by
  refine .expect fun _ _ _ _ => .expect fun _ s _ _ => .expect fun _ _ _ _ => ?_
  refine hk.bind fun k k' hk => .expect fun _ _ _ _ => h.bind fun w w' hw => .pure ?_
  exact congrArg₂ (Expr.kindIn ⟨⟨s, 0⟩, none⟩ · · none) hk hw

end

/-- The reader of expressions does not look at places. -/
theorem expr_blind (d : Nat) : Blind Expr.unlocated (expr d) := by
  induction d with
  | zero => exact .tooDeep
  | succ d ih =>
    have hk := kind_blind d
    have ht := type_blind d
    refine .peek fun k _ _ _ => ?_
    cases k with
    | letWord => exact letBinding_blind ht ih
    | typeWord => exact typeBinding_blind hk ht ih
    | kindWord => exact kindBinding_blind hk ih
    | lambda => exact abstraction_blind hk ht ih
    | _ =>
      exact (atomicExpr_blind ht ih).bind fun f f' hf => spine_alike (argument_blind ht ih) hf

theorem program_blind (d : Nat) : Blind Expr.unlocated (program d) := by
  refine (expr_blind d).bind fun v v' hv => .peek fun k _ _ _ => ?_
  dsimp only
  split
  · exact .pure hv
  · exact .throw (.trailing ..)

theorem closed_blind {e : α → α} {p : Parse α} (h : Blind e p) : Blind e (closed p) :=
  h.bind fun _ _ ha => .expect fun _ _ _ _ => .pure ha

/-! ## Texts -/

/-- Both texts are read, as phrases that differ at most in places, or both are refused, with faults
of one class that differ at most in places. -/
def SameReading (tree : α → Tree) : Except ReadFault α → Except ReadFault α → Prop
  | .ok a, .ok a' => (tree a).Same (tree a')
  | .error f, .error f' => f.fault.code? = f'.fault.code? ∧ f.Same f'
  | _, _ => False

/-- Texts with the same tokens, up to places, are read alike. -/
theorem Alike.run {e : α → α} {p : Parse α} {tree : α → Tree} {file file' : Option String}
    {text text' : String} {ts ts' : List Token} (hp : Blind e p)
    (htree : ∀ a a', e a = e a' → (tree a).Same (tree a')) (hlex : Token.lex file text = .ok ts)
    (hlex' : Token.lex file' text' = .ok ts')
    (hts : ts.map Token.unlocated = ts'.map Token.unlocated) :
    SameReading tree (run p file text) (run p file' text') := by
  simp only [Parser.run, hlex, hlex', EStateM.run]
  cases hp ts ts' hts with
  | ok h h' ha =>
    rw [h, h']
    exact htree _ _ ha.1
  | error h h' hf =>
    rw [h, h']
    exact ⟨hf.code?, hf⟩

/-- The tokens of a text are the same with any layout between them, and they are read as the same
phrases or refused for the same reason. -/
theorem layout_irrelevant {file : Option String} {text text' : String} {ts : List Token}
    {eof : Token} (hlex : Token.lex file text = .ok (ts ++ [eof]))
    (hspaced : Token.Spaced ts text'.toList) (file' : Option String) :
    (∃ ts', Token.lex file' text' = .ok ts' ∧
      ts'.map Token.unlocated = (ts ++ [eof]).map Token.unlocated) ∧
    ∀ depth,
      SameReading .expr (Expr.parse text file depth) (Expr.parse text' file' depth) ∧
      SameReading .type (TypeExpr.parse text depth) (TypeExpr.parse text' depth) ∧
      SameReading .kind (KindExpr.parse text depth) (KindExpr.parse text' depth) := by
  obtain ⟨us, hus, hsame⟩ := Token.lex_spaced hlex hspaced file'
  -- types and kinds are read without the name of a file
  obtain ⟨vs, hvs, hfile⟩ := Token.lex_file hlex none
  obtain ⟨ws, hws, hfile'⟩ := Token.lex_file hus none
  have hnone := hfile.trans (hsame.symm.trans hfile'.symm)
  refine ⟨⟨us, hus, hsame⟩, fun depth => ⟨?_, ?_, ?_⟩⟩
  · exact (program_blind depth).run (fun _ _ => congrArg Tree.expr) hlex hus hsame.symm
  · exact (closed_blind (type_blind depth)).run (fun _ _ => congrArg Tree.type) hvs hws hnone
  · exact (closed_blind (kind_blind depth)).run (fun _ _ => congrArg Tree.kind) hvs hws hnone

/-- A numeral that was next to a word, and an arrow with a comment before it. -/
theorem layout_irrelevant_comment :
    let text := "f[A->B]5x5--end"
    let text' := "f [\tA --a -> b\n-> B ] 5\r\nx5"
    ∃ ts eof, Token.lex none text = .ok (ts ++ [eof]) ∧ Token.Spaced ts text'.toList ∧
      (∃ ts', Token.lex none text' = .ok ts' ∧
        ts'.map Token.unlocated = (ts ++ [eof]).map Token.unlocated) ∧
      ∃ e, Expr.parse text = .ok e ∧ SameReading .expr (.ok e) (Expr.parse text') := by
  intro text text'
  let f : Token := ⟨.lowerName, "f", ⟨1, 1, none⟩⟩
  let left : Token := ⟨.lbracket, "[", ⟨1, 2, none⟩⟩
  let a : Token := ⟨.upperName, "A", ⟨1, 3, none⟩⟩
  let arrow : Token := ⟨.arrow, "->", ⟨1, 4, none⟩⟩
  let b : Token := ⟨.upperName, "B", ⟨1, 6, none⟩⟩
  let right : Token := ⟨.rbracket, "]", ⟨1, 7, none⟩⟩
  let n : Token := ⟨.numeral, "5", ⟨1, 8, none⟩⟩
  let x : Token := ⟨.lowerName, "x5", ⟨1, 9, none⟩⟩
  let ts := [f, left, a, arrow, b, right, n, x]
  have hlex : Token.lex none text = .ok (ts ++ [⟨.eof, "", ⟨1, 16, none⟩⟩]) :=
    toOption_eq_some.1 (by decide +kernel)
  have hspaced : Token.Spaced ts text'.toList := by
    have hblank (c : Char) (h : Token.isLayout c) : Token.Separator [c] := .blank h
    have hcomment : Token.Separator " --a -> b\n".toList :=
      @Token.Separator.comment ' ' "a -> b".toList [] rfl (by decide) (.blank rfl)
    have hspaces : Token.Spaced ts _ := .cons f (hblank ' ' rfl) <| .cons left (hblank '\t' rfl) <|
      .cons a hcomment <| .cons arrow (hblank ' ' rfl) <| .cons b (hblank ' ' rfl) <|
      .cons right (hblank ' ' rfl) <| .cons n (.cons (c := '\r') rfl (hblank '\n' rfl)) <| .last x
    refine Eq.subst (motive := Token.Spaced ts) ?_ hspaces
    decide +kernel
  have hok : (Expr.parse text).toOption.isSome := by decide +kernel
  obtain ⟨e, he⟩ := Option.isSome_iff_exists.1 hok
  have he := toOption_eq_some.1 he
  obtain ⟨hsame, hread⟩ := layout_irrelevant hlex hspaced none
  exact ⟨ts, _, hlex, hspaced, hsame, e, he, he ▸ (hread maxDepth).1⟩

end Parser

end SystemFOmega
