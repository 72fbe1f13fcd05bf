import Mathlib.Data.List.Induction
import SystemFOmega.Proofs.Token.Lexer
import SystemFOmega.Proofs.Token.Places

/-!
# Texts are tokens and layout

A text that can be split into tokens is made up of the texts of its tokens with layout before and
behind each of them, and nothing else. Layout is blanks and comments to the end of a line
(`Token.Layout`). Tokens are numerals, words and symbols (`Token.Lexeme`), and each is the longest
that the text has at its place. The place of a token is given by the line feeds and the characters
before it. A text that cannot be split has such a first part, and what comes then is neither a token
nor layout. This is `Token.lex_lossless`.
-/

namespace SystemFOmega

/-! ## Places by count -/

/-- The place behind the characters `cs` of a text: its line is one more than the line feeds among
them, and its column is one more than the characters after the last of these. -/
def Location.behind (file : Option String) (cs : List Char) : Location :=
  ⟨cs.count '\n' + 1, (cs.reverse.takeWhile (· ≠ '\n')).length + 1, file⟩

/-- Lines are counted by their ends, and columns from the last one. -/
theorem Position.after_eq_count (cs : List Char) :
    Position.after {} cs =
      ⟨cs.count '\n' + 1, (cs.reverse.takeWhile (· ≠ '\n')).length + 1⟩ := by
  induction cs using List.reverseRecOn with
  | nil => rfl
  | append_singleton cs c ih =>
    rw [after_append, ih]
    by_cases hc : c = '\n'
    · simp [after, next, hc]
    · simp [after, next, hc]

theorem Position.location_after (file : Option String) (cs : List Char) :
    (Position.after {} cs).location file = .behind file cs := by
  rw [after_eq_count]
  rfl

namespace Token

/-! ## Layout and lexemes -/

/-- Layout in front of `rest`: blanks, and comments that run to the end of a line or of the text. -/
inductive Layout (rest : List Char) : List Char → Prop
  | nil : Layout rest []
  | blank {c : Char} {gap : List Char} : isLayout c → Layout rest gap → Layout rest (c :: gap)
  | comment {body gap : List Char} : '\n' ∉ body → (∀ c ∈ (gap ++ rest).head?, c = '\n') →
    Layout rest gap → Layout rest ('-' :: '-' :: (body ++ gap))

/-- The characters are a token of the class `k`. -/
inductive Lexeme : TokenKind → List Char → Prop
  | numeral {c : Char} {cs : List Char} : Text.isDigit c → (∀ d ∈ cs, Text.isDigit d) →
    Lexeme .numeral (c :: cs)
  | word {c : Char} {cs : List Char} : Text.isDigit c = false → startsWord c →
    (∀ d ∈ cs, continuesWord d) → Lexeme (wordKind (c :: cs)) (c :: cs)
  | arrow : Lexeme .arrow ['-', '>']
  | symbol {c : Char} {k : TokenKind} : symbol? c = some k → Lexeme k [c]

/-- No token that starts with `w` goes on with characters of `rest`. -/
def Longest (w rest : List Char) : Prop :=
  ∀ k u, u <+: rest → Lexeme k (w ++ u) → u = []

/-- The text starts with no token and with no layout. -/
structure Stuck (cs : List Char) : Prop where
  no_lexeme (k : TokenKind) {w : List Char} : w <+: cs → ¬ Lexeme k w
  no_layout {gap rest : List Char} : cs = gap ++ rest → Layout rest gap → gap = []

variable {p q : Position} {c : Char} {cs w gap rest : List Char} {k : TokenKind}
  {file : Option String}

/-- What starts with a token has a first token that is at least as long. -/
theorem Lexeme.exists_first? (h : Lexeme k w) (hcs : w <+: cs) :
    ∃ k' w' rest, first? cs = some (k', w', rest) ∧ w <+: w' := by
  obtain ⟨rest, rfl⟩ := hcs
  cases h with
  | numeral hc hd =>
    refine ⟨_, _, _, by rw [List.cons_append, first?, if_pos hc], ?_⟩
    rw [List.takeWhile_append_of_pos hd]
    exact List.prefix_append _ _
  | word hdigit hc hd =>
    refine ⟨_, _, _, by rw [List.cons_append, first?, if_neg (by simp [hdigit]), if_pos hc], ?_⟩
    rw [List.takeWhile_append_of_pos hd]
    exact List.prefix_append _ _
  | arrow => exact ⟨_, _, _, first?_arrow rest, List.prefix_rfl⟩
  | symbol hk => exact ⟨_, _, _, first?_symbol hk rest, List.prefix_rfl⟩

theorem lexeme_of_first? (h : first? cs = some (k, w, rest)) : Lexeme k w := by
  cases cs with
  | nil => cases h
  | cons c cs =>
    rw [first?] at h
    split at h
    · rename_i hc
      cases h
      exact .numeral hc fun d hd => List.mem_takeWhile_imp hd
    split at h
    · rename_i hdigit hc
      cases h
      exact .word (Bool.eq_false_iff.2 hdigit) hc fun d hd => List.mem_takeWhile_imp hd
    split at h
    · cases h
      exact .arrow
    · obtain ⟨k', hk, h⟩ := Option.map_eq_some_iff.1 h
      cases h
      exact .symbol hk

/-- A word or a numeral takes all letters that it can. -/
theorem longest_of_first? (h : first? cs = some (k, w, rest)) : Longest w rest := by
  intro k' u hu hlexeme
  have hcs : w ++ u <+: cs := by
    rw [← (first?_append h).1]
    exact (List.prefix_append_right_inj w).2 hu
  obtain ⟨_, _, _, hfirst, hle⟩ := hlexeme.exists_first? hcs
  obtain ⟨rfl, rfl, rfl⟩ : _ ∧ _ ∧ _ := by simpa using hfirst.symm.trans h
  have hlength := hle.length_le
  rw [List.length_append] at hlength
  exact List.length_eq_zero_iff.1 (by omega)

/-! ## Skipping layout -/

/-- Layout in front of `rest`, of which the first part stands inside a comment if one is open. -/
def Skipped (comment : Bool) (rest gap : List Char) : Prop :=
  if comment then ∃ body gap', gap = body ++ gap' ∧ '\n' ∉ body ∧
    (∀ c ∈ (gap' ++ rest).head?, c = '\n') ∧ Layout rest gap'
  else Layout rest gap

theorem skipLayout_skipped {b : Bool} (h : skipLayout b p (gap ++ rest) = (q, rest)) :
    Skipped b rest gap := by
  induction gap generalizing b p with
  | nil =>
    cases b with
    | false => exact .nil
    | true =>
      refine ⟨[], [], rfl, by simp, fun c hc => ?_, .nil⟩
      -- a comment takes at least one character
      obtain ⟨cs, rfl⟩ := List.head?_eq_some_iff.1 hc
      have hle := length_skipLayout (c ≠ '\n') (p.next c) cs
      rw [show skipLayout (c ≠ '\n') (p.next c) cs = _ from h] at hle
      exact absurd hle (Nat.not_succ_le_self _)
  | cons c gap ih =>
    rw [List.cons_append, skipLayout] at h
    split at h
    · rename_i hb
      subst hb
      have hskipped := ih h
      by_cases hc : c = '\n'
      · subst hc
        exact ⟨[], '\n' :: gap, rfl, by simp, by simp, .blank rfl hskipped⟩
      · rw [decide_eq_true (by simpa using hc)] at hskipped
        obtain ⟨body, gap', rfl, hbody, hends, hgap⟩ := hskipped
        exact ⟨c :: body, gap', rfl, by simp [Ne.symm hc, hbody], hends, hgap⟩
    · rename_i hb
      rw [Bool.eq_false_iff.2 hb]
      split at h
      · rename_i hc
        exact .blank hc (ih h)
      split at h
      · rename_i hc
        simp only [Bool.and_eq_true, decide_eq_true_eq] at hc
        obtain ⟨rfl, hdash⟩ := hc
        obtain ⟨body, gap', rfl, hbody, hends, hgap⟩ := ih h
        -- the second dash is the first character inside the comment
        cases body with
        | nil => exact absurd (hends _ hdash) (by decide)
        | cons d body =>
          obtain rfl : d = '-' := Option.some.inj hdash
          exact .comment (fun hmem => hbody (.tail _ hmem)) hends hgap
      · have hlength := congrArg (fun r : Position × List Char => r.2.length) h
        simp only [List.length_cons, List.length_append] at hlength
        omega

/-- Where skipping ends there is no more layout. -/
theorem skipLayout_ends {b : Bool} (h : skipLayout b p cs = (q, c :: rest)) :
    isLayout c = false ∧ ¬ (c = '-' ∧ rest.head? = some '-') := by
  induction cs generalizing b p with
  | nil => cases h
  | cons d cs ih =>
    rw [skipLayout] at h
    split at h
    · exact ih h
    split at h
    · exact ih h
    split at h
    · exact ih h
    · rename_i hlayout hdash
      cases h
      exact ⟨Bool.eq_false_iff.2 hlayout, by simpa using hdash⟩

theorem layout_of_skipLayout (h : skipLayout false p cs = (q, rest)) :
    ∃ gap, cs = gap ++ rest ∧ q = p.after gap ∧ Layout rest gap := by
  obtain ⟨gap, rfl, hq⟩ := skipLayout_after h
  exact ⟨gap, rfl, hq, skipLayout_skipped h⟩

theorem stuck_of_skipLayout (h : skipLayout false p cs = (q, c :: rest))
    (hfirst : first? (c :: rest) = none) : Stuck (c :: rest) where
  no_lexeme k w hw hlexeme := by
    obtain ⟨_, _, _, hsome, -⟩ := hlexeme.exists_first? hw
    cases hsome.symm.trans hfirst
  no_layout {gap r} hcs hgap := by
    obtain ⟨hlayout, hdash⟩ := skipLayout_ends h
    cases hgap with
    | nil => rfl
    | blank hc _ =>
      obtain ⟨rfl, -⟩ := List.cons.inj hcs
      rw [hlayout] at hc
      cases hc
    | comment =>
      obtain ⟨rfl, rfl⟩ := List.cons.inj hcs
      exact absurd ⟨rfl, rfl⟩ hdash

theorem layout_of_next_done (h : next p cs = .done q) : q = p.after cs ∧ Layout [] cs := by
  unfold next at h
  split at h
  · rename_i hskip
    cases h
    obtain ⟨gap, rfl, hq, hgap⟩ := layout_of_skipLayout hskip
    rw [List.append_nil]
    exact ⟨hq, hgap⟩
  · split at h <;> cases h

/-- A letter that is reported is behind layout, and no token begins with it. -/
theorem stuck_of_next_stray (h : next p cs = .stray q c) :
    ∃ gap rest, cs = gap ++ c :: rest ∧ q = p.after gap ∧ Layout (c :: rest) gap ∧
      Stuck (c :: rest) := by
  unfold next at h
  split at h
  · cases h
  · rename_i hskip
    split at h
    · rename_i hfirst
      cases h
      obtain ⟨gap, hcs, hq, hgap⟩ := layout_of_skipLayout hskip
      exact ⟨gap, _, hcs, hq, hgap, stuck_of_skipLayout hskip hfirst⟩
    · cases h

/-- A token is behind layout, and is as long as it can be. -/
theorem lexeme_of_next_token (h : next p cs = .token q k w rest) :
    ∃ gap, cs = gap ++ (w ++ rest) ∧ q = p.after gap ∧ Layout (w ++ rest) gap ∧ Lexeme k w ∧
      Longest w rest := by
  unfold next at h
  split at h
  · cases h
  · rename_i hskip
    split at h
    · cases h
    · rename_i hfirst
      cases h
      obtain ⟨gap, hcs, hq, hgap⟩ := layout_of_skipLayout hskip
      rw [← (first?_append hfirst).1] at hcs hgap
      exact ⟨gap, hcs, hq, hgap, lexeme_of_first? hfirst, longest_of_first? hfirst⟩

/-! ## Texts in pieces -/

/-- A token with the layout before it. -/
structure Piece where
  gap : List Char
  token : Token

namespace Piece

/-- The characters of a piece: the layout, then the token. -/
def chars (p : Piece) : List Char := p.gap ++ p.token.text.toList

/-- The text that the pieces make up. -/
def written (ps : List Piece) : List Char := ps.flatMap chars

/-- The piece stands as it should between the characters `before` and `after`. -/
structure Fits (file : Option String) (before : List Char) (p : Piece) (after : List Char) :
    Prop where
  layout : Layout (p.token.text.toList ++ after) p.gap
  lexeme : Lexeme p.token.kind p.token.text.toList
  longest : Longest p.token.text.toList after
  place : p.token.loc = .behind file (before ++ p.gap)

/-- After the characters `before`, the pieces `ps` stand as they should, and then there is the
layout `gap` in front of `rest`. -/
structure Splits (file : Option String) (before : List Char) (ps : List Piece)
    (gap rest : List Char) : Prop where
  fits {ps₁ ps₂ : List Piece} {p : Piece} : ps = ps₁ ++ p :: ps₂ →
    p.Fits file (before ++ written ps₁) (written ps₂ ++ (gap ++ rest))
  layout : Layout rest gap

variable {before : List Char} {p : Piece} {ps : List Piece}

theorem written_cons (p : Piece) (ps : List Piece) : written (p :: ps) = p.chars ++ written ps :=
  List.flatMap_cons

theorem Splits.nil (h : Layout rest gap) : Splits file before [] gap rest where
  fits h := by simp at h
  layout := h

theorem Splits.cons (hp : p.Fits file before (written ps ++ (gap ++ rest)))
    (h : Splits file (before ++ p.chars) ps gap rest) : Splits file before (p :: ps) gap rest where
  fits {ps₁ ps₂ p'} hps := by
    cases ps₁ with
    | nil =>
      obtain ⟨rfl, rfl⟩ := List.cons.inj hps
      rwa [show written [] = [] from rfl, List.append_nil]
    | cons p₁ ps₁ =>
      obtain ⟨rfl, rfl⟩ := List.cons.inj hps
      have hfits := h.fits rfl
      rwa [List.append_assoc] at hfits
  layout := h.layout

end Piece

open Piece

variable {before : List Char} {acc : List Token} {r : Except Stray (List Token)}

/-- What splitting the characters `cs`, which stand after `before`, has to give: all of them are
pieces with layout behind the last, and `eof` comes at the end, or there are pieces and layout up to
a character with which neither goes on. -/
def Decomposes (file : Option String) (before cs : List Char) : Except Stray (List Token) → Prop
  | .ok ts => ∃ ps gap, cs = written ps ++ gap ∧ Splits file before ps gap [] ∧
    ts = ps.map (·.token) ++ [⟨.eof, "", .behind file (before ++ cs)⟩]
  | .error s => ∃ ps gap rest, cs = written ps ++ (gap ++ s.char :: rest) ∧
    Splits file before ps gap (s.char :: rest) ∧ Stuck (s.char :: rest) ∧
    s.loc = .behind file (before ++ (written ps ++ gap))

/-- One more piece in front. -/
theorem Decomposes.token (hgap : Layout (w ++ rest) gap) (hlexeme : Lexeme k w)
    (hlongest : Longest w rest) (h : Decomposes file (before ++ (gap ++ w)) rest r) :
    Decomposes file before (gap ++ (w ++ rest))
      (r.map (⟨k, String.ofList w, .behind file (before ++ gap)⟩ :: ·)) := by
  let p : Piece := ⟨gap, ⟨k, String.ofList w, .behind file (before ++ gap)⟩⟩
  have hw : p.token.text.toList = w := String.toList_ofList
  have hchars : p.chars = gap ++ w := congrArg (gap ++ ·) hw
  have hfits : p.Fits file before rest := by
    refine ⟨?_, ?_, ?_, rfl⟩ <;> rw [hw] <;> assumption
  have hcons (ps : List Piece) (cs : List Char) :
      gap ++ (w ++ (written ps ++ cs)) = written (p :: ps) ++ cs := by
    simp only [written_cons, hchars, List.append_assoc]
  rw [← hchars] at h
  cases r with
  | ok ts =>
    obtain ⟨ps, gap', rfl, hsplits, rfl⟩ := h
    refine ⟨p :: ps, gap', hcons ps gap', .cons (by rwa [List.append_nil]) hsplits, ?_⟩
    simp only [hchars, List.append_assoc]
    rfl
  | error s =>
    obtain ⟨ps, gap', rest', rfl, hsplits, hstuck, hloc⟩ := h
    refine ⟨p :: ps, gap', rest', hcons ps _, .cons hfits hsplits, hstuck, ?_⟩
    simp only [hloc, written_cons, hchars, List.append_assoc]

/-- The letters are split into tokens and layout up to the end, or up to one with which nothing
begins. -/
theorem lexFrom_decomposes (hp : p = .after {} before) :
    ∃ r, lexFrom file p cs acc = r.map (acc.reverse ++ ·) ∧ Decomposes file before cs r := by
  fun_induction lexFrom file p cs acc generalizing before with
  | case1 p cs acc q hq =>
    obtain ⟨rfl, hgap⟩ := layout_of_next_done hq
    refine ⟨.ok [⟨.eof, "", .behind file (before ++ cs)⟩], ?_, [], cs, rfl, .nil hgap, rfl⟩
    rw [hp, ← Position.after_append, Position.location_after]
    rfl
  | case2 p cs acc q c hq =>
    obtain ⟨gap, rest, rfl, rfl, hgap, hstuck⟩ := stuck_of_next_stray hq
    refine ⟨.error ⟨c, .behind file (before ++ gap)⟩, ?_, [], gap, rest, rfl, .nil hgap, hstuck,
      rfl⟩
    rw [hp, ← Position.after_append, Position.location_after]
    rfl
  | case3 p cs acc q k w rest hq ih =>
    obtain ⟨gap, rfl, rfl, hgap, hlexeme, hlongest⟩ := lexeme_of_next_token hq
    obtain ⟨r, hr, hrest⟩ := @ih (before ++ (gap ++ w)) (by simp only [hp, Position.after_append])
    refine ⟨_, ?_, hrest.token hgap hlexeme hlongest⟩
    rw [hr, hp, ← Position.after_append, Position.location_after]
    cases r with
    | ok ts => simp [Except.map]
    | error s => rfl

/-- Nothing of a text is lost when it is split into tokens, and all places are exact. -/
theorem lex_lossless (file : Option String) (text : String) :
    Decomposes file [] text.toList (lex file text) := by
  obtain ⟨r, hr, h⟩ := @lexFrom_decomposes {} text.toList file [] [] rfl
  rw [lex, hr]
  cases r with
  | ok ts => exact h
  | error s => exact h

end Token

end SystemFOmega
