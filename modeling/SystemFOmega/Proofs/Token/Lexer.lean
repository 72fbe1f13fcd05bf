import Mathlib.Data.List.TakeWhile
import SystemFOmega.Token.Lexer

/-!
# Tokens of a text

Every token of a text is a text of one token itself, and only the last one is `eof`
(`Token.lex_ok`). Texts put together have the tokens of the parts if no word or numeral goes on
across the seam (`Token.first?_append_of_breaks`).
-/

namespace SystemFOmega.Token

variable {c : Char} {cs w rest : List Char} {k : TokenKind}

/-- The text is one token of the class `k`. -/
def Spells (k : TokenKind) (text : String) : Prop :=
  first? text.toList = some (k, text.toList, [])

instance (k : TokenKind) (text : String) : Decidable (Spells k text) :=
  inferInstanceAs (Decidable (_ = _))

/-- The text of the token has this token and nothing else. -/
def Spelled (t : Token) : Prop := Spells t.kind t.text

theorem takeWhile_takeWhile_self (p : Char → Bool) (cs : List Char) :
    (cs.takeWhile p).takeWhile p = cs.takeWhile p ∧ (cs.takeWhile p).dropWhile p = [] := by
  have h : ∀ c ∈ cs.takeWhile p, p c = true := fun c hc => List.mem_takeWhile_imp hc
  exact ⟨List.takeWhile_eq_self_iff.2 h, List.dropWhile_eq_nil_iff.2 h⟩

/-- The first token of a text is one when it stands alone. -/
theorem first?_alone (h : first? cs = some (k, w, rest)) : first? w = some (k, w, []) := by
  cases cs with
  | nil => cases h
  | cons c cs =>
    simp only [first?] at h
    split at h
    · rename_i hd
      cases h
      obtain ⟨ht, hr⟩ := takeWhile_takeWhile_self Text.isDigit cs
      simp only [first?, hd, if_true, ht, hr]
    split at h
    · rename_i hd hs
      cases h
      obtain ⟨ht, hr⟩ := takeWhile_takeWhile_self continuesWord cs
      simp only [first?, hd, hs, if_true, ht, hr]
      rfl
    split at h
    · cases h
      decide +kernel
    · rename_i hd hs ha
      obtain ⟨k', hk, h⟩ := Option.map_eq_some_iff.1 h
      cases h
      simp only [first?, hd, hs, hk, Option.map_some]
      simp

theorem wordKind_ne_eof (w : List Char) : wordKind w ≠ .eof := by
  unfold wordKind
  split
  · rename_i k hk
    unfold keyword? at hk
    split at hk <;> cases hk <;> decide
  · split <;> decide

theorem symbol?_ne_eof (h : symbol? c = some k) : k ≠ .eof := by
  unfold symbol? at h
  split at h <;> cases h <;> decide

/-- No letters are read as the end of the text. -/
theorem kind_of_first? (h : first? cs = some (k, w, rest)) : k ≠ .eof := by
  cases cs with
  | nil => cases h
  | cons c cs =>
    simp only [first?] at h
    split at h
    · cases h
      decide
    split at h
    · cases h
      exact wordKind_ne_eof _
    split at h
    · cases h
      decide
    · obtain ⟨k', hk, h⟩ := Option.map_eq_some_iff.1 h
      cases h
      exact symbol?_ne_eof hk

theorem Spelled.kind_ne_eof {t : Token} (h : t.Spelled) : t.kind ≠ .eof := kind_of_first? h

theorem first?_of_next {p q : Position} (h : next p cs = .token q k w rest) :
    ∃ cs, first? cs = some (k, w, rest) := by
  unfold next at h
  split at h
  · cases h
  split at h
  · cases h
  · rename_i hf
    cases h
    exact ⟨_, hf⟩

/-- What is found are tokens that are spelled out, and then `eof`. -/
theorem lexFrom_ok {file : Option String} {p : Position} {acc ts : List Token}
    (h : lexFrom file p cs acc = .ok ts) :
    ∃ body l, ts = acc.reverse ++ body ++ [⟨.eof, "", l⟩] ∧ ∀ t ∈ body, t.Spelled := by
  fun_induction lexFrom file p cs acc with
  | case1 p cs acc q hq =>
    cases h
    exact ⟨[], q.location file, by simp, List.forall_mem_nil _⟩
  | case2 => cases h
  | case3 p cs acc q k w rest hq ih =>
    obtain ⟨body, l, rfl, hbody⟩ := ih h
    obtain ⟨cs', hf⟩ := first?_of_next hq
    refine ⟨⟨k, String.ofList w, q.location file⟩ :: body, l, by simp, ?_⟩
    refine List.forall_mem_cons.2 ⟨?_, hbody⟩
    show first? (String.ofList w).toList = _
    rw [String.toList_ofList]
    exact first?_alone hf

/-- A text that can be split into tokens ends in `eof`, and its other tokens are spelled out. -/
theorem lex_ok {file : Option String} {text : String} {ts : List Token}
    (h : lex file text = .ok ts) :
    ∃ body l, ts = body ++ [⟨.eof, "", l⟩] ∧ ∀ t ∈ body, t.Spelled := by
  obtain ⟨body, l, rfl, hbody⟩ := lexFrom_ok h
  exact ⟨body, l, by simp, hbody⟩

/-! ## Texts put together -/

/-- No word or numeral goes on with the text. -/
def Breaks (cs : List Char) : Prop :=
  ∀ c ∈ cs.head?, Text.isDigit c = false ∧ continuesWord c = false

theorem Breaks.append (h : Breaks cs) (hr : Breaks rest) : Breaks (cs ++ rest) := by
  cases cs with
  | nil => exact hr
  | cons c cs => exact h

theorem breaks_layout (h : isLayout c) (cs : List Char) : Breaks (c :: cs) := by
  simp only [isLayout, Bool.or_eq_true, decide_eq_true_eq] at h
  rintro _ ⟨⟩
  rcases h with ((rfl | rfl) | rfl) | rfl <;> decide +kernel

theorem breaks_space (cs : List Char) : Breaks (' ' :: cs) := breaks_layout rfl cs

theorem isDigit_symbol (h : symbol? c = some k) : Text.isDigit c = false ∧ c ≠ '-' := by
  unfold symbol? at h
  split at h <;> cases h <;> decide +kernel

theorem breaks_symbol (h : symbol? c = some k) (cs : List Char) : Breaks (c :: cs) := by
  rintro _ ⟨⟩
  exact ⟨(isDigit_symbol h).1, by simp [continuesWord, h]⟩

theorem first?_symbol (h : symbol? c = some k) (cs : List Char) :
    first? (c :: cs) = some (k, [c], cs) := by
  obtain ⟨hd, hc⟩ := isDigit_symbol h
  simp [first?, startsWord, hd, hc, h]

theorem first?_arrow (cs : List Char) :
    first? ('-' :: '>' :: cs) = some (.arrow, ['-', '>'], cs) := by
  have hd : Text.isDigit '-' = false ∧ startsWord '-' = false := by decide +kernel
  simp [first?, hd]

theorem takeWhile_append_self {p : Char → Bool} (h : ∀ c ∈ cs, p c = true)
    (hr : ∀ c ∈ rest.head?, p c = false) :
    (cs ++ rest).takeWhile p = cs ∧ (cs ++ rest).dropWhile p = rest := by
  rw [List.takeWhile_append_of_pos h, List.dropWhile_append_of_pos h]
  cases rest with
  | nil => simp
  | cons c rest => simp [hr c rfl]

/-- A token goes on being the first one if no word goes on with what is put behind it. -/
theorem first?_append_of_breaks (hw : first? w = some (k, w, [])) (hr : Breaks rest) :
    first? (w ++ rest) = some (k, w, rest) := by
  cases w with
  | nil => cases hw
  | cons c cs =>
    rw [List.cons_append]
    simp only [first?] at hw
    split at hw
    · rename_i hd
      simp only [Option.some.injEq, Prod.mk.injEq, List.cons.injEq, true_and] at hw
      obtain ⟨rfl, hcs, -⟩ := hw
      have hall := List.takeWhile_eq_self_iff.1 hcs
      obtain ⟨ht, hs⟩ := takeWhile_append_self hall fun c hc => (hr c hc).1
      simp [first?, hd, ht, hs]
    split at hw
    · rename_i hd hs
      simp only [Option.some.injEq, Prod.mk.injEq, List.cons.injEq, true_and] at hw
      obtain ⟨rfl, hcs, -⟩ := hw
      have hall := List.takeWhile_eq_self_iff.1 hcs
      obtain ⟨ht, hr⟩ := takeWhile_append_self hall fun c hc => (hr c hc).2
      simp [first?, hd, hs, ht, hr, hcs]
    -- the arrow and the other symbols end where they end, whatever follows
    split at hw
    · cases hw
      exact first?_arrow rest
    · obtain ⟨k', hk, hw⟩ := Option.map_eq_some_iff.1 hw
      cases hw
      exact first?_symbol hk rest

/-- No token begins with a letter that is no digit, starts no word and is no symbol. -/
theorem first?_eq_none
    (h : Text.isDigit c = false ∧ startsWord c = false ∧ symbol? c = none)
    (ha : ¬ (c = '-' ∧ cs.head? = some '>')) : first? (c :: cs) = none := by
  simp [first?, h, ha]

/-- A first token has no layout before it. -/
theorem next_of_first? (h : first? cs = some (k, w, rest)) (p : Position) :
    next p cs = .token p k w rest := by
  cases cs with
  | nil => cases h
  | cons c cs =>
    have hl : isLayout c = false := by
      refine Bool.eq_false_iff.2 fun hl => ?_
      simp only [isLayout, Bool.or_eq_true, decide_eq_true_eq] at hl
      rcases hl with ((rfl | rfl) | rfl) | rfl <;>
        cases h.symm.trans (first?_eq_none (by decide +kernel) (by simp))
    have hc : ¬ (c = '-' ∧ cs.head? = some '-') := by
      rintro ⟨rfl, hcs⟩
      cases h.symm.trans (first?_eq_none (by decide +kernel) (by simp [hcs]))
    have hskip : skipLayout false p (c :: cs) = (p, c :: cs) := by
      simp [skipLayout, hl, hc]
    simp only [next, hskip, h]

theorem lexFrom_eq (file : Option String) (p : Position) (cs : List Char) (acc : List Token) :
    lexFrom file p cs acc = match next p cs with
      | .done q => .ok (acc.reverse ++ [⟨.eof, "", q.location file⟩])
      | .stray q c => .error ⟨c, q.location file⟩
      | .token q k w rest =>
        lexFrom file (q.after w) rest (⟨k, String.ofList w, q.location file⟩ :: acc) := by
  rw [lexFrom]
  split <;> rename_i h <;> rw [h]

theorem lexFrom_space (file : Option String) (p : Position) (cs : List Char) (acc : List Token) :
    lexFrom file p (' ' :: cs) acc = lexFrom file (p.next ' ') cs acc := by
  rw [lexFrom_eq, lexFrom_eq]
  rfl

/-- A text that begins with a token is split behind it. -/
theorem lexFrom_first? {file : Option String} {p : Position}
    (h : first? cs = some (k, w, rest)) (acc : List Token) :
    lexFrom file p cs acc =
      lexFrom file (p.after w) rest (⟨k, String.ofList w, p.location file⟩ :: acc) := by
  rw [lexFrom_eq, next_of_first? h]

theorem lexFrom_nil (file : Option String) (p : Position) (acc : List Token) :
    lexFrom file p [] acc = .ok (acc.reverse ++ [⟨.eof, "", p.location file⟩]) := by
  rw [lexFrom_eq]
  rfl

end SystemFOmega.Token
