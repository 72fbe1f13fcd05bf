import SystemFOmega.Proofs.Token.Lexer
import SystemFOmega.Proofs.Token.Places

/-!
# Tokens with other layout between them

The texts of some tokens with layout between any two of them (`Token.Spaced`) are a text of these
tokens: each is read as it was where it came from, at another place (`Token.lex_spaced`). Layout
that separates tokens starts with a blank, so no word and no numeral goes on across it, and every
comment in it is ended by a line feed of its own (`Token.Separator`).
-/

namespace SystemFOmega.Token

variable {p : Position} {c : Char} {cs gap body : List Char} {file file' : Option String}
  {acc acc' ts : List Token}

/-- The class and the text of a token, without its place. -/
def unlocated (t : Token) : TokenKind × String := (t.kind, t.text)

/-- Layout that separates tokens: blanks, and comments that come behind a blank and run to the end
of a line. -/
inductive Separator : List Char → Prop
  | blank {c : Char} : isLayout c → Separator [c]
  | cons {c : Char} {gap : List Char} : isLayout c → Separator gap → Separator (c :: gap)
  | comment {c : Char} {body gap : List Char} : isLayout c → '\n' ∉ body →
    Separator ('\n' :: gap) → Separator (c :: '-' :: '-' :: (body ++ '\n' :: gap))

/-- The characters are the texts of the tokens, with layout between any two of them. -/
inductive Spaced : List Token → List Char → Prop
  | nil : Spaced [] []
  | last (t : Token) : Spaced [t] t.text.toList
  | cons (t : Token) {u : Token} {ts : List Token} {gap cs : List Char} : Separator gap →
    Spaced (u :: ts) cs → Spaced (t :: u :: ts) (t.text.toList ++ (gap ++ cs))

/-! ## Separators are skipped -/

theorem skipLayout_blank (h : isLayout c) (p : Position) (cs : List Char) :
    skipLayout false p (c :: cs) = skipLayout false (p.next c) cs := by
  simp [skipLayout, h]

theorem skipLayout_dashes (p : Position) (cs : List Char) :
    skipLayout false p ('-' :: '-' :: cs) = skipLayout true (p.after ['-', '-']) cs := by
  have h : isLayout '-' = false := by decide
  simp [skipLayout, h, Position.after]

/-- An open comment goes on to the end of the line. -/
theorem skipLayout_comment (h : '\n' ∉ body) (p : Position) (cs : List Char) :
    skipLayout true p (body ++ '\n' :: cs) = skipLayout false (p.after body) ('\n' :: cs) := by
  induction body generalizing p with
  | nil => simp [skipLayout, isLayout, Position.after]
  | cons d body ih =>
    obtain ⟨hd, hbody⟩ := not_or.1 (mt List.mem_cons.2 h)
    rw [List.cons_append, skipLayout, if_pos rfl, decide_eq_true (Ne.symm hd)]
    exact ih hbody (p.next d)

namespace Separator

theorem skipLayout_append (h : Separator gap) (p : Position) (cs : List Char) :
    skipLayout false p (gap ++ cs) = skipLayout false (p.after gap) cs := by
  induction h generalizing p with
  | blank hc => exact skipLayout_blank hc p cs
  | cons hc _ ih =>
    rw [List.cons_append, skipLayout_blank hc]
    exact ih (p.next _)
  | @comment c body gap hc hbody _ ih =>
    have hgap (q : Position) : q.after (c :: '-' :: '-' :: (body ++ '\n' :: gap)) =
        (((q.next c).after ['-', '-']).after body).after ('\n' :: gap) := by
      rw [← Position.after_append, ← Position.after_append]
      rfl
    rw [hgap, ← ih]
    simp only [List.cons_append, List.append_assoc]
    rw [skipLayout_blank hc, skipLayout_dashes, skipLayout_comment hbody]

/-- Layout in front of a text only moves its tokens. -/
theorem lexFrom_append (h : Separator gap) (file : Option String) (p : Position) (cs : List Char)
    (acc : List Token) :
    lexFrom file p (gap ++ cs) acc = lexFrom file (p.after gap) cs acc := by
  have hnext : next p (gap ++ cs) = next (p.after gap) cs := by
    unfold next
    rw [h.skipLayout_append]
  rw [lexFrom_eq, hnext, ← lexFrom_eq]

theorem breaks (h : Separator gap) (cs : List Char) : Breaks (gap ++ cs) := by
  cases h with
  | blank hc => exact breaks_layout hc _
  | cons hc _ => exact breaks_layout hc _
  | comment hc _ _ => exact breaks_layout hc _

end Separator

/-! ## Texts with other layout -/

theorem lexFrom_token {t : Token} (ht : t.Spelled) (hcs : Breaks cs) (file : Option String)
    (p : Position) (acc : List Token) :
    lexFrom file p (t.text.toList ++ cs) acc =
      lexFrom file (p.after t.text.toList) cs (⟨t.kind, t.text, p.location file⟩ :: acc) := by
  rw [lexFrom_first? (first?_append_of_breaks ht hcs), String.ofList_toList]

/-- Tokens that are spelled out with layout between them are found again. -/
theorem Spaced.lexFrom (h : Spaced ts cs) (hts : ∀ t ∈ ts, t.Spelled) (file : Option String)
    (p : Position) (acc : List Token) :
    ∃ ts', lexFrom file p cs acc = .ok (acc.reverse ++ ts') ∧
      ts'.map unlocated = ts.map unlocated ++ [(.eof, "")] := by
  induction h generalizing p acc with
  | nil => exact ⟨_, lexFrom_nil file p acc, rfl⟩
  | last t =>
    have hnil : Breaks [] := by simp [Breaks]
    have hlex := lexFrom_token (hts t List.mem_cons_self) hnil file p acc
    rw [List.append_nil, lexFrom_nil, List.reverse_cons, List.append_assoc] at hlex
    exact ⟨_, hlex, rfl⟩
  | @cons t u ts gap cs hgap _ ih =>
    obtain ⟨ht, hts⟩ := List.forall_mem_cons.1 hts
    obtain ⟨ts', hlex, hts'⟩ := ih hts ((p.after t.text.toList).after gap)
      (⟨t.kind, t.text, p.location file⟩ :: acc)
    refine ⟨⟨t.kind, t.text, p.location file⟩ :: ts', ?_, congrArg (t.unlocated :: ·) hts'⟩
    rw [lexFrom_token ht (hgap.breaks cs), hgap.lexFrom_append, hlex, List.reverse_cons,
      List.append_assoc, List.singleton_append]

/-- A text that is made of the tokens of another one with other layout has the same tokens. -/
theorem lex_spaced {text text' : String} {e : Token} (hlex : lex file text = .ok (ts ++ [e]))
    (h : Spaced ts text'.toList) (file' : Option String) :
    ∃ ts', lex file' text' = .ok ts' ∧ ts'.map unlocated = (ts ++ [e]).map unlocated := by
  obtain ⟨body, l, hts, hbody⟩ := lex_ok hlex
  obtain ⟨rfl, he⟩ := List.append_inj' hts rfl
  obtain rfl := List.singleton_inj.1 he
  obtain ⟨ts', hlex', hts'⟩ := h.lexFrom hbody file' {} []
  refine ⟨ts', hlex', ?_⟩
  rw [hts', List.map_append]
  rfl

/-- The name of its file does not matter for the tokens of a text. -/
theorem lexFrom_file (h : lexFrom file p cs acc = .ok ts)
    (hacc : acc'.map unlocated = acc.map unlocated) (file' : Option String) :
    ∃ ts', lexFrom file' p cs acc' = .ok ts' ∧ ts'.map unlocated = ts.map unlocated := by
  fun_induction lexFrom file p cs acc generalizing acc' with
  | case1 p cs acc q hq =>
    cases h
    refine ⟨_, by rw [lexFrom_eq, hq], ?_⟩
    simp [hacc, unlocated]
  | case2 => cases h
  | case3 p cs acc q k w rest hq ih =>
    rw [lexFrom_eq, hq]
    exact ih h (congrArg ((k, String.ofList w) :: ·) hacc)

/-- The name of the file is only a part of the places. -/
theorem lex_file {text : String} (h : lex file text = .ok ts) (file' : Option String) :
    ∃ ts', lex file' text = .ok ts' ∧ ts'.map unlocated = ts.map unlocated :=
  lexFrom_file h rfl file'

end SystemFOmega.Token
