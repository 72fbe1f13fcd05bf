import SystemFOmega.Diagnostic.Excerpt
import SystemFOmega.Token.Lexer

/-!
# Places of tokens

A token, and a character that starts none, stands at the place that is reached by passing over a
first part of the text, character by character (`Token.lex_places`). Such a place lies within the
text (`Location.Within`): on one of its lines, and at most one column behind the end of that line.
-/

namespace SystemFOmega

/-- The place lies on a line of the text, at most one column behind its end. -/
structure Location.Within (text : String) (l : Location) : Prop where
  one_le_line : 1 ≤ l.line
  line_le : l.line ≤ (sourceLines text).length
  one_le_column : 1 ≤ l.column
  column_le {line : String} : (sourceLines text)[(l.line - 1).toNat]? = some line →
    l.column ≤ line.length + 1

namespace Position

variable {p : Position} {cs rest : List Char}

theorem after_append (p : Position) (cs cs' : List Char) :
    p.after (cs ++ cs') = (p.after cs).after cs' := List.foldl_append

theorem one_le_column_after (h : 1 ≤ p.column) (cs : List Char) : 1 ≤ (p.after cs).column := by
  induction cs generalizing p with
  | nil => exact h
  | cons c cs ih =>
    refine ih ?_
    unfold next
    split
    · exact Nat.le_refl 1
    · exact Nat.le_add_left 1 _

theorem splitOn_newline (cs : List Char) : ('\n' :: cs).splitOn '\n' = [] :: cs.splitOn '\n' :=
  List.splitOnP_cons_eq_if_modifyHead '\n' cs

theorem splitOn_of_ne {c : Char} (h : c ≠ '\n') (cs : List Char) :
    (c :: cs).splitOn '\n' = (cs.splitOn '\n').modifyHead (c :: ·) :=
  (List.splitOnP_cons_eq_if_modifyHead c cs).trans (if_neg (by simpa using h))

/-- After a first part of a text one stands on a line of it. The columns of the first line are
counted from the column of the start. -/
theorem after_line (p : Position) (cs rest : List Char) :
    ∃ i line, ((cs ++ rest).splitOn '\n')[i]? = some line ∧ (p.after cs).line = p.line + i ∧
      (p.after cs).column ≤ line.length + if i = 0 then p.column else 1 := by
  induction cs generalizing p with
  | nil =>
    have hne := List.splitOnP_ne_nil (· == '\n') rest
    obtain ⟨line, lines, hlines⟩ := List.exists_cons_of_ne_nil hne
    exact ⟨0, line, congrArg (·[0]?) hlines, rfl, Nat.le_add_left _ _⟩
  | cons c cs ih =>
    have hafter : p.after (c :: cs) = (p.next c).after cs := rfl
    obtain ⟨i, line, hi, hline, hcolumn⟩ := ih (p.next c)
    rw [hafter, hline, List.cons_append]
    by_cases hc : c = '\n'
    · -- the lines of the rest come one later
      subst hc
      have hnext : p.next '\n' = ⟨p.line + 1, 1⟩ := rfl
      rw [hnext] at hcolumn ⊢
      refine ⟨i + 1, line, ?_, by dsimp only; omega, by simpa using hcolumn⟩
      rw [splitOn_newline, List.getElem?_cons_succ]
      exact hi
    · -- the first line of the rest gets one longer
      have hnext : p.next c = ⟨p.line, p.column + 1⟩ := if_neg hc
      rw [hnext] at hcolumn ⊢
      rw [splitOn_of_ne hc]
      cases i with
      | zero =>
        refine ⟨0, c :: line, by simp [hi], rfl, ?_⟩
        simp only [if_true, List.length_cons] at hcolumn ⊢
        omega
      | succ i => exact ⟨i + 1, line, by simpa using hi, rfl, hcolumn⟩

/-- The place that is reached after a first part of a text lies in it. -/
theorem location_within {text : String} (h : text.toList = cs ++ rest) (file : Option String) :
    ((Position.after {} cs).location file).Within text := by
  obtain ⟨i, line, hi, hline, hcolumn⟩ := after_line {} cs rest
  have hlines : (sourceLines text)[i]? = some (String.ofList line) := by
    rw [sourceLines, h, List.getElem?_map, hi]
    rfl
  have hlt : i < (sourceLines text).length := (List.getElem?_eq_some_iff.1 hlines).1
  have hindex : (((Position.after {} cs).location file).line - 1).toNat = i := by
    simp only [location, hline]
    omega
  refine ⟨?_, ?_, ?_, fun {line'} hline' => ?_⟩
  · simp only [location, hline]
    omega
  · simp only [location, hline]
    omega
  · have := one_le_column_after (p := {}) (Nat.le_refl 1) cs
    simp only [location]
    omega
  · rw [hindex, hlines] at hline'
    obtain rfl := Option.some.inj hline'
    simp only [ite_self] at hcolumn
    rw [String.length_ofList]
    simp only [location]
    omega

/-- The place is reached from `p` by passing over a first part of `cs`. -/
def Reaches (p : Position) (cs : List Char) (file : Option String) (l : Location) : Prop :=
  ∃ pre rest, cs = pre ++ rest ∧ l = (p.after pre).location file

theorem Reaches.within {text : String} {file : Option String} {l : Location}
    (h : Reaches {} text.toList file l) : l.Within text := by
  obtain ⟨pre, rest, hcs, rfl⟩ := h
  exact location_within hcs file

/-- A place that is reached from one further on. -/
theorem Reaches.append {file : Option String} {l : Location} (pre : List Char)
    (h : (p.after pre).Reaches cs file l) : p.Reaches (pre ++ cs) file l := by
  obtain ⟨pre', rest, rfl, rfl⟩ := h
  exact ⟨pre ++ pre', rest, (List.append_assoc _ _ _).symm, by rw [after_append]⟩

end Position

namespace Token

variable {p q : Position} {cs w rest : List Char} {file : Option String}

theorem skipLayout_after {b : Bool} (h : skipLayout b p cs = (q, rest)) :
    ∃ pre, cs = pre ++ rest ∧ q = p.after pre := by
  induction cs generalizing b p with
  | nil =>
    cases h
    exact ⟨[], rfl, rfl⟩
  | cons c cs ih =>
    have hskip {b : Bool} (h : skipLayout b (p.next c) cs = (q, rest)) :
        ∃ pre, c :: cs = pre ++ rest ∧ q = p.after pre := by
      obtain ⟨pre, rfl, rfl⟩ := ih h
      exact ⟨c :: pre, rfl, rfl⟩
    rw [skipLayout] at h
    split at h
    · exact hskip h
    split at h
    · exact hskip h
    split at h
    · exact hskip h
    · cases h
      exact ⟨[], rfl, rfl⟩

/-- The place at which layout ends. -/
def Next.position : Next → Position
  | .done q | .stray q _ | .token q _ _ _ => q

theorem next_reaches (p : Position) (cs : List Char) (file : Option String) :
    p.Reaches cs file ((next p cs).position.location file) := by
  cases h : skipLayout false p cs with
  | mk q rest =>
    obtain ⟨pre, rfl, rfl⟩ := skipLayout_after h
    refine ⟨pre, rest, rfl, ?_⟩
    unfold next
    rw [h]
    cases rest with
    | nil => rfl
    | cons c cs =>
      dsimp only
      split <;> rfl

/-- What comes after a token stands behind it. -/
theorem next_token {k : TokenKind} (h : next p cs = .token q k w rest) :
    ∃ pre, cs = pre ++ (w ++ rest) ∧ q = p.after pre := by
  unfold next at h
  split at h
  · cases h
  · rename_i hskip
    obtain ⟨pre, rfl, rfl⟩ := skipLayout_after hskip
    split at h
    · cases h
    · rename_i hfirst
      cases h
      exact ⟨pre, by rw [(first?_append hfirst).1], rfl⟩

theorem lexFrom_places {P : Location → Prop} {acc : List Token} (hacc : ∀ t ∈ acc, P t.loc)
    (hP : ∀ l, p.Reaches cs file l → P l) :
    (∀ ts, lexFrom file p cs acc = .ok ts → ∀ t ∈ ts, P t.loc) ∧
      ∀ s, lexFrom file p cs acc = .error s → P s.loc := by
  have hnext := hP _ (next_reaches p cs file)
  fun_induction lexFrom file p cs acc with
  | case1 p cs acc q hq =>
    rw [hq] at hnext
    refine ⟨?_, ?_⟩
    · rintro ts ⟨⟩ t ht
      obtain ht | ht := List.mem_append.1 ht
      · exact hacc t (List.mem_reverse.1 ht)
      · obtain rfl := List.mem_singleton.1 ht
        exact hnext
    · rintro s ⟨⟩
  | case2 p cs acc q c hq =>
    rw [hq] at hnext
    refine ⟨?_, ?_⟩
    · rintro ts ⟨⟩
    · rintro s ⟨⟩
      exact hnext
  | case3 p cs acc q k w rest hq ih =>
    rw [hq] at hnext
    obtain ⟨pre, rfl, rfl⟩ := next_token hq
    have hrest (l : Location) (hl : ((p.after pre).after w).Reaches rest file l) : P l :=
      hP l ((hl.append w).append pre)
    exact ih (List.forall_mem_cons.2 ⟨hnext, hacc⟩) hrest (hrest _ (next_reaches _ _ _))

/-- Every token of a text stands at a place in it, and so does a character that starts none. -/
theorem lex_places (file : Option String) (text : String) :
    (∀ ts, lex file text = .ok ts → ∀ t ∈ ts, t.loc.Within text) ∧
      ∀ s, lex file text = .error s → s.loc.Within text :=
  lexFrom_places (List.forall_mem_nil _) fun _ hl => hl.within

end Token

end SystemFOmega
