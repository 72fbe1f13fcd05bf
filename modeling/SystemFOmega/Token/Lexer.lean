import SystemFOmega.Text.Digit
import SystemFOmega.Text.Letter
import SystemFOmega.Text.Upper
import SystemFOmega.Token.Basic

/-!
# Splitting a text into tokens

Layout is space, tab, carriage return, line feed, and comments from `--` to the end of the line.
Between layout stand tokens: `Token.first?` gives the one that a text starts with, which is the
longest numeral or word, or a symbol. `Token.lex` alternates the two until the text ends
or a character starts no token.

* `Token.first?_append`: a first token and what follows it make up the text.
* `Token.length_skipLayout`: layout is skipped forwards.
-/

namespace SystemFOmega

/-- A place in a text: line and column, both counted from one. -/
structure Position where
  line : Nat := 1
  column : Nat := 1
deriving DecidableEq

namespace Position

/-- The place after the character `c`. -/
def next (p : Position) (c : Char) : Position :=
  if c = '\n' then ⟨p.line + 1, 1⟩ else ⟨p.line, p.column + 1⟩

/-- The place after the characters `cs`. -/
def after (p : Position) (cs : List Char) : Position := cs.foldl next p

/-- A position in the file of the given name. -/
def location (p : Position) (file : Option String) : Location := ⟨p.line, p.column, file⟩

end Position

namespace Token

/-! ## Layout -/

/-- Whether a character only sets tokens apart. -/
def isLayout (c : Char) : Bool := c = ' ' || c = '\t' || c = '\r' || c = '\n'

/-- Passes over layout from the place `p`. The flag says whether a comment is open. -/
def skipLayout (comment : Bool) (p : Position) : List Char → Position × List Char
  | [] => (p, [])
  | c :: cs =>
    if comment then skipLayout (c ≠ '\n') (p.next c) cs
    else if isLayout c then skipLayout false (p.next c) cs
    else if c = '-' && cs.head? = some '-' then skipLayout true (p.next c) cs
    else (p, c :: cs)

theorem length_skipLayout (b : Bool) (p : Position) (cs : List Char) :
    (skipLayout b p cs).2.length ≤ cs.length := by
  induction cs generalizing b p with
  | nil => simp [skipLayout]
  | cons c cs ih =>
    rw [skipLayout]
    split
    · exact Nat.le_succ_of_le (ih _ _)
    split
    · exact Nat.le_succ_of_le (ih _ _)
    split
    · exact Nat.le_succ_of_le (ih _ _)
    · exact Nat.le_refl _

/-! ## Words, numerals and symbols -/

/-- The symbols of one character. -/
def symbol? : Char → Option TokenKind
  | '(' => some .lparen
  | ')' => some .rparen
  | '[' => some .lbracket
  | ']' => some .rbracket
  | '*' => some .star
  | '.' => some .dot
  | ':' => some .colon
  | '=' => some .equals
  | 'λ' => some .lambda
  | 'Λ' => some .lambda
  | '\\' => some .lambda
  | '∀' => some .forAll
  | _ => none

/-- A character that can start a word. The letters `λ` and `Λ` are symbols and start none. -/
def startsWord (c : Char) : Bool := (Text.isLetter c || c = '_') && (symbol? c).isNone

/-- A character that can stand inside a word. -/
def continuesWord (c : Char) : Bool :=
  (Text.isLetter c || Text.isNumeric c || c = '_' || c = Text.apostrophe) && (symbol? c).isNone

/-- The class of a word that is not a name. -/
def keyword? : String → Option TokenKind
  | "let" => some .letWord
  | "in" => some .inWord
  | "type" => some .typeWord
  | "kind" => some .kindWord
  | "lambda" => some .lambda
  | "forall" => some .forAll
  | "Int" => some .intType
  | _ => none

/-- The class of a word: a keyword, or a name by its first character. -/
def wordKind (cs : List Char) : TokenKind :=
  match keyword? (String.ofList cs) with
  | some k => k
  | none => if cs.head?.any Text.isUpper then .upperName else .lowerName

/-- The class and the characters of the token that a text starts with, and the rest of it. -/
def first? : List Char → Option (TokenKind × List Char × List Char)
  | [] => none
  | c :: cs =>
    if Text.isDigit c then
      some (.numeral, c :: cs.takeWhile Text.isDigit, cs.dropWhile Text.isDigit)
    else if startsWord c then
      let word := c :: cs.takeWhile continuesWord
      some (wordKind word, word, cs.dropWhile continuesWord)
    else if c = '-' && cs.head? = some '>' then some (.arrow, ['-', '>'], cs.tail)
    else (symbol? c).map fun k => (k, [c], cs)

theorem first?_append {cs w rest : List Char} {k : TokenKind} (h : first? cs = some (k, w, rest)) :
    w ++ rest = cs ∧ w ≠ [] := by
  cases cs with
  | nil => simp [first?] at h
  | cons c cs =>
    simp only [first?] at h
    split at h
    · simp only [Option.some.injEq, Prod.mk.injEq] at h
      obtain ⟨-, rfl, rfl⟩ := h
      simp
    split at h
    · simp only [Option.some.injEq, Prod.mk.injEq] at h
      obtain ⟨-, rfl, rfl⟩ := h
      simp
    split at h
    · next ha =>
      simp only [Option.some.injEq, Prod.mk.injEq] at h
      obtain ⟨-, rfl, rfl⟩ := h
      cases cs with
      | nil => simp at ha
      | cons d ds => simp_all
    · obtain ⟨k', -, h⟩ := Option.map_eq_some_iff.1 h
      simp only [Prod.mk.injEq] at h
      obtain ⟨-, rfl, rfl⟩ := h
      simp

theorem length_of_first? {cs w rest : List Char} {k : TokenKind}
    (h : first? cs = some (k, w, rest)) : rest.length < cs.length := by
  obtain ⟨rfl, hw⟩ := first?_append h
  have := List.length_pos_iff.2 hw
  simp only [List.length_append]
  omega

/-! ## Whole texts -/

/-- A character that starts no token. -/
structure Stray where
  char : Char
  loc : Location
deriving DecidableEq

/-- What a text has after its layout: nothing, a character that starts no token, or a token. The
place is where that stands. -/
inductive Next where
  | done (p : Position)
  | stray (p : Position) (c : Char)
  | token (p : Position) (k : TokenKind) (w rest : List Char)

/-- What `cs`, which stands at `p`, has after its layout. -/
def next (p : Position) (cs : List Char) : Next :=
  match skipLayout false p cs with
  | (q, []) => .done q
  | (q, c :: cs) =>
    match first? (c :: cs) with
    | none => .stray q c
    | some (k, w, rest) => .token q k w rest

theorem length_of_next {p q : Position} {cs w rest : List Char} {k : TokenKind}
    (h : next p cs = .token q k w rest) : rest.length < cs.length := by
  have hs := length_skipLayout false p cs
  unfold next at h
  split at h
  · simp at h
  · next q' c cs' hq =>
    rw [hq] at hs
    split at h
    · simp at h
    · next k' w' rest' hf =>
      simp only [Next.token.injEq] at h
      obtain ⟨rfl, rfl, rfl, rfl⟩ := h
      exact Nat.lt_of_lt_of_le (length_of_first? hf) hs

/-- The tokens of `cs`, which stands at `p`, behind those in `acc`, the latest first. -/
def lexFrom (file : Option String) (p : Position) (cs : List Char) (acc : List Token) :
    Except Stray (List Token) :=
  match h : next p cs with
  | .done q => .ok (acc.reverse ++ [⟨.eof, "", q.location file⟩])
  | .stray q c => .error ⟨c, q.location file⟩
  | .token q k w rest =>
    lexFrom file (q.after w) rest (⟨k, String.ofList w, q.location file⟩ :: acc)
termination_by cs.length
decreasing_by exact length_of_next h

/-- The tokens of a text, closed by `eof`, or the first character that starts none. -/
def lex (file : Option String) (text : String) : Except Stray (List Token) :=
  lexFrom file {} text.toList []

end Token

end SystemFOmega
