/-!
# Terminal styles

Output is styled by what a piece of text stands for. With colours on, a style puts terminal codes
around the text; with colours off only the marks of messages are left.
-/

namespace SystemFOmega

/-- Whether colours are on. -/
structure Palette where
  color : Bool
deriving DecidableEq

/-- What a piece of text is, for which there may be a colour. -/
inductive Style where
  | success | error | warning | info
  | hint | bold | dim | keyword | typeName | kindName | varName | literal | prompt
deriving DecidableEq

/-- The number of a style's colour or weight in a terminal code. -/
def Style.code : Style → String
  | .success | .literal => "32"
  | .error => "31"
  | .warning | .hint => "33"
  | .info | .kindName => "34"
  | .bold | .varName => "1"
  | .dim => "2"
  | .keyword => "35"
  | .typeName => "36"
  | .prompt => "94"

/-- The mark in front of a message of this style. -/
def Style.mark? : Style → Option String
  | .success => some "✓"
  | .error => some "✗"
  | .warning => some "⚠"
  | .info => some "ℹ"
  | _ => none

namespace Palette

/-- `text` between the code of `s` and the code that ends all styles. -/
def wrap (p : Palette) (s : Style) (text : String) : String :=
  if p.color then "\x1b[" ++ s.code ++ "m" ++ text ++ "\x1b[0m" else text

/-- `text` in the style `s`. A message is plain behind its styled mark. -/
def paint (p : Palette) (s : Style) (text : String) : String :=
  match s.mark? with
  | some mark => p.wrap s mark ++ " " ++ text
  | none => p.wrap s text

end Palette

/-! ## Terminal codes in a text -/

/-- A character that may stand between the bracket of a terminal code and its letter. -/
def isCodeParameter (c : Char) : Bool := c.isDigit || c = ';' || c = '?'

/-- How many characters a terminal code has behind its escape character, if `cs` starts with them:
a bracket, parameters and a letter. -/
def codeLength? : List Char → Option Nat
  | '[' :: cs =>
    match cs.dropWhile isCodeParameter with
    | c :: _ => if c.isAlpha then some ((cs.takeWhile isCodeParameter).length + 2) else none
    | [] => none
  | _ => none

/-- Takes the terminal codes out of a text whose first `n` characters are the rest of one. -/
def dropCodes : Nat → List Char → List Char
  | _, [] => []
  | n + 1, _ :: cs => dropCodes n cs
  | 0, c :: cs =>
    match if c = '\x1b' then codeLength? cs else none with
    | some n => dropCodes n cs
    | none => c :: dropCodes 0 cs

/-- A text without terminal codes. -/
def withoutCodes (s : String) : String := String.ofList (dropCodes 0 s.toList)

end SystemFOmega
