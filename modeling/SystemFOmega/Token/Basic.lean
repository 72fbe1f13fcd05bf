import SystemFOmega.Name
import SystemFOmega.Text.Quoted

/-!
# Tokens

The words of the language: numerals, names that start in lower or upper case, keywords and
symbols. A token keeps the text it was written with and the place where it starts. The token `eof`
closes every token list.
-/

namespace SystemFOmega

/-- The classes of tokens. A word is a keyword, or a name whose first letter tells what it may be a
name of. -/
inductive TokenKind where
  | numeral | lowerName | upperName | intType
  | letWord | inWord | typeWord | kindWord
  | lambda | forAll
  | lparen | rparen | lbracket | rbracket
  | arrow | star | dot | colon | equals
  | eof
deriving DecidableEq

/-- The name of a class of tokens in messages. -/
def TokenKind.label : TokenKind → String
  | .numeral => "INT"
  | .lowerName => "IDENT"
  | .upperName => "TNAME"
  | .intType => "INT_TYPE"
  | .letWord => "LET"
  | .inWord => "IN"
  | .typeWord => "TYPE"
  | .kindWord => "KIND"
  | .lambda => "LAMBDA"
  | .forAll => "FORALL"
  | .lparen => "LPAREN"
  | .rparen => "RPAREN"
  | .lbracket => "LBRACKET"
  | .rbracket => "RBRACKET"
  | .arrow => "ARROW"
  | .star => "STAR"
  | .dot => "DOT"
  | .colon => "COLON"
  | .equals => "EQUALS"
  | .eof => "EOF"

/-- A piece of the text, with its class and with the place where it begins. -/
structure Token where
  kind : TokenKind
  text : String
  loc : Location
deriving DecidableEq

namespace Token

/-- The identifier that a name token writes. -/
def ident (t : Token) : Ident := ⟨⟨t.text, 0⟩, some t.loc⟩

/-- The token with its class, text, line and column, as shown in a list of tokens. -/
def display (t : Token) : String :=
  "Token(" ++ t.kind.label ++ ", " ++ Text.quoted t.text ++ ", " ++ toString t.loc.line ++ ", " ++
    toString t.loc.column ++ ")"

/-- Tokens as a list. -/
def displayList (ts : List Token) : String :=
  "[" ++ ", ".intercalate (ts.map display) ++ "]"

end Token

end SystemFOmega
