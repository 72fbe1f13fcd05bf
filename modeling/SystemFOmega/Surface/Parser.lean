import SystemFOmega.Surface.Basic
import SystemFOmega.Text.Numeral
import SystemFOmega.Token.Lexer

/-!
# Reading the surface language

Kinds, types and expressions are read by recursive descent over the tokens of a text:

```
kind   ::= akind [-> kind]                  akind ::= * | X | (kind)
type   ::= (∀|λ) X : kind . type | tapp [-> type]
tapp   ::= atype {atype}                    atype ::= Int | X | (type [: kind])
expr   ::= let x : type = expr in expr | type X : kind = type in expr | kind X = kind in expr
         | λ X : kind . expr | λ x : type . expr | app
app    ::= atom {atom | [type]}             atom  ::= n | x | (expr [: type])
```

Arrows associate to the right and applications to the left. The value of a `let` carries its type
as an annotation, and the value of a `type` its kind. A phrase may nest only so deep: each nested
phrase takes one from the depth that the reader is given.
-/

namespace SystemFOmega

/-- What the reader was looking for at a token. -/
inductive Wanted where
  | token (k : TokenKind)
  | phrase (l : Level)
deriving DecidableEq

/-- Why a text cannot be read. -/
inductive ReadFault where
  | stray (s : Token.Stray)
  | unexpected (wanted : Wanted) (got : TokenKind) (loc : Location)
  | trailing (got : TokenKind) (loc : Location)
  | tooDeep (loc : Location)
  | numeral (f : Numeral.Fault)
deriving DecidableEq

namespace Parser

/-- A reader takes tokens from the front of a list. -/
abbrev Parse := EStateM ReadFault (List Token)

/-! ## Single tokens -/

/-- The token in front; no list of tokens is without one, so the place in the other case is free. -/
def front : List Token → Token
  | [] => ⟨.eof, "", ⟨1, 1, none⟩⟩
  | t :: _ => t

/-- The next token, which stays where it is. -/
def peek : Parse Token := do return front (← get)

/-- Goes on to the token behind the next one. -/
def skip : Parse Unit := modify List.tail

/-- Stops reading, with a fault that is about the next token. -/
def fail {α : Type} (fault : Token → ReadFault) : Parse α := do throw (fault (← peek))

/-- Stops reading because the next token is not what the grammar asks for. -/
def failWanted {α : Type} (wanted : Wanted) : Parse α :=
  fail fun t => .unexpected wanted t.kind t.loc

/-- Stops reading where a phrase is nested deeper than the bound. -/
def tooDeep {α : Type} : Parse α := fail fun t => .tooDeep t.loc

/-- Takes the token in front if it is of the class `k`. -/
def accept (k : TokenKind) : Parse Bool := do
  if (← peek).kind = k then
    skip
    return true
  else return false

/-- Takes the token in front, which has to be of the class `k`. -/
def expect (k : TokenKind) : Parse Token := do
  let t ← peek
  if t.kind = k then
    skip
    return t
  else failWanted (.token k)

/-- Extends `left` by `step` as long as the token in front is one of `starts`, at most as often as
`room` is long. -/
def extend {α : Type} (starts : TokenKind → Bool) (step : α → Parse α) :
    List Token → α → Parse α
  | [], left => return left
  | _ :: room, left => do
    if starts (← peek).kind then extend starts step room (← step left) else return left

/-- Extends `left` as far as possible: every step takes a token, so the tokens are room enough. -/
def spine {α : Type} (starts : TokenKind → Bool) (step : α → Parse α) (left : α) : Parse α := do
  extend starts step (← get) left

/-! ## Kinds -/

/-- A kind that needs no parentheses around it. What is inside of parentheses is read by `inner`. -/
def atomicKind (inner : Parse KindExpr) : Parse KindExpr := do
  let t ← peek
  match t.kind with
  | .star =>
    skip
    return .star
  | .upperName =>
    skip
    return .var t.ident
  | .lparen =>
    skip
    let k ← inner
    let _ ← expect .rparen
    return k
  | _ => failWanted (.phrase .kind)

/-- A kind. Arrows associate to the right, and each one goes a level deeper. -/
def kind : Nat → Parse KindExpr
  | 0 => tooDeep
  | d + 1 => do
    let left ← atomicKind (kind d)
    if ← accept .arrow then return .arrow left (← kind d) else return left

/-! ## Types -/

/-- Whether a token begins a type that can be an argument. -/
def startsAtomicType : TokenKind → Bool
  | .intType | .upperName | .lparen => true
  | _ => false

/-- A type that needs no parentheses around it, or one in parentheses, which may be put beside a
kind there. -/
def atomicType (innerKind : Parse KindExpr) (inner : Parse TypeExpr) : Parse TypeExpr := do
  let t ← peek
  match t.kind with
  | .intType =>
    skip
    return .int
  | .upperName =>
    skip
    return .var t.ident
  | .lparen =>
    skip
    let ty ← inner
    let ty ← if ← accept .colon then pure (.kinded ty (← innerKind)) else pure ty
    let _ ← expect .rparen
    return ty
  | _ => failWanted (.phrase .type)

/-- A binder that stands in front with its kind and its body. -/
def binderType (b : Binder) (innerKind : Parse KindExpr) (inner : Parse TypeExpr) :
    Parse TypeExpr := do
  skip
  let x ← expect .upperName
  let _ ← expect .colon
  let k ← innerKind
  let _ ← expect .dot
  return .bind b x.ident k (← inner)

/-- A type. Application binds tighter than the arrow and associates to the left, and a binder
reaches as far as possible. -/
def type : Nat → Parse TypeExpr
  | 0 => tooDeep
  | d + 1 => do
    match (← peek).kind with
    | .forAll => binderType .all (kind d) (type d)
    | .lambda => binderType .lam (kind d) (type d)
    | _ =>
      let atom := atomicType (kind d) (type d)
      let left ← spine startsAtomicType (fun f => return .app f (← atom)) (← atom)
      if ← accept .arrow then return .arrow left (← type d) else return left

/-! ## Expressions -/

/-- Whether a token begins an argument, which may be a type in brackets. -/
def startsArgument : TokenKind → Bool
  | .numeral | .lowerName | .lparen | .lbracket => true
  | _ => false

/-- An expression that needs no parentheses around it, or one in parentheses, which may be put
beside a type there. -/
def atomicExpr (innerType : Parse TypeExpr) (inner : Parse Expr) : Parse Expr := do
  let t ← peek
  match t.kind with
  | .numeral =>
    skip
    match Numeral.read t.text with
    | .ok n => return .lit n (some t.loc)
    | .error f => throw (.numeral f)
  | .lowerName =>
    skip
    return .var t.ident (some t.loc)
  | .lparen =>
    skip
    let e ← inner
    let e ← if ← accept .colon then pure (.ann e (← innerType) (some t.loc)) else pure e
    let _ ← expect .rparen
    return e
  | _ => failWanted (.phrase .expr)

/-- One more argument for the application `f`: a type in brackets, or an atomic expression. -/
def argument (innerType : Parse TypeExpr) (inner : Parse Expr) (f : Expr) : Parse Expr := do
  if ← accept .lbracket then
    let t ← innerType
    let _ ← expect .rbracket
    return .tapp f t f.loc
  else return .app f (← atomicExpr innerType inner) f.loc

/-- An abstraction over a type or over a value, by the case of the name that it binds. -/
def abstraction (innerKind : Parse KindExpr) (innerType : Parse TypeExpr) (inner : Parse Expr) :
    Parse Expr := do
  let start ← expect .lambda
  let x ← peek
  if x.kind = .upperName then
    skip
    let _ ← expect .colon
    let k ← innerKind
    let _ ← expect .dot
    return .tlam x.ident k (← inner) (some start.loc)
  else
    let x ← expect .lowerName
    let _ ← expect .colon
    let t ← innerType
    let _ ← expect .dot
    return .lam x.ident t (← inner) (some start.loc)

/-- A definition `let x: T = e in e'`. The type is put beside the value. -/
def letBinding (innerType : Parse TypeExpr) (inner : Parse Expr) : Parse Expr := do
  let start ← expect .letWord
  let x ← expect .lowerName
  let _ ← expect .colon
  let t ← innerType
  let _ ← expect .equals
  let v ← inner
  let _ ← expect .inWord
  return .letIn x.ident (.ann v t v.loc) (← inner) (some start.loc)

/-- A definition `type X: K = T in e`. The kind is put beside the value. -/
def typeBinding (innerKind : Parse KindExpr) (innerType : Parse TypeExpr) (inner : Parse Expr) :
    Parse Expr := do
  let start ← expect .typeWord
  let x ← expect .upperName
  let _ ← expect .colon
  let k ← innerKind
  let _ ← expect .equals
  let v ← innerType
  let _ ← expect .inWord
  return .typeIn x.ident (.kinded v k) (← inner) (some start.loc)

/-- A definition `kind X = K in e`. -/
def kindBinding (innerKind : Parse KindExpr) (inner : Parse Expr) : Parse Expr := do
  let start ← expect .kindWord
  let x ← expect .upperName
  let _ ← expect .equals
  let v ← innerKind
  let _ ← expect .inWord
  return .kindIn x.ident v (← inner) (some start.loc)

/-- An expression. A definition and an abstraction reach as far as possible, and application
associates to the left. -/
def expr : Nat → Parse Expr
  | 0 => tooDeep
  | d + 1 => do
    match (← peek).kind with
    | .letWord => letBinding (type d) (expr d)
    | .typeWord => typeBinding (kind d) (type d) (expr d)
    | .kindWord => kindBinding (kind d) (expr d)
    | .lambda => abstraction (kind d) (type d) (expr d)
    | _ =>
      spine startsArgument (argument (type d) (expr d)) (← atomicExpr (type d) (expr d))

/-- An expression and nothing after it. -/
def program (depth : Nat) : Parse Expr := do
  let e ← expr depth
  let t ← peek
  if t.kind = .eof then return e else throw (.trailing t.kind t.loc)

/-- A phrase and nothing after it. -/
def closed {α : Type} (phrase : Parse α) : Parse α := do
  let a ← phrase
  let _ ← expect .eof
  return a

/-! ## Texts -/

/-- The depth to which phrases of a text may nest. -/
def maxDepth : Nat := 1000

/-- Reads the tokens of a text by `p`. -/
def run {α : Type} (p : Parse α) (file : Option String) (text : String) : Except ReadFault α :=
  match Token.lex file text with
  | .error s => .error (.stray s)
  | .ok ts =>
    match p.run ts with
    | .ok a _ => .ok a
    | .error f _ => .error f

end Parser

/-- Reads an expression. -/
def Expr.parse (text : String) (file : Option String := none) (depth : Nat := Parser.maxDepth) :
    Except ReadFault Expr :=
  Parser.run (Parser.program depth) file text

/-- Reads a type. -/
def TypeExpr.parse (text : String) (depth : Nat := Parser.maxDepth) : Except ReadFault TypeExpr :=
  Parser.run (Parser.closed (Parser.type depth)) none text

/-- Reads a kind. -/
def KindExpr.parse (text : String) (depth : Nat := Parser.maxDepth) : Except ReadFault KindExpr :=
  Parser.run (Parser.closed (Parser.kind depth)) none text

/-- Reads a phrase of the level `l`; places in types and kinds have no file. -/
def Tree.parse (l : Level) (text : String) (file : Option String := none) : Except ReadFault Tree :=
  match l with
  | .expr => (Expr.parse text file).map .expr
  | .type => (TypeExpr.parse text).map .type
  | .kind => (KindExpr.parse text).map .kind

end SystemFOmega
