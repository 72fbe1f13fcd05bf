/-!
# Reduction strategies

Expressions are reduced under one of four strategies. Types are brought to normal form, so only
the two strategies that reduce under binders apply to them: the orders.
-/

namespace SystemFOmega

/-- The orders in which types are normalized: outermost or innermost redexes first. -/
inductive Order where
  | normal | applicative
deriving DecidableEq

/-- The orders in which redexes are contracted. The last two stop at an abstraction. -/
inductive Strategy where
  | normal | applicative | callByName | callByValue
deriving DecidableEq

namespace Strategy

/-- All strategies, in the order in which they are listed for the user. -/
def all : List Strategy := [.normal, .applicative, .callByName, .callByValue]

/-- The word that chooses a strategy. -/
def word : Strategy → String
  | .normal => "normal"
  | .applicative => "applicative"
  | .callByName => "cbn"
  | .callByValue => "cbv"

/-- The strategy that a word names. -/
def ofWord? (s : String) : Option Strategy := all.find? fun x => x.word = s

/-- The order with the same name. -/
def order? : Strategy → Option Order
  | .normal => some .normal
  | .applicative => some .applicative
  | .callByName | .callByValue => none

/-- The order for types beside a strategy for expressions. -/
def typeOrder (s : Strategy) : Order := s.order?.getD .normal

/-- Whether arguments are reduced before they are passed. -/
def eager : Strategy → Bool
  | .applicative | .callByValue => true
  | .normal | .callByName => false

/-- Whether bodies of abstractions are reduced. -/
def strong : Strategy → Bool
  | .normal | .applicative => true
  | .callByName | .callByValue => false

end Strategy

/-- The strategy with the same name. -/
def Order.strategy : Order → Strategy
  | .normal => .normal
  | .applicative => .applicative

end SystemFOmega
