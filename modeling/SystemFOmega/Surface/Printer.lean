import SystemFOmega.Surface.Basic
import SystemFOmega.Text.Basic

/-!
# Printing the surface language

The text of a phrase, with display names only and with the parentheses that reading it back needs:
around an arrow or a binder on the left of an arrow, and around any argument that is not a single
word.
-/

namespace SystemFOmega

open Text (parens parensIf)

/-- Whether a kind needs parentheses on the left of an arrow. -/
def KindExpr.isArrow : KindExpr → Bool
  | .arrow _ _ => true
  | _ => false

/-- The text of a kind. -/
def KindExpr.print : KindExpr → String
  | .star => "*"
  | .var x => x.value
  | .arrow k l => parensIf k.isArrow k.print ++ " -> " ++ l.print

/-- A type that is one word. -/
def TypeExpr.isWord : TypeExpr → Bool
  | .int | .var _ => true
  | _ => false

/-- A type that may stand before its argument as it is. -/
def TypeExpr.isHead : TypeExpr → Bool
  | .int | .var _ | .app _ _ => true
  | _ => false

/-- A type that extends to the right as far as it can. -/
def TypeExpr.isOpen : TypeExpr → Bool
  | .arrow _ _ | .bind _ _ _ _ => true
  | _ => false

/-- The text of a type, with parentheses only where the grammar asks for them. -/
def TypeExpr.print : TypeExpr → String
  | .int => "Int"
  | .var x => x.value
  | .arrow s t => parensIf s.isOpen s.print ++ " -> " ++ t.print
  | .bind b x k t => b.symbol ++ x.value ++ ": " ++ k.print ++ ". " ++ t.print
  | .app f a => parensIf (!f.isHead) f.print ++ " " ++ parensIf (!a.isWord) a.print
  | .kinded t k => parens (t.print ++ " : " ++ k.print)

/-- An expression that is one word or stands in parentheses of its own. -/
def Expr.isAtom : Expr → Bool
  | .lit _ _ | .var _ _ | .ann _ _ _ => true
  | _ => false

/-- An expression that may stand before its argument as it is. -/
def Expr.isHead : Expr → Bool
  | .lit _ _ | .var _ _ | .ann _ _ _ | .app _ _ _ | .tapp _ _ _ => true
  | _ => false

/-- The text of an expression, with parentheses only where the grammar asks for them. A value that
is put beside a type shows this in the definition and not in parentheses. -/
def Expr.print : Expr → String
  | .lit n _ => toString n
  | .var x _ => x.value
  | .lam x t e _ => "λ" ++ x.value ++ ": " ++ t.print ++ ". " ++ e.print
  | .app f a _ => parensIf (!f.isHead) f.print ++ " " ++ parensIf (!a.isAtom) a.print
  | .tlam x k e _ => "λ" ++ x.value ++ ": " ++ k.print ++ ". " ++ e.print
  | .tapp f t _ => parensIf (!f.isHead) f.print ++ " [" ++ t.print ++ "]"
  | .ann e t _ => parens (e.print ++ " : " ++ t.print)
  | .letIn x (.ann v t _) e _ =>
    "let " ++ x.value ++ ": " ++ t.print ++ " = " ++ v.print ++ " in " ++ e.print
  | .letIn x v e _ => "let " ++ x.value ++ " = " ++ v.print ++ " in " ++ e.print
  | .typeIn x (.kinded v k) e _ =>
    "type " ++ x.value ++ ": " ++ k.print ++ " = " ++ v.print ++ " in " ++ e.print
  | .typeIn x v e _ => "type " ++ x.value ++ " = " ++ v.print ++ " in " ++ e.print
  | .kindIn x k e _ => "kind " ++ x.value ++ " = " ++ k.print ++ " in " ++ e.print

/-- The text of a phrase. -/
def Tree.print : Tree → String
  | .kind k => k.print
  | .type t => t.print
  | .expr e => e.print

end SystemFOmega
