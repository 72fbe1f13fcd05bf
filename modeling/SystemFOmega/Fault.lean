import SystemFOmega.Checker.Typing
import SystemFOmega.Files
import SystemFOmega.Surface.Parser
import SystemFOmega.Surface.Reduce

/-!
# Faults

What can stop the work on a request: a diagnostic, which is reported and leaves the program
running, or a refusal, which ends it. A numeral that cannot be read, a strategy that does not fit
and a file that cannot be asked for are refused.
-/

namespace SystemFOmega

/-- What the program does not take: a numeral, the word for a strategy or a strategy itself, and a
path. -/
inductive Refusal where
  | numeral (f : Numeral.Fault)
  | unknownStrategy (word : String)
  | weakStrategy (s : Strategy)
  | directory (path : String)
  | notAPath
deriving DecidableEq

/-- What goes wrong before or while a program is checked: a diagnostic about the program, or a
refusal. -/
inductive Fault where
  | diagnostic (d : Diagnostic)
  | refusal (r : Refusal)
deriving DecidableEq

/-- A strategy by its full name. -/
def Strategy.title : Strategy → String
  | .normal => "NORMAL_ORDER"
  | .applicative => "APPLICATIVE_ORDER"
  | .callByName => "CALL_BY_NAME"
  | .callByValue => "CALL_BY_VALUE"

/-- The message that a refusal ends the run with. -/
def Refusal.message : Refusal → String
  | .numeral f => f.message
  | .unknownStrategy word => Text.quoted word ++ " is not a valid Strategy"
  | .weakStrategy s => s.title ++ " does not compute type normal forms"
  | .directory path => FileFault.directory.message path
  | .notAPath => "embedded null byte"

/-- The strategy that a word chooses. -/
def Strategy.read (word : String) : Except Refusal Strategy :=
  match Strategy.ofWord? word with
  | some s => .ok s
  | none => .error (.unknownStrategy word)

/-- The order with the name of a strategy, which must not be a weak one. -/
def Strategy.order (s : Strategy) : Except Refusal Order :=
  match s.order? with
  | some o => .ok o
  | none => .error (.weakStrategy s)

/-- A phrase of a level, in messages. -/
def Level.phrase : Level → String
  | .expr => "expression"
  | .type => "type"
  | .kind => "kind"

/-- How the reader names what it has expected. -/
def Wanted.describe : Wanted → String
  | .token k => k.label
  | .phrase l => l.phrase

/-- A text that cannot be read is reported at the place where reading stopped. A numeral with too
many digits is refused. -/
def ReadFault.fault : ReadFault → Fault
  | .stray s =>
    .diagnostic (.lexical ("Unexpected character '" ++ String.singleton s.char ++ "'") s.loc)
  | .unexpected wanted got l =>
    .diagnostic (.grammar ("Expected " ++ wanted.describe ++ ", got " ++ got.label) l)
  | .trailing got l => .diagnostic (.grammar ("Unexpected " ++ got.label ++ " after expression") l)
  | .tooDeep l => .diagnostic (.nesting l)
  | .numeral f => .refusal (.numeral f)

end SystemFOmega
