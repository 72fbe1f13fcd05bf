import SystemFOmega.Text.Basic
import SystemFOmega.Text.Digit
import SystemFOmega.Text.Quoted

/-!
# Decimal numerals

Numbers written with decimal digits of any script, in source texts (`Numeral.read`) and in command
options (`Numeral.readInt?`). A numeral of more than `Numeral.maxDigits` digits is refused, and so
is one with a digit that has no place value.
-/

namespace SystemFOmega

/-- Why a numeral of a source text cannot be read. -/
inductive Numeral.Fault where
  | notDecimal (text : String)
  | tooLong (digits : Nat)
deriving DecidableEq

namespace Numeral

/-- How many digits a numeral may have. -/
def maxDigits : Nat := 4300

/-- A message shows at most this many characters of a quoted numeral. -/
def maxShown : Nat := 200

/-- The message about a numeral that is not read. -/
def Fault.message : Fault → String
  | .notDecimal text =>
    "invalid literal for int() with base 10: " ++
      String.ofList ((Text.quoted text).toList.take maxShown)
  | .tooLong digits =>
    "Exceeds the limit (" ++ toString maxDigits ++
      " digits) for integer string conversion: value has " ++ toString digits ++
      " digits; use sys.set_int_max_str_digits() to increase the limit"

/-- Whether a character is a digit of a decimal system, of any script. -/
def isDecimal (c : Char) : Bool := (Text.decimalValue? c).isSome

/-- The number with the decimal digits `cs`, the most significant first. -/
def value (cs : List Char) : Nat :=
  cs.foldl (fun n c => 10 * n + (Text.decimalValue? c).getD 0) 0

/-- Reads a numeral. The decimal digits that it starts with are counted before the rest is
looked at. -/
def read (text : String) : Except Fault Nat :=
  let digits := text.toList.takeWhile isDecimal
  if maxDigits < digits.length then .error (.tooLong digits.length)
  else if digits = text.toList && !digits.isEmpty then .ok (value digits)
  else .error (.notDecimal text)

/-- Whether every underscore of `cs` stands between two decimal digits, and all else is a decimal
digit. The flag says whether a digit has just been passed. -/
def grouped (afterDigit : Bool) : List Char → Bool
  | [] => afterDigit
  | c :: cs => if isDecimal c then grouped true cs else c = '_' && afterDigit && grouped false cs

/-- Reads an integer option: white space around it, a sign, and single underscores between digits
are allowed. -/
def readInt? (text : String) : Option Int :=
  let cs := Text.trimBy Text.isWhiteSpace text.toList
  let (negative, body) : Bool × List Char :=
    match cs with
    | '-' :: rest => (true, rest)
    | '+' :: rest => (false, rest)
    | _ => (false, cs)
  let digits := body.filter isDecimal
  if grouped false body && decide (digits.length ≤ maxDigits) then
    some (if negative then -(value digits : Int) else value digits)
  else none

end Numeral

end SystemFOmega
