import SystemFOmega.Text.Printable

/-!
# Quoted texts

A text between quotes on one line, as the display of a syntax tree and the report on a file write
it. The quote is an apostrophe, unless the text has apostrophes and no double quote. The quote
and the backslash get a backslash; line feed, carriage return and tab have letters of their own;
any other character that cannot be printed is written by its code point.
-/

namespace SystemFOmega.Text

/-- The quotation mark that is taken if it can be. -/
def apostrophe : Char := '\x27'

/-- The quotation mark around a text that has apostrophes and no double quotes. -/
def doubleQuote : Char := '\x22'

/-- The last hexadecimal digits of `n`, at least `width` of them. -/
def hex (width n : Nat) : List Char :=
  let ds := Nat.toDigits 16 n
  List.replicate (width - ds.length) '0' ++ ds

/-- How `c` is written between two characters `quote`. -/
def escape (quote c : Char) : List Char :=
  if c = quote || c = '\\' then ['\\', c]
  else if c = '\n' then ['\\', 'n']
  else if c = '\r' then ['\\', 'r']
  else if c = '\t' then ['\\', 't']
  else if isPrintable c then [c]
  else if c.toNat < 0x100 then '\\' :: 'x' :: hex 2 c.toNat
  else if c.toNat < 0x10000 then '\\' :: 'u' :: hex 4 c.toNat
  else '\\' :: 'U' :: hex 8 c.toNat

/-- The quote for the text `cs`. -/
def quoteFor (cs : List Char) : Char :=
  if cs.contains apostrophe && !cs.contains doubleQuote then doubleQuote else apostrophe

/-- `s` between quotes. -/
def quoted (s : String) : String :=
  let q := quoteFor s.toList
  String.ofList (q :: s.toList.flatMap (escape q) ++ [q])

end SystemFOmega.Text
