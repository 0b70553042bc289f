import ExprLang.Printable

/-!
# Quoted text

The written form of a string inside a rendered value. The text stands between single marks,
or between double marks when it holds a single mark and no double one. A backslash, the mark
in use, line feed, carriage return, tab and every other character that is not printable are
escaped; all else stands for itself.
-/
namespace ExprLang.Quoted

/-- Double marks serve only a text that holds a single mark and no double one. -/
def mark (text : List Char) : Char :=
  if text.contains '\'' && !text.contains '"' then '"' else '\''

def hexDigits (width code : Nat) : List Char :=
  let digits := Nat.toDigits 16 code
  List.replicate (width - digits.length) '0' ++ digits

/-- The escape has two, four or eight digits, the fewest that the code fits in. -/
def hexEscape (c : Char) : List Char :=
  if c.toNat ≤ 0xff then '\\' :: 'x' :: hexDigits 2 c.toNat
  else if c.toNat ≤ 0xffff then '\\' :: 'u' :: hexDigits 4 c.toNat
  else '\\' :: 'U' :: hexDigits 8 c.toNat

def escape (m c : Char) : List Char :=
  if c = '\\' ∨ c = m then ['\\', c]
  else if c = '\n' then ['\\', 'n']
  else if c = '\r' then ['\\', 'r']
  else if c = '\t' then ['\\', 't']
  else if Printable.isPrintable c then [c]
  else hexEscape c

def quoteChars (text : List Char) : List Char :=
  mark text :: text.flatMap (escape (mark text)) ++ [mark text]

def quote (text : String) : String := String.ofList (quoteChars text.toList)

/-- A no-break space is not shown. -/
example : quoteChars ['a', '\u00a0', '\n'] =
    ['\'', 'a', '\\', 'x', 'a', '0', '\\', 'n', '\''] := by decide +kernel

end ExprLang.Quoted
