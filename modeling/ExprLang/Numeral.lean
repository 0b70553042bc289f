/-!
# Numerals

Reading a run of decimal digits as a number that must not exceed a limit. Once the value has
passed the limit it is given up for good, so no intermediate value is ever much larger than the
limit.
-/
namespace ExprLang.Numeral

def isDigit (byte : UInt8) : Bool := 0x30 ≤ byte && byte ≤ 0x39

def digitValue (byte : UInt8) : Nat := byte.toNat - 0x30

/-- The value after one more digit; a value that was given up stays so. -/
def step (limit : Nat) (value : Option Nat) (digit : UInt8) : Option Nat :=
  match value with
  | none => none
  | some n =>
      let next := n * 10 + digitValue digit
      if limit < next then none else some next

/-- The value of a digit run, or `none` if it exceeds the limit. -/
def read (limit : Nat) (digits : List UInt8) : Option Nat :=
  digits.foldl (step limit) (some 0)

end ExprLang.Numeral
