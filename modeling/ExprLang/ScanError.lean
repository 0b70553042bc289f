import ExprLang.Diagnostic
import ExprLang.ShortestDecimal

/-!
# Scan errors

Why a stretch of the source is no token: a byte that starts none, or a number that does not fit.
The texts are total: a number of any size is written out here, whereas a host may refuse to write
one of very many digits. `ScanFault.numbers` lists the numbers that it would be asked to write when
the error is raised; what becomes of a refusal is told with hosts.
-/
namespace ExprLang

/-- A fault may be stated of any character code and any width; the scanner states it of bytes
and positive widths only. -/
inductive ScanFault
  | invalidByte (code : Nat)
  | numberOverflow (digits : String) (bits : Int)
  deriving DecidableEq, Repr

namespace ScanFault

def codes : CodeTable :=
  [("L001", "Invalid character"), ("L007", "Number literal overflow")]

def code : ScanFault → String
  | invalidByte _ => "L001"
  | numberOverflow _ _ => "L007"

def title : ScanFault → String
  | invalidByte _ => "Invalid character"
  | numberOverflow _ _ => "Number literal overflow"

/-- The codes shown as characters: printable ASCII. -/
def isPrintable (code : Nat) : Bool := 0x20 ≤ code && code ≤ 0x7e

def hexCode (code : Nat) : String :=
  let digits := (Nat.toDigits 16 code).map Char.toUpper
  String.ofList (List.replicate (2 - digits.length) '0' ++ digits)

def shownCode (code : Nat) : String :=
  if isPrintable code then
    "'" ++ String.singleton (Char.ofNat code) ++ "' (byte " ++ toString code ++ ")"
  else "byte " ++ toString code ++ " (0x" ++ hexCode code ++ ")"

/-- The largest number of a width is `2 ^ bits - 1`. A negative width makes it a fraction, which
is kept to 53 binary digits and written in the fewest decimal ones. -/
def limitText : Int → String
  | .ofNat bits => toString (Nat.pow 2 bits - 1)
  | .negSucc n => "-" ++ ShortestDecimal.complementText 53 (n + 1) (by decide)

def detail : ScanFault → String
  | invalidByte code => shownCode code
  | numberOverflow digits _ => "'" ++ digits ++ "'"

def message (f : ScanFault) : String := f.title ++ ": " ++ f.detail

def help : ScanFault → String
  | invalidByte code =>
      if isPrintable code then "Valid punctuation is one of: ( ) , + - * / <"
      else "Only ASCII letters, digits, punctuation and space/CR/LF are allowed."
  | numberOverflow _ bits =>
      "Integer literals must fit in " ++ toString bits ++ " unsigned bits (max "
        ++ limitText bits ++ ")."

def numbers : ScanFault → List Int
  | invalidByte code => [code]
  | numberOverflow _ (.ofNat bits) => [bits, (Nat.pow 2 bits - 1 : Nat)]
  | numberOverflow _ bits => [bits]

def suggestions : ScanFault → Option (List String)
  | invalidByte code => if code = 9 then some ["Replace tabs with spaces"] else none
  | numberOverflow _ _ => none

def byte? : ScanFault → Option Nat
  | invalidByte code => some code
  | numberOverflow _ _ => none

end ScanFault

inductive CodeError
  | outOfRange (given : Int)
  deriving DecidableEq, Repr

def CodeError.message : CodeError → String
  | outOfRange _ => "chr() arg not in range(0x110000)"

def ScanFault.ofCode (given : Int) : Except CodeError ScanFault :=
  if 0 ≤ given ∧ given < 0x110000 then .ok (.invalidByte given.toNat)
  else .error (.outOfRange given)

structure ScanError where
  fault : ScanFault
  location : Location
  deriving DecidableEq, Repr

def ScanError.diagnostic (e : ScanError) : Diagnostic where
  message := e.fault.message
  location := e.location
  severity := Diagnostic.error
  code := some e.fault.code
  help := some e.fault.help
  suggestions := e.fault.suggestions

end ExprLang
