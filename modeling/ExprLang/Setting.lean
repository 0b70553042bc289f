/-!
# Settings

The two numbers that a run is configured with, both positive: the width that integer literals
must fit in, in bits, and the deepest nesting of expressions.
-/
namespace ExprLang

inductive SettingError
  | numberBits (given : Int)
  | maxDepth (given : Int)
  deriving DecidableEq, Repr

def SettingError.message : SettingError → String
  | numberBits given => "number_bits must be positive, got " ++ toString given
  | maxDepth given => "max_depth must be positive, got " ++ toString given

namespace Setting

def defaultNumberBits : Nat := 64

def defaultMaxDepth : Nat := 100

def positive (refusal : Int → SettingError) (given : Int) : Except SettingError Nat :=
  if given ≤ 0 then .error (refusal given) else .ok given.toNat

end Setting
end ExprLang
