import ExprLang.Operator

/-!
# Comparing an operator with any operand

An operator compares with another operator by binding strength. With a number it has no order,
and asking for one is refused; equality with a number is simply false.
-/
namespace ExprLang

inductive OrderRelation
  | below
  | atMost
  | above
  | atLeast
  deriving DecidableEq, Repr

def OrderRelation.symbol : OrderRelation → String
  | below => "<"
  | atMost => "<="
  | above => ">"
  | atLeast => ">="

def OrderRelation.holds (r : OrderRelation) (a b : Operator) : Bool :=
  match r with
  | below => a < b
  | atMost => a ≤ b
  | above => b < a
  | atLeast => b ≤ a

/-- What an operator may be compared with. -/
inductive Comparand
  | operator (op : Operator)
  | number (value : Int)
  deriving DecidableEq, Repr

structure Unordered where
  relation : OrderRelation
  deriving DecidableEq, Repr

def Unordered.message (e : Unordered) : String :=
  "'" ++ e.relation.symbol ++ "' not supported between instances of 'Operator' and 'int'"

namespace Operator

def compareWith (op : Operator) (r : OrderRelation) : Comparand → Except Unordered Bool
  | .operator rival => .ok (r.holds op rival)
  | .number _ => .error ⟨r⟩

def equals (op : Operator) : Comparand → Bool
  | .operator rival => op == rival
  | .number _ => false

end Operator
end ExprLang
