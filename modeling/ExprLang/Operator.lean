import ExprLang.Quoted

/-!
# Operators

The operators that may stand between two operands, with their binding strength. Two operators
are ordered by strength alone, so two of equal strength are neither above nor below each other.
`assign` is reserved and `other` is a placeholder: both may occur in a token, and neither
continues an expression.
-/
namespace ExprLang

inductive Operator
  | assign
  | less
  | add
  | sub
  | mul
  | div
  | other
  deriving DecidableEq, Repr

namespace Operator

def all : List Operator := [assign, less, add, sub, mul, div, other]

def name : Operator → String
  | assign => "ASSIGN"
  | less => "LESS"
  | add => "ADD"
  | sub => "SUB"
  | mul => "MUL"
  | div => "DIV"
  | other => "OTHER"

def symbol : Operator → String
  | assign => "="
  | less => "<"
  | add => "+"
  | sub => "-"
  | mul => "*"
  | div => "/"
  | other => "?"

/-- Binding strength: a larger number binds its operands more tightly. -/
def precedence : Operator → Nat
  | assign => 10
  | less => 20
  | add => 30
  | sub => 30
  | mul => 40
  | div => 40
  | other => 0

/-- The operators that may continue an expression. -/
def isBinary : Operator → Bool
  | less | add | sub | mul | div => true
  | assign | other => false

def ofName? (text : String) : Option Operator := all.find? (·.name == text)

def written (op : Operator) : String :=
  "<Operator." ++ op.name ++ ": " ++ Quoted.quote op.symbol ++ ">"

instance : LT Operator := ⟨fun a b => a.precedence < b.precedence⟩

instance : LE Operator := ⟨fun a b => a.precedence ≤ b.precedence⟩

instance (a b : Operator) : Decidable (a < b) := Nat.decLt a.precedence b.precedence

instance (a b : Operator) : Decidable (a ≤ b) := Nat.decLe a.precedence b.precedence

theorem lt_iff (a b : Operator) : a < b ↔ a.precedence < b.precedence := Iff.rfl

theorem le_iff (a b : Operator) : a ≤ b ↔ a.precedence ≤ b.precedence := Iff.rfl

end Operator

structure UnknownOperator where
  symbol : String
  deriving DecidableEq, Repr

def UnknownOperator.message (e : UnknownOperator) : String :=
  Quoted.quote e.symbol ++ " is not a valid Operator"

def Operator.ofSymbol (symbol : String) : Except UnknownOperator Operator :=
  match Operator.all.find? (·.symbol == symbol) with
  | some op => .ok op
  | none => .error ⟨symbol⟩

end ExprLang
