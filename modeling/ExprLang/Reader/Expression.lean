import ExprLang.Reader

/-!
# Reading expressions

Expressions by precedence climbing: operators of equal precedence associate to the left, and a
right operand takes the operators that bind more tightly than the one before it. Opening an
expression uses up one level of nesting; operators use none. The loops are given a number of
rounds that no input exhausts, since each round takes at least one token.
-/
namespace ExprLang.Reader

variable {σ : Type} [TokenSource σ]

/-- The operator that stands ahead, if it may continue an expression. -/
def binaryOperatorAhead : Reading σ (Option Operator) := do
  return (← peek).operator?.filter Operator.isBinary

def arguments (argument : Reading σ Expr) (callee : String) : Nat → Reading σ (List Expr)
  | 0 => return []
  | rounds + 1 => do
      let first ← argument
      match (← peek).terminal with
      | .comma =>
          let _ ← advance
          return first :: (← arguments argument callee rounds)
      | .rightParen =>
          let _ ← advance
          return [first]
      | _ => fail (.malformedArguments callee)

def nameOrCall (inner : Reading σ Expr) (name : String) : Reading σ Expr := do
  let start ← advance
  match (← peek).terminal with
  | .leftParen =>
      let _ ← advance
      match (← peek).terminal with
      | .rightParen =>
          let _ ← advance
          return .call name [] (← spanFrom start)
      | _ =>
          let args ← bounded (arguments inner name)
          return .call name args (← spanFrom start)
  | _ => return .reference name start.span

/-- An expression in parentheses keeps its own span. -/
def grouping (inner : Reading σ Expr) : Reading σ Expr := do
  let _ ← advance
  let e ← inner
  let _ ← expect .rightParen
  return e

def branchWord (word : Keyword) : Reading σ Unit := do
  if (← peek).kind = .keyword word then
    let _ ← advance
  else fail (.missingKeyword (.keyword word) "conditional")

def conditional (inner : Reading σ Expr) : Reading σ Expr := do
  let start ← advance
  let predicate ← inner
  branchWord .thenWord
  let thenBranch ← inner
  branchWord .elseWord
  let elseBranch ← inner
  return .conditional predicate thenBranch elseBranch (← spanFrom start)

/-- An operand; `inner` reads the expressions inside it. -/
def primary (inner : Reading σ Expr) : Reading σ Expr := do
  match (← peek).terminal with
  | .number value =>
      let token ← advance
      return .number value token.span
  | .leftParen => grouping inner
  | .identifier name => nameOrCall inner name
  | .keyword .ifWord => conditional inner
  | _ => fail .invalidExpression

mutual

/-- Fold the operators of precedence at least `least` that follow onto `lhs`. -/
def operatorTail (operand : Reading σ Expr) : Nat → Expr → Nat → Reading σ Expr
  | 0, lhs, _ => return lhs
  | rounds + 1, lhs, least => do
      match (← peek).operator? with
      | none => return lhs
      | some op =>
          if op.precedence < least then return lhs
          else if !op.isBinary then fail (.unexpectedToken (.phrase "binary operator"))
          else
            let _ ← advance
            let rhs ← tighten operand rounds op (← operand)
            operatorTail operand rounds (.binary op lhs rhs (Span.join lhs.span rhs.span)) least

/-- While an operator ahead binds more tightly than `op`, fold it onto the right operand. -/
def tighten (operand : Reading σ Expr) : Nat → Operator → Expr → Reading σ Expr
  | 0, _, rhs => return rhs
  | rounds + 1, op, rhs => do
      match ← binaryOperatorAhead with
      | none => return rhs
      | some ahead =>
          if op < ahead then
            tighten operand rounds op (← operatorTail operand rounds rhs (op.precedence + 1))
          else return rhs

end

/-- An operand and the operators that follow it, with `levels` further levels of nesting left
of the `limit` that a statement has. -/
def expression (limit : Nat) : Nat → Reading σ Expr
  | 0 => fail (.nestingTooDeep limit)
  | levels + 1 => do
      let operand := primary (expression limit levels)
      let lhs ← operand
      bounded fun rounds => operatorTail operand rounds lhs 0

end ExprLang.Reader
