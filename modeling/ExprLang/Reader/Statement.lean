import ExprLang.Reader.Expression

/-!
# Reading statements

A statement is a definition, a declaration of an external function, or an expression. Commas in
a parameter list are skipped wherever they stand.
-/
namespace ExprLang.Reader

variable {σ : Type} [TokenSource σ]

def parameters (name : String) : Nat → Reading σ (List String)
  | 0 => return []
  | rounds + 1 => do
      match (← peek).terminal with
      | .comma =>
          let _ ← advance
          parameters name rounds
      | .identifier param =>
          let _ ← advance
          return param :: (← parameters name rounds)
      | .rightParen =>
          let _ ← advance
          return []
      | _ => fail (.malformedPrototype (.phrase "parameter name or ')'") (some name))

def prototype : Reading σ Prototype := do
  match (← peek).terminal with
  | .identifier name =>
      let start ← advance
      match (← peek).terminal with
      | .leftParen =>
          let _ ← advance
          let params ← bounded (parameters name)
          return ⟨name, params, ← spanFrom start⟩
      | _ => fail (.malformedPrototype (.kind .leftParen) (some name))
  | _ => fail (.malformedPrototype (.kind .identifier) none)

def definition (maxDepth : Nat) : Reading σ Function := do
  let start ← advance
  let p ← prototype
  let body ← expression maxDepth maxDepth
  return .definition p body (← spanFrom start)

def externalDeclaration : Reading σ Function := do
  let start ← advance
  let p ← prototype
  return .external p (← spanFrom start)

def topLevelExpression (maxDepth : Nat) : Reading σ Function := do
  let start ← peek
  let body ← expression maxDepth maxDepth
  return .anonymous body (← spanFrom start)

/-- The next statement, or nothing at the end of input. -/
def statement (maxDepth : Nat) : Reading σ (Option Function) := do
  match (← peek).terminal with
  | .endOfInput => return none
  | .keyword .define => some <$> definition maxDepth
  | .keyword .external => some <$> externalDeclaration
  | _ => some <$> topLevelExpression maxDepth

end ExprLang.Reader
