import ExprLang.SyntaxError
import ExprLang.Syntax
import ExprLang.TokenSource

/-!
# Reading tokens

A reader holds one token of lookahead in front of a token source. Consuming the lookahead pulls
the next token first: if that fails, the lookahead stays and nothing counts as consumed. The end
of input is never read past.
-/
namespace ExprLang

inductive Failure
  | scan (e : ScanError)
  | grammar (e : SyntaxError)
  deriving DecidableEq, Repr

/-- `consumed` holds the tokens consumed in the current statement, the latest first. -/
structure Reader (σ : Type) where
  source : σ
  lookahead : Token
  consumed : List Token

/-- A computation on a reader; a failure keeps the state it arose in. -/
abbrev Reading (σ α : Type) := EStateM Failure (Reader σ) α

def Token.span (t : Token) : Span := ⟨t.location, t.location⟩

namespace Reader

variable {σ α β : Type}

def isExhausted (r : Reader σ) : Bool := r.lookahead.isEnd

/-- The text consumed in the current statement, without what lies between the tokens. -/
def consumedText (r : Reader σ) : String := String.join (r.consumed.reverse.map Token.lexeme)

/-- A bound on the number of tokens before the end of input, the lookahead included. -/
def remaining [TokenSource σ] (r : Reader σ) : Nat :=
  if r.lookahead.isEnd then 0 else TokenSource.remaining r.source + 1

def peek : Reading σ Token := fun r => .ok r.lookahead r

def advance [TokenSource σ] : Reading σ Token := fun r =>
  if r.lookahead.isEnd then .ok r.lookahead { r with consumed := r.lookahead :: r.consumed }
  else
    match TokenSource.pull r.source with
    | (.ok token, source) => .ok r.lookahead ⟨source, token, r.lookahead :: r.consumed⟩
    | (.error e, source) => .error (.scan e) { r with source }

/-- Every syntax error is about the lookahead. -/
def fail (fault : SyntaxFault) : Reading σ α := fun r =>
  .error (.grammar (SyntaxError.ofFault fault r.lookahead)) r

def expect [TokenSource σ] (kind : Kind) : Reading σ Token := do
  let token ← peek
  if token.kind = kind then advance else fail (.unexpectedToken (.kind kind))

def spanFrom (start : Token) : Reading σ Span := fun r =>
  .ok ⟨start.location, (r.consumed.headD start).location⟩ r

/-- Run a loop that takes at least one token in each round but the last, which may find the
end of input. -/
def bounded [TokenSource σ] (loop : Nat → Reading σ α) : Reading σ α := fun r =>
  loop (r.remaining + 1) r

theorem bind_apply (x : Reading σ α) (f : α → Reading σ β) (r : Reader σ) :
    (x >>= f) r = match x r with
      | .ok a r' => f a r'
      | .error e r' => .error e r' := by
  cases h : x r <;> simp [bind, EStateM.bind, h]

theorem pure_apply (a : α) (r : Reader σ) : (pure a : Reading σ α) r = .ok a r := rfl

theorem peek_apply (r : Reader σ) : (peek : Reading σ Token) r = .ok r.lookahead r := rfl

/-- A reading that succeeds goes through its first part and then its second. -/
theorem bind_eq_ok {x : Reading σ α} {f : α → Reading σ β} {r r'' : Reader σ} {b : β} :
    (x >>= f) r = .ok b r'' ↔ ∃ a r', x r = .ok a r' ∧ f a r' = .ok b r'' := by
  rw [bind_apply]
  cases x r with
  | ok a r' => simp only [EStateM.Result.ok.injEq]; grind
  | error e r' => simp

theorem bind_eq_error {x : Reading σ α} {f : α → Reading σ β} {r r'' : Reader σ} {e : Failure} :
    (x >>= f) r = .error e r'' ↔
      x r = .error e r'' ∨ ∃ a r', x r = .ok a r' ∧ f a r' = .error e r'' := by
  rw [bind_apply]
  cases x r with
  | ok a r' => simp only [EStateM.Result.ok.injEq]; grind
  | error e' r' => simp

end Reader
end ExprLang
