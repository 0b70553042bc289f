import ExprLang.Host
import ExprLang.Parser

/-!
# Requests on a host

The requests of a parser where the host may run short. The texts of an error are written when it is
raised, and a function is printed for a log before it is delivered. Reading stops where there is no
room for one more open expression. A shortage is no failure of the parser: nothing is kept of it,
and the next request goes on where this one stopped.
-/
namespace ExprLang

def SettingError.numbers : SettingError → List Int
  | numberBits given => [given]
  | maxDepth given => [given]

def StartError.numbers : StartError → List Int
  | setting e => e.numbers
  | scan e => e.fault.numbers

def Failure.isTooDeep : Failure → Bool
  | grammar ⟨.nestingTooDeep _, _⟩ => true
  | _ => false

namespace Host

/-- What is raised in place of a failure. Where the stack ends before the limit of a parser, the
failure to nest deeper is a shortage. -/
def refuseFailure (h : Host) (maxDepth : Nat) (e : Failure) : Refusal Failure :=
  if e.isTooDeep = true ∧ h.depth maxDepth < maxDepth then .shortage .stack
  else h.refuse e.numbers e

/-- A function is printed before it is delivered. -/
def deliver (h : Host) : Option Function → Except (Refusal Failure) (Option Function)
  | none => .ok none
  | some f =>
      match h.print 0 (.function f) with
      | .ok () => .ok (some f)
      | .error s => .error (.shortage s)

end Host

namespace Parser

variable {σ : Type} [TokenSource σ]

def startOn (h : Host) (maxDepth : Int) (source : σ) : Except (Refusal StartError) (Parser σ) :=
  (start maxDepth source).mapError fun e => h.refuse e.numbers e

/-- The next function, or `none` at the end of input. Only a failure is final. -/
def attempt (h : Host) (p : Parser σ) :
    Except (Refusal Failure) (Option Function) × Parser σ :=
  match p.failure with
  | some e => (.error (.failure e), p)
  | none =>
      match Reader.statement (h.depth p.maxDepth) { p.reader with consumed := [] } with
      | .ok f reader => (h.deliver f, { p with reader })
      | .error e reader =>
          match h.refuseFailure p.maxDepth e with
          | .failure e => (.error (.failure e), { p with reader, failure := some e })
          | .shortage s => (.error (.shortage s), { p with reader })

def attemptUpTo (h : Host) :
    Nat → Parser σ → List (Function × String) × Option (Refusal Failure) × Parser σ
  | 0, p => ([], none, p)
  | n + 1, p =>
      match p.attempt h with
      | (.error e, p') => ([], some e, p')
      | (.ok none, p') => ([], none, p')
      | (.ok (some f), p') =>
          let (items, refusal, p'') := attemptUpTo h n p'
          ((f, p'.consumedText) :: items, refusal, p'')

def attemptAll (h : Host) (p : Parser σ) :
    Except (Refusal Failure) (List Function) × Parser σ :=
  match p.attemptUpTo h (p.reader.remaining + 1) with
  | (items, none, p') => (.ok (items.map Prod.fst), p')
  | (_, some e, p') => (.error e, p')

end Parser
end ExprLang
