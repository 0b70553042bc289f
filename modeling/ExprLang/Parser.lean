import ExprLang.Reader.Statement

/-!
# Parser

A parser delivers the statements of a token source one at a time. A failure is final: every
later request repeats it and changes nothing. At the end of input there is nothing more to
deliver, however often one asks.

The requests of this module meet no limits but those of the parser. Left out are the depth of a
host's stack, its limit on the digits of a number that is written, and the printing of each function
for a log before it is delivered, which both limits bear on. `Parser.attempt` is the request that
takes them in.
-/
namespace ExprLang

structure Parser (σ : Type) where
  maxDepth : Nat
  reader : Reader σ
  failure : Option Failure

inductive StartError
  | setting (e : SettingError)
  | scan (e : ScanError)
  deriving DecidableEq, Repr

namespace Parser

variable {σ : Type}

def consumedText (p : Parser σ) : String := p.reader.consumedText

def isExhausted (p : Parser σ) : Bool := p.reader.isExhausted

variable [TokenSource σ]

/-- How far the source has been read, one token of lookahead included. -/
def position (p : Parser σ) : Nat := TokenSource.position p.reader.source

/-- A parser in front of a source; the first token is read at once. -/
def ofSource (maxDepth : Nat) (source : σ) : Except ScanError (Parser σ) :=
  match TokenSource.pull source with
  | (.ok token, source) => .ok ⟨maxDepth, ⟨source, token, []⟩, none⟩
  | (.error e, _) => .error e

/-- The nesting limit is checked before the first token is read. -/
def start (maxDepth : Int) (source : σ) : Except StartError (Parser σ) := do
  let depth ← (Setting.positive .maxDepth maxDepth).mapError .setting
  (ofSource depth source).mapError .scan

/-- The next function, or `none` at the end of input. -/
def next (p : Parser σ) : Except Failure (Option Function) × Parser σ :=
  match p.failure with
  | some e => (.error e, p)
  | none =>
      match Reader.statement p.maxDepth { p.reader with consumed := [] } with
      | .ok f reader => (.ok f, { p with reader })
      | .error e reader => (.error e, { p with reader, failure := some e })

/-- Up to `n` functions with the text each was read from, fewer if the input ends or a failure
comes first. -/
def take : Nat → Parser σ → List (Function × String) × Option Failure × Parser σ
  | 0, p => ([], none, p)
  | n + 1, p =>
      match p.next with
      | (.error e, p') => ([], some e, p')
      | (.ok none, p') => ([], none, p')
      | (.ok (some f), p') =>
          let (items, failure, p'') := take n p'
          ((f, p'.consumedText) :: items, failure, p'')

/-- All remaining functions; each of them takes at least one token. -/
def all (p : Parser σ) : Except Failure (List Function) × Parser σ :=
  match p.take (p.reader.remaining + 1) with
  | (items, none, p') => (.ok (items.map Prod.fst), p')
  | (_, some e, p') => (.error e, p')

end Parser
end ExprLang
