import ExprLang.Token

/-!
# The language

The grammar of programs as a context-free grammar over terminals. It is ambiguous on purpose:
it knows no precedence, a name before an opening parenthesis may be a call or the end of a
statement, and an operator after an else branch may belong to the branch or to what is around
the conditional. Only which lists of terminals are programs matters here.
-/
namespace ExprLang.Grammar

/-- `operations` and `moreArguments` are the repetitions inside `expression` and `arguments`. -/
inductive Symbol
  | program
  | statement
  | prototype
  | parameters
  | expression
  | operations
  | primary
  | arguments
  | moreArguments
  deriving DecidableEq, Repr

inductive Generates : Symbol → List Terminal → Prop
  | noStatement : Generates .program []
  | nextStatement {u v : List Terminal} (first : Generates .statement u)
      (rest : Generates .program v) : Generates .program (u ++ v)
  | definition {u v : List Terminal} (signature : Generates .prototype u)
      (body : Generates .expression v) : Generates .statement (.keyword .define :: (u ++ v))
  | external {u : List Terminal} (signature : Generates .prototype u) :
      Generates .statement (.keyword .external :: u)
  | bare {u : List Terminal} (body : Generates .expression u) : Generates .statement u
  | prototype (name : String) {u : List Terminal} (params : Generates .parameters u) :
      Generates .prototype (.identifier name :: .leftParen :: (u ++ [.rightParen]))
  | noParameter : Generates .parameters []
  | skipComma {u : List Terminal} (rest : Generates .parameters u) :
      Generates .parameters (.comma :: u)
  | parameter (name : String) {u : List Terminal} (rest : Generates .parameters u) :
      Generates .parameters (.identifier name :: u)
  | expression {u v : List Terminal} (first : Generates .primary u)
      (rest : Generates .operations v) : Generates .expression (u ++ v)
  | noOperation : Generates .operations []
  | operation {op : Operator} {u v : List Terminal} (binary : op.isBinary = true)
      (operand : Generates .primary u) (rest : Generates .operations v) :
      Generates .operations (.operator op :: (u ++ v))
  | number (value : Int) : Generates .primary [.number value]
  | reference (name : String) : Generates .primary [.identifier name]
  | group {u : List Terminal} (inner : Generates .expression u) :
      Generates .primary (.leftParen :: (u ++ [.rightParen]))
  | call (callee : String) {u : List Terminal} (args : Generates .arguments u) :
      Generates .primary (.identifier callee :: .leftParen :: (u ++ [.rightParen]))
  | conditional {u v w : List Terminal} (predicate : Generates .expression u)
      (thenBranch : Generates .expression v) (elseBranch : Generates .expression w) :
      Generates .primary (.keyword .ifWord :: (u ++ .keyword .thenWord ::
        (v ++ .keyword .elseWord :: w)))
  | noArgument : Generates .arguments []
  | arguments {u v : List Terminal} (first : Generates .expression u)
      (rest : Generates .moreArguments v) : Generates .arguments (u ++ v)
  | lastArgument : Generates .moreArguments []
  | nextArgument {u v : List Terminal} (next : Generates .expression u)
      (rest : Generates .moreArguments v) : Generates .moreArguments (.comma :: (u ++ v))

def Sentence (ts : List Terminal) : Prop := Generates .program ts

/-- Terminals that some continuation completes to a sentence. -/
def Viable (ts : List Terminal) : Prop := ∃ rest, Sentence (ts ++ rest)

end ExprLang.Grammar

namespace ExprLang

/-- A token without text or place, for examples. -/
def Token.bare (t : Terminal) : Token := ⟨t, "", ⟨"", 1, 1, 0⟩, none⟩

def Terminal.isName : Terminal → Bool
  | identifier _ => true
  | _ => false

def terminals (ts : List Token) : List Terminal := ts.map Token.terminal

/-- Whether the last of some terminals is a name; `before` answers for the one before them. -/
def endsInName (before : Bool) (ts : List Terminal) : Bool :=
  ts.foldl (fun _ t => t.isName) before

@[simp] theorem endsInName_nil (before : Bool) : endsInName before [] = before := rfl

@[simp] theorem endsInName_cons (before : Bool) (t : Terminal) (ts : List Terminal) :
    endsInName before (t :: ts) = endsInName t.isName ts := rfl

@[simp] theorem endsInName_append (before : Bool) (ts us : List Terminal) :
    endsInName before (ts ++ us) = endsInName (endsInName before ts) us := by
  simp [endsInName]

@[simp] theorem terminals_nil : terminals [] = [] := rfl

@[simp] theorem terminals_cons (t : Token) (ts : List Token) :
    terminals (t :: ts) = t.terminal :: terminals ts := rfl

@[simp] theorem terminals_append (ts us : List Token) :
    terminals (ts ++ us) = terminals ts ++ terminals us := by
  simp [terminals]

end ExprLang
