import ExprLang.Diagnostic
import ExprLang.KeywordHint
import ExprLang.Token

/-!
# Syntax errors

Why a token cannot continue what has been read. A fault that still wanted something is reported
as an unexpected end when the token it concerns is the end of input.
-/
namespace ExprLang

/-- What the grammar wanted: a kind of token, or something described in words. -/
inductive Expectation
  | kind (k : Kind)
  | phrase (text : String)
  deriving DecidableEq, Repr

def Kind.description : Kind → String
  | .leftParen => "'('"
  | .rightParen => "')'"
  | .comma => "','"
  | .keyword .thenWord => "'then'"
  | .keyword .elseWord => "'else'"
  | .identifier => "identifier"
  | .number => "number"
  | k => k.name

def Expectation.description : Expectation → String
  | kind k => k.description
  | phrase text => text

inductive SyntaxFault
  | unexpectedToken (expected : Expectation)
  | missingKeyword (word : Kind) (construct : String)
  | invalidExpression
  | malformedPrototype (expected : Expectation) (name : Option String)
  | malformedArguments (callee : String)
  | unexpectedEnd (expected : String)
  | nestingTooDeep (limit : Int)
  deriving DecidableEq, Repr

namespace SyntaxFault

def codes : CodeTable :=
  [("P001", "Unexpected token"), ("P002", "Missing keyword"), ("P005", "Invalid expression"),
    ("P008", "Malformed function signature"), ("P010", "Unexpected end of input"),
    ("P013", "Malformed argument list"), ("P014", "Nesting too deep")]

def code : SyntaxFault → String
  | unexpectedToken _ => "P001"
  | missingKeyword _ _ => "P002"
  | invalidExpression => "P005"
  | malformedPrototype _ _ => "P008"
  | unexpectedEnd _ => "P010"
  | malformedArguments _ => "P013"
  | nestingTooDeep _ => "P014"

/-- What the fault still wanted, if more input could have mended it. -/
def wanted? : SyntaxFault → Option String
  | unexpectedToken expected => some expected.description
  | missingKeyword word _ => some word.description
  | invalidExpression => some "expression"
  | malformedPrototype expected _ => some expected.description
  | malformedArguments callee => some ("')' or ',' in arguments of call to '" ++ callee ++ "'")
  | unexpectedEnd expected => some expected
  | nestingTooDeep _ => none

def expected : SyntaxFault → String
  | unexpectedToken expected => expected.description
  | missingKeyword word _ => word.description
  | invalidExpression => "expression"
  | malformedPrototype expected _ => expected.description
  | malformedArguments _ => "')' or ','"
  | unexpectedEnd expected => expected
  | nestingTooDeep limit => "expression nested at most " ++ toString limit ++ " deep"

/-- A prototype is named when it is known to have a name that is not empty. -/
def prototypePlace : Option String → String
  | none | some "" => " in prototype"
  | some name => " in prototype of '" ++ name ++ "'"

def message (f : SyntaxFault) (found : String) : String :=
  match f with
  | unexpectedToken expected => "Expected " ++ expected.description ++ ", found " ++ found
  | missingKeyword word construct =>
      "Expected " ++ word.description ++ " in " ++ construct ++ ", found " ++ found
  | invalidExpression => "Expected expression, found " ++ found
  | malformedPrototype expected name =>
      "Expected " ++ expected.description ++ prototypePlace name ++ ", found " ++ found
  | malformedArguments callee =>
      "Expected ')' or ',' in arguments of call to '" ++ callee ++ "', found " ++ found
  | unexpectedEnd expected => "Unexpected end of input, expected " ++ expected
  | nestingTooDeep limit =>
      "Nesting too deep: more than " ++ toString limit ++ " levels at " ++ found

def help : SyntaxFault → String
  | unexpectedToken expected =>
      "The parser expected to see " ++ expected.description ++ " at this position."
  | missingKeyword _ _ => "Conditionals take the form: if <expr> then <expr> else <expr>"
  | invalidExpression => "An expression starts with a number, an identifier, '(' or 'if'."
  | malformedPrototype _ _ => "Prototypes take the form: name(param1, param2, ...)"
  | malformedArguments _ => "Call arguments must be separated by commas."
  | unexpectedEnd expected =>
      "The parser reached the end of the input while expecting " ++ expected ++ "."
  | nestingTooDeep _ => "Split the expression into smaller functions."

def keywordHints (found : Token) : List String :=
  if found.isIdentifier then
    (KeywordHint.nearest LetterCase.lower found.lexeme).map fun k =>
      "Did you mean '" ++ k.spelling ++ "'?"
  else []

def suggestions (f : SyntaxFault) (found : Token) : Option (List String) :=
  match f with
  | unexpectedToken _ | missingKeyword _ _ | invalidExpression =>
      match keywordHints found with
      | [] => none
      | hints => some hints
  | malformedArguments _ => some ["Insert ',' before " ++ found.description]
  | malformedPrototype _ _ | unexpectedEnd _ | nestingTooDeep _ => none

end SyntaxFault

structure SyntaxError where
  fault : SyntaxFault
  token : Token
  deriving DecidableEq, Repr

namespace SyntaxError

/-- The error for a fault at a token. At the end of input a fault that wanted something becomes
an unexpected end. -/
def ofFault (fault : SyntaxFault) (found : Token) : SyntaxError :=
  match found.isEnd, fault.wanted? with
  | true, some expected => ⟨.unexpectedEnd expected, found⟩
  | _, _ => ⟨fault, found⟩

/-- The whole numbers that the texts show in decimal. An unexpected end describes no token. -/
def numbers (e : SyntaxError) : List Int :=
  match e.fault with
  | .unexpectedEnd _ => []
  | .nestingTooDeep limit => limit :: e.token.numbers
  | _ => e.token.numbers

def diagnostic (e : SyntaxError) : Diagnostic where
  message := e.fault.message e.token.description
  location := e.token.location
  severity := Diagnostic.error
  code := some e.fault.code
  help := some e.fault.help
  suggestions := e.fault.suggestions e.token

end SyntaxError
end ExprLang
