import ExprLang.Keyword
import ExprLang.Location
import ExprLang.Operator

/-!
# Tokens

A token is a terminal symbol of the grammar together with the text it was read from and the
place where that text starts. Numbers, identifiers and operators carry their value in the
terminal itself, so no token can lack the value its kind needs. A token is described whatever the
size of its number; that a host may refuse to write one of very many digits is left to hosts, for
which `Token.numbers` says what a description asks them to write.
-/
namespace ExprLang

inductive Kind
  | endOfInput
  | number
  | identifier
  | keyword (word : Keyword)
  | operator
  | leftParen
  | rightParen
  | comma
  deriving DecidableEq, Repr

namespace Kind

def all : List Kind :=
  [endOfInput, number, identifier] ++ Keyword.all.map keyword
    ++ [operator, leftParen, rightParen, comma]

def name : Kind → String
  | endOfInput => "EOF"
  | number => "NUMBER"
  | identifier => "IDENTIFIER"
  | keyword word => word.kindName
  | operator => "OPERATOR"
  | leftParen => "LEFT_PAREN"
  | rightParen => "RIGHT_PAREN"
  | comma => "COMMA"

def ofName? (text : String) : Option Kind := all.find? (·.name == text)

end Kind

/-- A terminal symbol of the grammar, with its value. -/
inductive Terminal
  | endOfInput
  | number (value : Int)
  | identifier (name : String)
  | keyword (word : Keyword)
  | operator (op : Operator)
  | leftParen
  | rightParen
  | comma
  deriving DecidableEq, Repr

def Terminal.kind : Terminal → Kind
  | endOfInput => .endOfInput
  | number _ => .number
  | identifier _ => .identifier
  | keyword word => .keyword word
  | operator _ => .operator
  | leftParen => .leftParen
  | rightParen => .rightParen
  | comma => .comma

inductive TokenValue
  | number (value : Int)
  | text (value : String)
  | operator (op : Operator)
  deriving DecidableEq, Repr

def TokenValue.written : TokenValue → String
  | number value => toString value
  | text value => Quoted.quote value
  | operator op => op.written

def Terminal.value? : Terminal → Option TokenValue
  | number value => some (.number value)
  | identifier name => some (.text name)
  | operator op => some (.operator op)
  | _ => none

/-- `note` is a value attached to a token whose kind has none of its own. Nothing in the
grammar reads it, and scanned tokens have none. -/
structure Token where
  terminal : Terminal
  lexeme : String
  location : Location
  note : Option TokenValue := none
  deriving DecidableEq, Repr

namespace Token

def kind (t : Token) : Kind := t.terminal.kind

def value? (t : Token) : Option TokenValue :=
  match t.terminal.value? with
  | some value => some value
  | none => t.note

def isEnd (t : Token) : Bool := t.terminal == .endOfInput

def isIdentifier (t : Token) : Bool :=
  match t.terminal with
  | .identifier _ => true
  | _ => false

def isKeyword (t : Token) : Bool :=
  match t.terminal with
  | .keyword _ => true
  | _ => false

def operator? (t : Token) : Option Operator :=
  match t.terminal with
  | .operator op => some op
  | _ => none

def isOperator (t : Token) : Bool := t.operator?.isSome

def holdsOperator (t : Token) (op : Operator) : Bool := t.operator? == some op

/-- The token's name in messages: its kind, with the value if it has one of its own. -/
def label (t : Token) : String :=
  match t.terminal with
  | .number value => "Number(" ++ toString value ++ ")"
  | .identifier name => "Identifier(" ++ Quoted.quote name ++ ")"
  | .operator op => "Operator(" ++ op.name ++ ")"
  | other => other.kind.name

def numbers (t : Token) : List Int :=
  match t.terminal with
  | .number value => [value]
  | _ => []

/-- The token as a diagnostic names it, with its text. -/
def description (t : Token) : String :=
  if t.isEnd then "end of input" else t.label ++ " '" ++ t.lexeme ++ "'"

def written (t : Token) : String :=
  "Token(" ++ t.kind.name ++ ", " ++ Quoted.quote t.lexeme ++ ", "
    ++ (t.value?.map TokenValue.written).getD "None" ++ ", " ++ t.location.written ++ ")"

end Token
end ExprLang
