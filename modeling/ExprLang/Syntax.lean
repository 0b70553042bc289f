import ExprLang.Location
import ExprLang.Operator

/-!
# Syntax trees

Expressions, prototypes and functions. Every node may carry the span of source it was read
from. A function has one of three shapes, so a function with neither prototype nor body cannot
be written down.
-/
namespace ExprLang

inductive Expr
  | number (value : Int) (span : Option Span)
  | reference (name : String) (span : Option Span)
  | binary (op : Operator) (lhs rhs : Expr) (span : Option Span)
  | call (callee : String) (args : List Expr) (span : Option Span)
  | conditional (predicate thenBranch elseBranch : Expr) (span : Option Span)
  deriving Repr

def Expr.span : Expr → Option Span
  | number _ span => span
  | reference _ span => span
  | binary _ _ _ span => span
  | call _ _ span => span
  | conditional _ _ _ span => span

/-- A function's name and the names of its parameters, which need not differ. -/
structure Prototype where
  name : String
  params : List String
  span : Option Span
  deriving DecidableEq, Repr

namespace Prototype

def anonymousName : String := "__anon_fn"

def anonymous : Prototype := ⟨anonymousName, [], none⟩

def arity (p : Prototype) : Nat := p.params.length

end Prototype

/-- A top-level unit: a definition, a declaration of an external function, or an expression. -/
inductive Function
  | definition (prototype : Prototype) (body : Expr) (span : Option Span)
  | external (prototype : Prototype) (span : Option Span)
  | anonymous (body : Expr) (span : Option Span)
  deriving Repr

inductive FunctionKind
  | definition
  | external
  | anonymous
  deriving DecidableEq, Repr

namespace FunctionKind

def all : List FunctionKind := [definition, external, anonymous]

def value : FunctionKind → String
  | definition => "definition"
  | external => "extern"
  | anonymous => "anonymous"

def constantName (k : FunctionKind) : String := k.value.toUpper

end FunctionKind

inductive ShapeError
  | empty
  deriving DecidableEq, Repr

def ShapeError.message : ShapeError → String
  | empty => "Function needs a prototype, a body, or both"

namespace Function

def span : Function → Option Span
  | definition _ _ span => span
  | external _ span => span
  | anonymous _ span => span

def prototype? : Function → Option Prototype
  | definition prototype _ _ => some prototype
  | external prototype _ => some prototype
  | anonymous _ _ => none

def body? : Function → Option Expr
  | definition _ body _ => some body
  | external _ _ => none
  | anonymous body _ => some body

def kind : Function → FunctionKind
  | definition _ _ _ => .definition
  | external _ _ => .external
  | anonymous _ _ => .anonymous

/-- The function with the given parts; at least one of them must be present. -/
def ofParts (prototype : Option Prototype) (body : Option Expr) (span : Option Span) :
    Except ShapeError Function :=
  match prototype, body with
  | some p, some b => .ok (.definition p b span)
  | some p, none => .ok (.external p span)
  | none, some b => .ok (.anonymous b span)
  | none, none => .error .empty

end Function

inductive Node
  | expr (e : Expr)
  | prototype (p : Prototype)
  | function (f : Function)
  deriving Repr

inductive NodeClass
  | numberLiteral
  | variableRef
  | binaryOp
  | call
  | conditional
  | prototype
  | function
  deriving DecidableEq, Repr

namespace NodeClass

/-- All classes, in declaration order. -/
def all : List NodeClass :=
  [numberLiteral, variableRef, binaryOp, call, conditional, prototype, function]

def name : NodeClass → String
  | numberLiteral => "NumberLiteral"
  | variableRef => "VariableRef"
  | binaryOp => "BinaryOp"
  | call => "Call"
  | conditional => "Conditional"
  | prototype => "Prototype"
  | function => "Function"

/-- Every capital becomes a small letter, with an underscore before it. -/
def separateWords (text : List Char) : List Char :=
  text.flatMap fun c => if c.isUpper then ['_', c.toLower] else [c]

/-- The name in small letters, an underscore between its words. -/
def suffix (c : NodeClass) : String := String.ofList ((separateWords c.name.toList).drop 1)

/-- The name in capitals, an underscore between its words. -/
def constantName (c : NodeClass) : String := c.suffix.toUpper

end NodeClass

def Expr.nodeClass : Expr → NodeClass
  | number _ _ => .numberLiteral
  | reference _ _ => .variableRef
  | binary _ _ _ _ => .binaryOp
  | call _ _ _ => .call
  | conditional _ _ _ _ => .conditional

namespace Node

def nodeClass : Node → NodeClass
  | expr e => e.nodeClass
  | prototype _ => .prototype
  | function _ => .function

def span : Node → Option Span
  | expr e => e.span
  | prototype p => p.span
  | function f => f.span

def joinSpans (a b : Node) : Option Span := Span.join a.span b.span

end Node
end ExprLang
