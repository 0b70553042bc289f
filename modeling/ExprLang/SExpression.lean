import ExprLang.Traversal

/-!
# S-expressions

A tree on one line: a number or a name stands for itself, and everything else is a list in
parentheses with single spaces between its items.
-/
namespace ExprLang

def parenthesized (items : List String) : String := "(" ++ String.intercalate " " items ++ ")"

mutual

def Expr.sexpr : Expr → String
  | .number value _ => toString value
  | .reference name _ => name
  | .binary op lhs rhs _ => parenthesized [op.symbol, lhs.sexpr, rhs.sexpr]
  | .call callee args _ => parenthesized ("call" :: callee :: Expr.sexprs args)
  | .conditional p t e _ => parenthesized ["if", p.sexpr, t.sexpr, e.sexpr]

def Expr.sexprs : List Expr → List String
  | [] => []
  | e :: es => e.sexpr :: Expr.sexprs es

end

def Prototype.sexpr (p : Prototype) : String := parenthesized (p.name :: p.params)

def Function.sexpr : Function → String
  | .definition p body _ => parenthesized ["def", p.sexpr, body.sexpr]
  | .external p _ => parenthesized ["extern", p.sexpr]
  | .anonymous body _ => parenthesized ["anon", body.sexpr]

def Node.sexpr : Node → String
  | expr e => e.sexpr
  | prototype p => p.sexpr
  | function f => f.sexpr

structure Unprintable where
  nodeClass : NodeClass
  deriving DecidableEq, Repr

def Unprintable.message (e : Unprintable) : String := "No printer for " ++ e.nodeClass.name

/-- The printer as a visitor: it has a method for every class, and its fallback refuses. -/
def Visitor.printer : Visitor (Except Unprintable String) where
  methods suffix :=
    if (NodeClass.all.map NodeClass.suffix).contains suffix then some fun n => .ok n.sexpr
    else none
  fallback n := .error ⟨n.nodeClass⟩

end ExprLang
