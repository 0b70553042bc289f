import ExprLang.Syntax

/-!
# Written forms of trees

The label of a node names its class and its span. The written form of a node names its class
and shows its fields, without the spans.
-/
namespace ExprLang

def bracketed (items : List String) : String := "[" ++ String.intercalate ", " items ++ "]"

mutual

def Expr.written : Expr → String
  | .number value _ => "NumberLiteral(value=" ++ toString value ++ ")"
  | .reference name _ => "VariableRef(name=" ++ Quoted.quote name ++ ")"
  | .binary op lhs rhs _ =>
      "BinaryOp(op=" ++ op.written ++ ", lhs=" ++ lhs.written ++ ", rhs=" ++ rhs.written ++ ")"
  | .call callee args _ =>
      "Call(name=" ++ Quoted.quote callee ++ ", args=" ++ bracketed (Expr.writtenAll args) ++ ")"
  | .conditional p t e _ =>
      "Conditional(predicate=" ++ p.written ++ ", then_branch=" ++ t.written
        ++ ", else_branch=" ++ e.written ++ ")"

def Expr.writtenAll : List Expr → List String
  | [] => []
  | e :: es => e.written :: Expr.writtenAll es

end

def Prototype.written (p : Prototype) : String :=
  "Prototype(name=" ++ Quoted.quote p.name ++ ", params=" ++ bracketed (p.params.map Quoted.quote)
    ++ ")"

/-- An absent part is shown as such. -/
def Function.written (f : Function) : String :=
  "Function(prototype=" ++ (f.prototype?.map Prototype.written).getD "None"
    ++ ", body=" ++ (f.body?.map Expr.written).getD "None" ++ ")"

namespace Node

def written : Node → String
  | expr e => e.written
  | prototype p => p.written
  | function f => f.written

def label (n : Node) : String :=
  match n.span with
  | none => n.nodeClass.name
  | some span => n.nodeClass.name ++ "@" ++ span.text

end Node
end ExprLang
