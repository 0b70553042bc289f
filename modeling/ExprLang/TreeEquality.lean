import ExprLang.Syntax

/-!
# Equality of trees

Two trees are the same when they agree in everything but their spans. A digest of a tree is
computed from digests of its fields by any given combination, and leaves out the spans too.
-/
namespace ExprLang

mutual

def Expr.same : Expr → Expr → Bool
  | .number v _, .number w _ => v == w
  | .reference m _, .reference n _ => m == n
  | .binary o l r _, .binary o' l' r' _ => o == o' && l.same l' && r.same r'
  | .call f as _, .call g bs _ => f == g && Expr.sameAll as bs
  | .conditional p t e _, .conditional p' t' e' _ => p.same p' && t.same t' && e.same e'
  | _, _ => false

/-- Lists of different length are never the same. -/
def Expr.sameAll : List Expr → List Expr → Bool
  | [], [] => true
  | a :: as, b :: bs => a.same b && Expr.sameAll as bs
  | _, _ => false

end

def Prototype.same (p q : Prototype) : Bool := p.name == q.name && p.params == q.params

def Function.same : Function → Function → Bool
  | .definition p b _, .definition q c _ => p.same q && b.same c
  | .external p _, .external q _ => p.same q
  | .anonymous b _, .anonymous c _ => b.same c
  | _, _ => false

def Function.sameAll : List Function → List Function → Bool
  | [], [] => true
  | f :: fs, g :: gs => f.same g && Function.sameAll fs gs
  | _, _ => false

namespace Node

def same : Node → Node → Bool
  | .expr a, .expr b => a.same b
  | .prototype p, .prototype q => p.same q
  | .function f, .function g => f.same g
  | _, _ => false

def firstSame (nodes : List Node) (n : Node) : Nat := nodes.findIdx n.same

end Node

mutual

def Expr.erase : Expr → Expr
  | .number value _ => .number value none
  | .reference name _ => .reference name none
  | .binary op lhs rhs _ => .binary op lhs.erase rhs.erase none
  | .call callee args _ => .call callee (Expr.eraseAll args) none
  | .conditional p t e _ => .conditional p.erase t.erase e.erase none

def Expr.eraseAll : List Expr → List Expr
  | [] => []
  | e :: es => e.erase :: Expr.eraseAll es

end

def Prototype.erase (p : Prototype) : Prototype := { p with span := none }

def Function.erase : Function → Function
  | .definition p body _ => .definition p.erase body.erase none
  | .external p _ => .external p.erase none
  | .anonymous body _ => .anonymous body.erase none

def Node.erase : Node → Node
  | .expr e => .expr e.erase
  | .prototype p => .prototype p.erase
  | .function f => .function f.erase

/-- How digests of single values are made, and how a sequence of digests is combined. -/
structure Digest (H : Type) where
  number : Int → H
  text : String → H
  operator : Operator → H
  nothing : H
  nodeClass : NodeClass → H
  sequence : List H → H

mutual

/-- The digest of a node combines its class with the digests of its fields in order. -/
def Expr.digest {H : Type} (d : Digest H) : Expr → H
  | .number value _ => d.sequence [d.nodeClass .numberLiteral, d.number value]
  | .reference name _ => d.sequence [d.nodeClass .variableRef, d.text name]
  | .binary op lhs rhs _ =>
      d.sequence [d.nodeClass .binaryOp, d.operator op, lhs.digest d, rhs.digest d]
  | .call callee args _ =>
      d.sequence [d.nodeClass .call, d.text callee, d.sequence (Expr.digestAll d args)]
  | .conditional p t e _ =>
      d.sequence [d.nodeClass .conditional, p.digest d, t.digest d, e.digest d]

def Expr.digestAll {H : Type} (d : Digest H) : List Expr → List H
  | [] => []
  | e :: es => e.digest d :: Expr.digestAll d es

end

def Prototype.digest {H : Type} (d : Digest H) (p : Prototype) : H :=
  d.sequence [d.nodeClass .prototype, d.text p.name, d.sequence (p.params.map d.text)]

def Function.digest {H : Type} (d : Digest H) : Function → H
  | .definition p body _ => d.sequence [d.nodeClass .function, p.digest d, body.digest d]
  | .external p _ => d.sequence [d.nodeClass .function, p.digest d, d.nothing]
  | .anonymous body _ => d.sequence [d.nodeClass .function, d.nothing, body.digest d]

def Node.digest {H : Type} (d : Digest H) : Node → H
  | .expr e => e.digest d
  | .prototype p => p.digest d
  | .function f => f.digest d

def Digest.word : Digest UInt64 where
  number := hash
  text := hash
  operator op := hash op.precedence
  nothing := 0
  nodeClass c := hash c.name
  sequence := List.foldl mixHash 7

/-- Wherever two lists hold the same function at the same place, the digests agree. -/
def Function.digestsAgree (fs gs : List Function) : Bool :=
  (fs.zip gs).all fun (f, g) => !f.same g || f.digest Digest.word == g.digest Digest.word

end ExprLang
