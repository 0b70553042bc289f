import ExprLang.Syntax

/-!
# Traversal

The children of a node, the walk over a node and all its descendants, and visitors. The walk
lists a node before its children and its children in order. A visitor answers for a node by the
method named after the node's class, or by its fallback where it has no such method.
-/
namespace ExprLang

def Expr.children : Expr → List Expr
  | number _ _ => []
  | reference _ _ => []
  | binary _ lhs rhs _ => [lhs, rhs]
  | call _ args _ => args
  | conditional predicate thenBranch elseBranch _ => [predicate, thenBranch, elseBranch]

def Node.children : Node → List Node
  | expr e => e.children.map expr
  | prototype _ => []
  | function (.definition p body _) => [prototype p, expr body]
  | function (.external p _) => [prototype p]
  | function (.anonymous body _) => [expr body]

mutual

/-- The expression and every expression inside it, each before its parts. -/
def Expr.walk : Expr → List Expr
  | .number value span => [.number value span]
  | .reference name span => [.reference name span]
  | .binary op lhs rhs span => .binary op lhs rhs span :: (lhs.walk ++ rhs.walk)
  | .call callee args span => .call callee args span :: Expr.walkAll args
  | .conditional p t e span => .conditional p t e span :: (p.walk ++ (t.walk ++ e.walk))

def Expr.walkAll : List Expr → List Expr
  | [] => []
  | e :: es => e.walk ++ Expr.walkAll es

end

theorem Expr.walkAll_eq_flatMap (es : List Expr) : Expr.walkAll es = es.flatMap Expr.walk := by
  induction es with
  | nil => rfl
  | cons e es ih => simp [Expr.walkAll, ih]

theorem Expr.walk_eq_cons (e : Expr) : e.walk = e :: e.children.flatMap Expr.walk := by
  cases e <;> simp [Expr.walk, Expr.children, Expr.walkAll_eq_flatMap]

namespace Node

def walk : Node → List Node
  | expr e => e.walk.map expr
  | prototype p => [prototype p]
  | function (.definition p body span) =>
      function (.definition p body span) :: prototype p :: body.walk.map expr
  | function (.external p span) => [function (.external p span), prototype p]
  | function (.anonymous body span) => function (.anonymous body span) :: body.walk.map expr

theorem walk_eq_cons (n : Node) : n.walk = n :: n.children.flatMap walk := by
  cases n with
  | expr e =>
    rw [walk, Expr.walk_eq_cons]
    simp [children, List.flatMap_map, List.map_flatMap, walk]
  | prototype p => rfl
  | function f => cases f <;> simp [walk, children]

/-- What holds of a node and of all nodes below it holds of the node and, in the same way, of its
children. -/
theorem forall_mem_walk {P : Node → Prop} {n : Node} :
    (∀ m ∈ n.walk, P m) ↔ P n ∧ ∀ c ∈ n.children, ∀ m ∈ c.walk, P m := by
  simp only [walk_eq_cons n, List.forall_mem_cons, List.mem_flatMap, forall_exists_index, and_imp]
  exact and_congr_right fun _ => ⟨fun h c hc m hm => h m c hc hm, fun h m c hc hm => h c hc m hm⟩

theorem sizeOf_lt_of_mem_children {n c : Node} (h : c ∈ n.children) : sizeOf c < sizeOf n := by
  cases n with
  | expr e =>
    obtain ⟨e', he', rfl⟩ := List.mem_map.1 h
    cases e with
    | number | reference => simp [Expr.children] at he'
    | binary | conditional =>
      simp only [Expr.children, List.mem_cons, List.not_mem_nil, or_false] at he'
      grind
    | call callee args span =>
      have hlt : sizeOf e' < sizeOf args := List.sizeOf_lt_of_mem he'
      simp only [expr.sizeOf_spec, Expr.call.sizeOf_spec]
      omega
  | prototype p => simp [children] at h
  | function f =>
    cases f <;> simp only [children, List.mem_cons, List.not_mem_nil, or_false] at h <;> grind

theorem induction_on_children {motive : Node → Prop}
    (h : ∀ n : Node, (∀ c ∈ n.children, motive c) → motive n) (n : Node) : motive n :=
  h n fun c hc =>
    have _hlt := sizeOf_lt_of_mem_children hc
    induction_on_children h c
termination_by sizeOf n

end Node

/-- A method for each suffix that the visitor handles, and a fallback for all other nodes. -/
structure Visitor (α : Type) where
  methods : String → Option (Node → α)
  fallback : Node → α

namespace Visitor

variable {α : Type}

/-- The method named after the node's class answers for it, or else the fallback. -/
def visit (v : Visitor α) (n : Node) : α :=
  match v.methods n.nodeClass.suffix with
  | some method => method n
  | none => v.fallback n

mutual

def tourExpr (v : Visitor α) : Expr → List α
  | .number value span => [v.visit (.expr (.number value span))]
  | .reference name span => [v.visit (.expr (.reference name span))]
  | .binary op lhs rhs span =>
      v.visit (.expr (.binary op lhs rhs span)) :: (v.tourExpr lhs ++ v.tourExpr rhs)
  | .call callee args span =>
      v.visit (.expr (.call callee args span)) :: v.tourExprs args
  | .conditional p t e span =>
      v.visit (.expr (.conditional p t e span)) ::
        (v.tourExpr p ++ (v.tourExpr t ++ v.tourExpr e))

def tourExprs (v : Visitor α) : List Expr → List α
  | [] => []
  | e :: es => v.tourExpr e ++ v.tourExprs es

end

/-- The answers of a visitor whose every method goes on to the node's children in order. -/
def tour (v : Visitor α) : Node → List α
  | .expr e => v.tourExpr e
  | .prototype p => [v.visit (.prototype p)]
  | .function (.definition p body span) =>
      v.visit (.function (.definition p body span)) :: v.visit (.prototype p) :: v.tourExpr body
  | .function (.external p span) =>
      [v.visit (.function (.external p span)), v.visit (.prototype p)]
  | .function (.anonymous body span) =>
      v.visit (.function (.anonymous body span)) :: v.tourExpr body

def logging (handled : List String) : Visitor (String × NodeClass) where
  methods suffix :=
    if handled.contains suffix then some fun n => ("visit_" ++ suffix, n.nodeClass) else none
  fallback n := ("generic_visit", n.nodeClass)

end Visitor
end ExprLang
