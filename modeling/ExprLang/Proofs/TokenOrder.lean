import ExprLang.Proofs.Session
import ExprLang.Traversal
import Mathlib.Algebra.BigOperators.Group.List.Basic

/-!
# Trees in the order of their tokens

A walk over a tree that was read comes to its numbers and names in the order in which they stand in
the source, and it comes to an operation for each operator, a conditional for each `if` and a
prototype for each `def` or `extern`. Folding operations onto operands that have been read loses
none of this. And a visitor that records each node before it visits the children records the walk,
whichever classes of nodes it has methods for.
-/
namespace ExprLang

/-- The numbers and names that a node holds itself, in the order in which they are written. -/
def Node.values : Node → List TokenValue
  | .expr (.number value _) => [.number value]
  | .expr (.reference name _) => [.text name]
  | .expr (.call callee _ _) => [.text callee]
  | .expr _ => []
  | .prototype p => .text p.name :: p.params.map .text
  | .function _ => []

def Token.isLeaf (t : Token) : Bool := t.kind == .number || t.kind == .identifier

/-- Nodes that hold the numbers and names of some tokens, in the same order, and as many
operations, conditionals and prototypes as the tokens call for. -/
structure Mirrors (ns : List Node) (ts : List Token) : Prop where
  values_eq : ns.flatMap Node.values = (ts.filter Token.isLeaf).filterMap Token.value?
  operations_eq : ns.countP (·.nodeClass == .binaryOp) = ts.countP Token.isOperator
  conditionals_eq : ns.countP (·.nodeClass == .conditional) =
    ts.countP (·.kind == .keyword .ifWord)
  prototypes_eq : ns.countP (·.nodeClass == .prototype) =
    ts.countP (·.kind == .keyword .define) + ts.countP (·.kind == .keyword .external)

structure Tally where
  values : List TokenValue
  operations : Nat
  conditionals : Nat
  prototypes : Nat

namespace Tally

variable {ns : List Node} {ts : List Token}

instance : Zero Tally := ⟨⟨[], 0, 0, 0⟩⟩

instance : Add Tally :=
  ⟨fun a b => ⟨a.values ++ b.values, a.operations + b.operations, a.conditionals + b.conditionals,
    a.prototypes + b.prototypes⟩⟩

theorem zero_def : (0 : Tally) = ⟨[], 0, 0, 0⟩ := rfl

theorem add_def (a b : Tally) : a + b = ⟨a.values ++ b.values, a.operations + b.operations,
    a.conditionals + b.conditionals, a.prototypes + b.prototypes⟩ := rfl

instance : AddMonoid Tally where
  add_assoc a b c := by simp [add_def, Nat.add_assoc]
  zero_add a := by simp [add_def, zero_def]
  add_zero a := by simp [add_def, zero_def]
  nsmul := nsmulRec

def value (v : TokenValue) : Tally := ⟨[v], 0, 0, 0⟩

def operation : Tally := ⟨[], 1, 0, 0⟩

def conditional : Tally := ⟨[], 0, 1, 0⟩

def prototype : Tally := ⟨[], 0, 0, 1⟩

/-- It does not matter where an operation stands, since it holds no value. -/
theorem operation_left_comm (a b : Tally) : operation + (a + b) = a + (operation + b) := by
  simp [add_def, operation, Nat.add_left_comm]

def ofTokens (ts : List Token) : Tally where
  values := (ts.filter Token.isLeaf).filterMap Token.value?
  operations := ts.countP Token.isOperator
  conditionals := ts.countP (·.kind == .keyword .ifWord)
  prototypes := ts.countP (·.kind == .keyword .define) + ts.countP (·.kind == .keyword .external)

def ofNodes (ns : List Node) : Tally where
  values := ns.flatMap Node.values
  operations := ns.countP (·.nodeClass == .binaryOp)
  conditionals := ns.countP (·.nodeClass == .conditional)
  prototypes := ns.countP (·.nodeClass == .prototype)

def ofTerminal : Terminal → Tally
  | .number n => value (.number n)
  | .identifier name => value (.text name)
  | .operator _ => operation
  | .keyword .ifWord => conditional
  | .keyword .define | .keyword .external => prototype
  | _ => 0

@[simp] theorem ofTokens_nil : ofTokens [] = 0 := rfl

@[simp] theorem ofTokens_append (ts us : List Token) :
    ofTokens (ts ++ us) = ofTokens ts + ofTokens us := by
  simp [ofTokens, add_def, Nat.add_add_add_comm]

theorem ofTokens_singleton (t : Token) : ofTokens [t] = ofTerminal t.terminal := by
  obtain ⟨terminal, lexeme, location, note⟩ := t
  cases terminal with
  | keyword word => cases word <;> rfl
  | _ => rfl

@[simp] theorem ofTokens_cons (t : Token) (ts : List Token) :
    ofTokens (t :: ts) = ofTerminal t.terminal + ofTokens ts := by
  rw [← ofTokens_singleton, ← ofTokens_append, List.singleton_append]

@[simp] theorem ofNodes_append (ns ms : List Node) :
    ofNodes (ns ++ ms) = ofNodes ns + ofNodes ms := by
  simp [ofNodes, add_def]

theorem mirrors (h : ofNodes ns = ofTokens ts) : Mirrors ns ts :=
  ⟨congrArg values h, congrArg operations h, congrArg conditionals h, congrArg prototypes h⟩

def ofExpr (e : Expr) : Tally := ofNodes (e.walk.map .expr)

@[simp] theorem ofExpr_number (n : Int) (span : Option Span) :
    ofExpr (.number n span) = value (.number n) := rfl

@[simp] theorem ofExpr_reference (name : String) (span : Option Span) :
    ofExpr (.reference name span) = value (.text name) := rfl

@[simp] theorem ofExpr_binary (op : Operator) (a b : Expr) (span : Option Span) :
    ofExpr (.binary op a b span) = operation + (ofExpr a + ofExpr b) := by
  have hnode : ofNodes [.expr (.binary op a b span)] = operation := rfl
  rw [← hnode, ofExpr, ofExpr, ofExpr, ← ofNodes_append, ← ofNodes_append]
  simp [Expr.walk]

theorem ofNodes_walkAll (es : List Expr) :
    ofNodes ((Expr.walkAll es).map .expr) = (es.map ofExpr).sum := by
  induction es with
  | nil => rfl
  | cons e es ih => simp [Expr.walkAll, ih, ofExpr]

@[simp] theorem ofExpr_call (callee : String) (es : List Expr) (span : Option Span) :
    ofExpr (.call callee es span) = value (.text callee) + (es.map ofExpr).sum := by
  have hnode : ofNodes [.expr (.call callee es span)] = value (.text callee) := rfl
  rw [← hnode, ← ofNodes_walkAll, ofExpr, ← ofNodes_append]
  simp [Expr.walk]

@[simp] theorem ofExpr_conditional (p a b : Expr) (span : Option Span) :
    ofExpr (.conditional p a b span) = conditional + (ofExpr p + (ofExpr a + ofExpr b)) := by
  have hnode : ofNodes [.expr (.conditional p a b span)] = conditional := rfl
  rw [← hnode, ofExpr, ofExpr, ofExpr, ofExpr, ← ofNodes_append, ← ofNodes_append,
    ← ofNodes_append]
  simp [Expr.walk]

/-- The operations behind the first operand of a chain. -/
def ofLinks : List (Operator × Expr) → Tally
  | [] => 0
  | (_, x) :: rest => operation + (ofExpr x + ofLinks rest)

theorem ofLinks_append (left right : List (Operator × Expr)) :
    ofLinks (left ++ right) = ofLinks left + ofLinks right := by
  induction left with
  | nil => simp [ofLinks]
  | cons link left ih => simp [ofLinks, ih, add_assoc]

end Tally

open Tally

/-- Wherever the tree of a chain is split, its operands stay in order. -/
theorem ChainTree.tally_eq {first e : Expr} {rest : List (Operator × Expr)}
    (h : ChainTree first rest e) : ofExpr e = ofExpr first + ofLinks rest := by
  induction h with
  | operand e => simp [ofLinks]
  | @split first x a b left right op _ _ _ _ iha ihb =>
    rw [ofExpr_binary, operation_left_comm, iha, ihb, ofLinks_append, ofLinks, add_assoc]

theorem Derives.tally_eq {phrase : Phrase} {d : Nat} {ts : List Token} (h : Derives phrase d ts) :
    match phrase with
    | .operand e | .conditional e | .expression e => ofExpr e = ofTokens ts
    | .chain first rest => ofExpr first + ofLinks rest = ofTokens ts
    | .arguments es => (es.map ofExpr).sum = ofTokens ts := by
  induction h with
  | number ht | reference ht => simp [ht, ofTerminal]
  | call ht hl hr _ ih => simp [ht, hl, hr, ofTerminal, ih]
  | group hl hr _ ih => simp [hl, hr, ofTerminal, ih]
  | conditional hi ht he _ _ _ ihp iha ihb => simp [hi, ht, he, ofTerminal, ihp, iha, ihb]
  | lastOperand _ ih | lastConditional _ ih => simpa [ofLinks] using ih
  | link ho _ _ _ ih ihs => simp [ho, ofTerminal, ofLinks, ih, ihs]
  | expression _ tree ih => exact tree.tally_eq.trans ih
  | noArgument => rfl
  | lastArgument _ ih => simpa using ih
  | nextArgument hc _ _ ih ihs => simp_all [ofTerminal]

theorem DerivesParameters.tally_eq {params : List String} {ts : List Token}
    (h : DerivesParameters params ts) : ⟨params.map .text, 0, 0, 0⟩ = ofTokens ts := by
  induction h with
  | nil => rfl
  | comma hc _ ih => simp [hc, ofTerminal, ih]
  | name hn _ ih => simp [hn, ofTerminal, ← ih, add_def, value]

/-- The name of a prototype comes before its parameters. -/
theorem DerivesPrototype.tally_eq {p : Prototype} {ts : List Token} (h : DerivesPrototype p ts) :
    ofNodes [.prototype p] = Tally.prototype + ofTokens ts := by
  cases h with
  | @intro n l r name params ts hn hl hr parameters =>
    simp only [ofTokens_cons, ofTokens_append, hn, hl, hr, ofTerminal, ← parameters.tally_eq]
    rfl

theorem DerivesStatement.tally_eq {f : Function} {d : Nat} {ts : List Token}
    (h : DerivesStatement f d ts) : ofNodes (Node.function f).walk = ofTokens ts := by
  have hfunction (f : Function) (ns : List Node) : ofNodes (.function f :: ns) = ofNodes ns := rfl
  cases h with
  | @definition k p e d ts us hk signature body =>
    rw [Node.walk, hfunction, ← List.singleton_append, ofNodes_append, signature.tally_eq,
      ofTokens_cons, ofTokens_append, hk, add_assoc]
    exact congrArg _ (congrArg _ body.tally_eq)
  | external hk signature => rw [Node.walk, hfunction, signature.tally_eq, ofTokens_cons, hk]; rfl
  | anonymous body => exact body.tally_eq

namespace Visitor

def recordThenVisit (v : Visitor (StateM (List Node) Unit)) (n : Node) :
    StateM (List Node) Unit := do
  modify (· ++ [n])
  forM n.children v.visit

/-- A visitor whose every method records its node and then visits the children in order. -/
structure Records (v : Visitor (StateM (List Node) Unit)) : Prop where
  method_eq : ∀ n method, v.methods n.nodeClass.suffix = some method →
    method n = v.recordThenVisit n
  fallback_eq : ∀ n, v.fallback n = v.recordThenVisit n

section Recording

variable {v : Visitor (StateM (List Node) Unit)} {n : Node} {log : List Node}

theorem run_forM_visit {ns : List Node}
    (h : ∀ n ∈ ns, ∀ log, (v.visit n).run log = ((), log ++ n.walk)) (log : List Node) :
    (forM ns v.visit).run log = ((), log ++ ns.flatMap Node.walk) := by
  induction ns generalizing log with
  | nil => simp; rfl
  | cons n ns ih =>
    obtain ⟨hn, hns⟩ := List.forall_mem_cons.1 h
    have hrest := ih hns (log ++ n.walk)
    simp only [List.forM_cons, StateT.run_bind, hn, List.flatMap_cons, ← List.append_assoc]
    exact hrest

/-- Where the visits of the children record their walks, a node's method records its own. -/
theorem run_recordThenVisit
    (h : ∀ c ∈ n.children, ∀ log, (v.visit c).run log = ((), log ++ c.walk)) :
    (v.recordThenVisit n).run log = ((), log ++ n.walk) := by
  have hchildren := run_forM_visit h (log ++ [n])
  rw [List.append_assoc, List.singleton_append, ← Node.walk_eq_cons] at hchildren
  exact hchildren

theorem Records.visit_eq (h : v.Records) (n : Node) : v.visit n = v.recordThenVisit n := by
  unfold visit
  split
  · next method hmethod => exact h.method_eq n method hmethod
  · exact h.fallback_eq n

/-- Such a visitor records the walk, whatever it has methods for. -/
theorem Records.run_visit (h : v.Records) (n : Node) (log : List Node) :
    (v.visit n).run log = ((), log ++ n.walk) := by
  induction n using Node.induction_on_children generalizing log with
  | h n ih =>
    rw [h.visit_eq]
    exact run_recordThenVisit ih

end Recording

def recordWalk (n : Node) : StateM (List Node) Unit := modify (· ++ n.walk)

def recorder (handled : List NodeClass) : Visitor (StateM (List Node) Unit) where
  methods suffix := if handled.any (·.suffix == suffix) then some recordWalk else none
  fallback := recordWalk

theorem methods_recorder {handled : List NodeClass} {suffix : String}
    {method : Node → StateM (List Node) Unit}
    (h : (recorder handled).methods suffix = some method) : method = recordWalk := by
  simp only [recorder] at h
  split at h
  · exact (Option.some.inj h).symm
  · contradiction

theorem visit_recorder (handled : List NodeClass) (n : Node) :
    (recorder handled).visit n = recordWalk n := by
  unfold visit
  split
  · next method hmethod => rw [methods_recorder hmethod]
  · rfl

theorem records_recorder (handled : List NodeClass) : (recorder handled).Records := by
  have hrecord (n : Node) : recordWalk n = (recorder handled).recordThenVisit n := by
    funext log
    exact (run_recordThenVisit fun c _ log => by rw [visit_recorder]; rfl).symm
  refine ⟨fun n method hmethod => ?_, hrecord⟩
  rw [methods_recorder hmethod, hrecord]

/-- No two classes share a method. -/
theorem suffix_injective : Function.Injective NodeClass.suffix := by
  intro a b
  cases a <;> cases b <;> decide

theorem handles_recorder (handled : List NodeClass) (c : NodeClass) :
    ((recorder handled).methods c.suffix).isSome = true ↔ c ∈ handled := by
  simp [recorder, suffix_injective.eq_iff]

variable {α : Type} {v : Visitor α}

theorem tourExprs_eq_flatMap (v : Visitor α) (es : List Expr) :
    v.tourExprs es = es.flatMap v.tourExpr := by
  induction es with
  | nil => rfl
  | cons e es ih => simp [tourExprs, ih]

theorem tour_eq_cons (v : Visitor α) (n : Node) :
    v.tour n = v.visit n :: n.children.flatMap v.tour := by
  have hexprs (es : List Expr) : (es.map Node.expr).flatMap v.tour = es.flatMap v.tourExpr := by
    simp only [List.flatMap_map, tour]
  cases n with
  | expr e =>
    rw [Node.children, hexprs]
    cases e <;> simp [tour, tourExpr, Expr.children, tourExprs_eq_flatMap]
  | prototype p => rfl
  | function f => cases f <;> simp [tour, Node.children]

/-- A visitor that goes on to the children answers for the nodes of the walk one after another. -/
theorem tour_eq (v : Visitor α) (n : Node) : v.tour n = n.walk.map v.visit := by
  induction n using Node.induction_on_children with
  | h n ih =>
    rw [tour_eq_cons, Node.walk_eq_cons, List.map_cons, List.map_flatMap]
    exact congrArg _ (List.flatMap_congr ih)

end Visitor

namespace Parser

/-- A tree that is read mirrors the tokens it is read from, and a visitor that records each node
before its children records the walk, whatever classes it handles. -/
theorem trees_follow_tokens :
    (∀ (σ : Type) [TokenSource σ] (p q : Parser σ) (f : Function), p.next = (.ok (some f), q) →
      Reader.Consumes p.reader.fresh p.taken q.reader ∧
        Mirrors (Node.function f).walk p.taken) ∧
    (∀ handled : List NodeClass, ∃ v : Visitor (StateM (List Node) Unit), v.Records ∧
      ∀ c : NodeClass, (v.methods c.suffix).isSome = true ↔ c ∈ handled) ∧
    (∀ v : Visitor (StateM (List Node) Unit), v.Records →
      ∀ n log, (v.visit n).run log = ((), log ++ n.walk)) ∧
    ∀ (α : Type) (v : Visitor α) n, v.tour n = n.walk.map v.visit := by
  refine ⟨fun σ _ p q f hnext => ?_, fun handled => ?_, fun v hv => hv.run_visit,
    fun α v => v.tour_eq⟩
  · obtain ⟨_, _, _, hconsumes, _, d, _, hderives⟩ := next_some hnext
    exact ⟨hconsumes, mirrors hderives.tally_eq⟩
  · exact ⟨_, Visitor.records_recorder handled, Visitor.handles_recorder handled⟩

/-- The call of `1+f(x)` stands below the operation in front of it. -/
theorem trees_follow_tokens_call :
    let source : TokenList := ⟨[.number 1, .operator .add, .identifier "f", .leftParen,
      .identifier "x", .rightParen].map Token.bare, .bare .endOfInput, 0, rfl⟩
    let place : Option Span := some ⟨⟨"", 1, 1, 0⟩, ⟨"", 1, 1, 0⟩⟩
    let call := Expr.call "f" [.reference "x" place] place
    let sum := Expr.binary .add (.number 1 place) call place
    ∃ p q, start 2 source = .ok p ∧ p.next = (.ok (some (.anonymous sum place)), q) ∧
      Mirrors (Node.function (.anonymous sum place)).walk p.taken ∧
      ∃ v : Visitor (StateM (List Node) Unit), v.Records ∧
        (v.visit (.function (.anonymous sum place))).run [] =
          ((), [.function (.anonymous sum place), .expr sum, .expr (.number 1 place), .expr call,
            .expr (.reference "x" place)]) := by
  intro source place call sum
  obtain ⟨hmirrors, hvisitors, hrecords, _⟩ := trees_follow_tokens
  obtain ⟨v, hv, _⟩ := hvisitors [.call, .binaryOp]
  obtain ⟨p, hp, q, hnext⟩ : ∃ p, start 2 source = .ok p ∧
      ∃ q, p.next = (.ok (some (.anonymous sum place)), q) := ⟨_, rfl, _, rfl⟩
  exact ⟨p, q, hp, hnext, (hmirrors TokenList p q _ hnext).2, v, hv, hrecords v hv _ []⟩

end Parser
end ExprLang
