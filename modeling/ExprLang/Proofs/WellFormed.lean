import ExprLang.Proofs.Layout
import ExprLang.Proofs.Spans
import ExprLang.Proofs.Spelling
import Mathlib.Algebra.Group.Int.Defs

/-!
# Well-formed functions

What may be relied on in the functions that a parser delivers, whatever source it reads, and in its
errors. A function has the shape that its first token announces, its numbers fit the width of
numbers, its names are words that are no keywords and its operators are binary; and no path through
its tree goes through as many conditionals and arguments of calls as the limit of nesting. An error
has a code from the table of its family.
-/
namespace ExprLang

def Terminal.Proper (bits : Nat) : Terminal → Prop
  | .number value => 0 ≤ value ∧ value ≤ 2 ^ bits - 1
  | .identifier name => IsName name
  | _ => True

/-- What a node may carry, where numbers are `bits` wide. -/
def Node.Proper (bits : Nat) : Node → Prop
  | .expr (.number value _) => 0 ≤ value ∧ value ≤ 2 ^ bits - 1
  | .expr (.reference name _) => IsName name
  | .expr (.binary op _ _ _) => op.isBinary = true
  | .expr (.call callee _ _) => IsName callee
  | .expr (.conditional _ _ _ _) => True
  | .prototype p => IsName p.name ∧ ∀ param ∈ p.params, IsName param
  | .function _ => True

theorem Segment.proper {bits : Nat} {place : Location} {segment rest : List UInt8} {t : Token}
    (h : Segment bits place segment rest (.ok t)) : t.terminal.Proper bits := by
  cases h with
  | @number digits _ _ _ _ fits =>
    have hpos : 0 < 2 ^ bits := Nat.two_pow_pos bits
    have hcast : ((2 ^ bits : Nat) : Int) = 2 ^ bits := Int.natCast_pow 2 bits
    exact ⟨Int.natCast_nonneg _, by omega⟩
  | identifier begins inside _ free => exact ⟨isWord_text begins inside, free⟩
  | keyword => trivial
  | @punctuation byte _ terminal listed =>
    cases terminal with
    | number | identifier => simp [Byte.punctuation] at listed
    | _ => trivial

theorem Scanner.Spells.proper {s : Scanner} {ts : List Token} {failure : Option ScanError}
    (h : s.Spells ts failure) : ∀ t ∈ ts, t.terminal.Proper s.numberBits := by
  intro t ht
  rcases h.segment_of_mem t ht with hend | ⟨_, _, _, hsegment⟩
  · rw [hend]
    trivial
  · exact hsegment.proper

namespace Node

variable {bits : Nat} {n : Node}

def AllProper (bits : Nat) (n : Node) : Prop := ∀ m ∈ n.walk, m.Proper bits

theorem allProper_iff :
    n.AllProper bits ↔ n.Proper bits ∧ ∀ c ∈ n.children, c.AllProper bits := forall_mem_walk

end Node

/-- What holds of the operands of a chain, and of an operation where it holds of both sides, holds
of the tree. -/
theorem ChainTree.of_operands {P : Expr → Prop} {L : Operator → Prop} {first e : Expr}
    {rest : List (Operator × Expr)} (h : ChainTree first rest e)
    (hbinary : ∀ op a b span, L op → P a → P b → P (.binary op a b span)) (hfirst : P first)
    (hrest : ∀ link ∈ rest, L link.1 ∧ P link.2) : P e := by
  induction h with
  | operand => exact hfirst
  | split _ _ _ _ ihl ihr =>
    rw [List.forall_mem_append, List.forall_mem_cons] at hrest
    obtain ⟨hleft, ⟨hop, hx⟩, hright⟩ := hrest
    exact hbinary _ _ _ _ hop (ihl hfirst hleft) (ihr hx hright)

section Derivations

variable {bits : Nat} {ts : List Token}

theorem DerivesParameters.isName {params : List String} (h : DerivesParameters params ts)
    (hts : ∀ t ∈ ts, t.terminal.Proper bits) : ∀ param ∈ params, IsName param := by
  induction h with
  | nil => simp
  | comma _ _ ih => exact ih (List.forall_mem_cons.1 hts).2
  | name hn _ ih =>
    obtain ⟨hname, hbehind⟩ := List.forall_mem_cons.1 hts
    rw [hn] at hname
    exact List.forall_mem_cons.2 ⟨hname, ih hbehind⟩

theorem DerivesPrototype.allProper {p : Prototype} (h : DerivesPrototype p ts)
    (hts : ∀ t ∈ ts, t.terminal.Proper bits) : (Node.prototype p).AllProper bits := by
  cases h with
  | @intro n l r name params us hn _ _ parameters =>
    have hname := hts n (by simp)
    rw [hn] at hname
    have hparams := parameters.isName fun t ht => hts t (by simp [ht])
    exact Node.allProper_iff.2 ⟨⟨hname, hparams⟩, by simp [Node.children]⟩

def Phrase.AllProper (bits : Nat) : Phrase → Prop
  | .operand e | .conditional e | .expression e => (Node.expr e).AllProper bits
  | .chain first rest => (Node.expr first).AllProper bits ∧
      ∀ link ∈ rest, link.1.isBinary = true ∧ (Node.expr link.2).AllProper bits
  | .arguments es => ∀ e ∈ es, (Node.expr e).AllProper bits

/-- The values of a tree come from its tokens. -/
theorem Derives.allProper {phrase : Phrase} {d : Nat} (h : Derives phrase d ts)
    (hts : ∀ t ∈ ts, t.terminal.Proper bits) : phrase.AllProper bits := by
  induction h with
  | @number t value ht =>
    have hvalue := hts t (by simp)
    rw [ht] at hvalue
    exact Node.allProper_iff.2 ⟨hvalue, by simp [Node.children, Expr.children]⟩
  | @reference t name ht =>
    have hname := hts t (by simp)
    rw [ht] at hname
    exact Node.allProper_iff.2 ⟨hname, by simp [Node.children, Expr.children]⟩
  | @call t l r callee es d ts ht _ _ _ ih =>
    have hname := hts t (by simp)
    rw [ht] at hname
    have hargs : ∀ e ∈ es, (Node.expr e).AllProper bits := ih fun u hu => hts u (by simp [hu])
    exact Node.allProper_iff.2 ⟨hname, by simpa [Node.children, Expr.children] using hargs⟩
  | group _ _ _ ih => exact ih fun u hu => hts u (by simp [hu])
  | @conditional _ _ _ p a b _ _ _ _ _ _ _ _ _ _ _ _ ihp iha ihb =>
    have hp : (Node.expr p).AllProper bits := ihp fun u hu => hts u (by simp [hu])
    have ha : (Node.expr a).AllProper bits := iha fun u hu => hts u (by simp [hu])
    have hb : (Node.expr b).AllProper bits := ihb fun u hu => hts u (by simp [hu])
    exact Node.allProper_iff.2
      ⟨trivial, by simpa [Node.children, Expr.children] using ⟨hp, ha, hb⟩⟩
  | lastOperand _ ih | lastConditional _ ih => exact ⟨ih hts, by simp⟩
  | @link _ op e x rest _ _ _ _ _ binary _ _ ih ihs =>
    have he : (Node.expr e).AllProper bits := ih fun u hu => hts u (by simp [hu])
    obtain ⟨hx, hrest⟩ := ihs fun u hu => hts u (by simp [hu])
    exact ⟨he, List.forall_mem_cons.2 ⟨⟨binary, hx⟩, hrest⟩⟩
  | expression _ tree ih =>
    obtain ⟨hfirst, hrest⟩ := ih hts
    refine tree.of_operands (P := fun e => (Node.expr e).AllProper bits)
      (L := fun op => op.isBinary = true) ?_ hfirst hrest
    intro op a b span hop ha hb
    exact Node.allProper_iff.2 ⟨hop, by simpa [Node.children, Expr.children] using ⟨ha, hb⟩⟩
  | noArgument => simp [Phrase.AllProper]
  | lastArgument _ ih => simpa [Phrase.AllProper] using ih hts
  | @nextArgument _ e x es _ _ _ _ _ _ _ ih ihs =>
    have he : (Node.expr e).AllProper bits := ih fun u hu => hts u (by simp [hu])
    exact List.forall_mem_cons.2 ⟨he, ihs fun u hu => hts u (by simp [hu])⟩

theorem DerivesStatement.allProper {f : Function} {d : Nat} (h : DerivesStatement f d ts)
    (hts : ∀ t ∈ ts, t.terminal.Proper bits) : (Node.function f).AllProper bits := by
  refine Node.allProper_iff.2 ⟨trivial, ?_⟩
  cases h with
  | definition _ signature body =>
    have hp := signature.allProper fun u hu => hts u (by simp [hu])
    have he : (Node.expr _).AllProper bits := body.allProper fun u hu => hts u (by simp [hu])
    exact List.forall_mem_cons.2 ⟨hp, by simpa [Node.children] using he⟩
  | external _ signature =>
    have hp := signature.allProper fun u hu => hts u (by simp [hu])
    simpa [Node.children] using hp
  | anonymous body =>
    have he : (Node.expr _).AllProper bits := body.allProper hts
    simpa [Node.children] using he

end Derivations

namespace Node

variable {n : Node} {ns : List Node} {d d' : Nat}

/-- `n.Path ns`: the nodes `ns` lead from `n` down to a leaf. -/
inductive Path : Node → List Node → Prop
  | leaf {n : Node} (h : n.children = []) : Path n [n]
  | step {n c : Node} {ns : List Node} (hc : c ∈ n.children) (rest : Path c ns) : Path n (n :: ns)

/-- The nodes with expressions inside them that are one level deeper. -/
def opens : Node → Bool
  | .expr (.call _ _ _) | .expr (.conditional _ _ _ _) => true
  | _ => false

/-- The conditionals on a path and the calls with an argument on it. A call at the end of a path
has no argument there. -/
def nesting (ns : List Node) : Nat := ns.dropLast.countP opens

/-- No path down to a leaf goes through `d` of them. -/
def NestsBelow (d : Nat) (n : Node) : Prop := ∀ ns, n.Path ns → nesting ns < d

theorem NestsBelow.mono (h : n.NestsBelow d) (hle : d ≤ d') : n.NestsBelow d' :=
  fun ns hns => Nat.lt_of_lt_of_le (h ns hns) hle

theorem nesting_cons (n : Node) (hne : ns ≠ []) :
    nesting (n :: ns) = nesting ns + if n.opens then 1 else 0 := by
  rw [nesting, List.dropLast_cons_of_ne_nil hne, List.countP_cons, nesting]

theorem Path.ne_nil (h : n.Path ns) : ns ≠ [] := by
  cases h <;> simp

/-- A node is at most one level above its children. -/
theorem nestsBelow_of_children (h : ∀ c ∈ n.children, c.NestsBelow d) : n.NestsBelow (d + 1) := by
  intro ns hns
  cases hns with
  | leaf => exact Nat.succ_pos d
  | @step _ c ns hc rest =>
    have hlt := h c hc ns rest
    rw [nesting_cons n rest.ne_nil]
    split <;> omega

/-- It is level with them if it is neither a call nor a conditional. -/
theorem nestsBelow_of_not_opens (hopens : n.opens = false) (hd : 0 < d)
    (h : ∀ c ∈ n.children, c.NestsBelow d) : n.NestsBelow d := by
  intro ns hns
  cases hns with
  | leaf => exact hd
  | @step _ c ns hc rest =>
    rw [nesting_cons n rest.ne_nil, hopens]
    exact h c hc ns rest

end Node

section Derivations

variable {d : Nat} {ts : List Token}

/-- How deep what some tokens are read as may go, where `d` expressions are open at once. -/
def Phrase.NestsBelow (d : Nat) : Phrase → Prop
  | .operand e | .conditional e => (Node.expr e).NestsBelow (d + 1)
  | .chain first rest => (Node.expr first).NestsBelow (d + 1) ∧
      ∀ link ∈ rest, (Node.expr link.2).NestsBelow (d + 1)
  | .expression e => (Node.expr e).NestsBelow d
  | .arguments es => ∀ e ∈ es, (Node.expr e).NestsBelow d

/-- Every conditional and every argument on a path is an expression that is open. -/
theorem Derives.nestsBelow {phrase : Phrase} (h : Derives phrase d ts) : phrase.NestsBelow d := by
  induction h with
  | number | reference =>
    exact Node.nestsBelow_of_children (by simp [Node.children, Expr.children])
  | @call _ _ _ _ es d _ _ _ _ _ ih =>
    have hargs : ∀ e ∈ es, (Node.expr e).NestsBelow d := ih
    exact Node.nestsBelow_of_children (by simpa [Node.children, Expr.children] using hargs)
  | @group _ _ e d _ _ _ _ ih =>
    have hinner : (Node.expr e).NestsBelow d := ih
    exact hinner.mono (Nat.le_succ d)
  | @conditional _ _ _ p a b dp da db _ _ _ _ _ _ _ _ _ ihp iha ihb =>
    have hp : (Node.expr p).NestsBelow (max dp (max da db)) := Node.NestsBelow.mono ihp (by omega)
    have ha : (Node.expr a).NestsBelow (max dp (max da db)) := Node.NestsBelow.mono iha (by omega)
    have hb : (Node.expr b).NestsBelow (max dp (max da db)) := Node.NestsBelow.mono ihb (by omega)
    exact Node.nestsBelow_of_children (by simpa [Node.children, Expr.children] using ⟨hp, ha, hb⟩)
  | lastOperand _ ih | lastConditional _ ih => exact ⟨ih, by simp⟩
  | @link _ op e x rest d d' _ _ _ _ _ _ ih ihs =>
    have he : (Node.expr e).NestsBelow (max d d' + 1) := Node.NestsBelow.mono ih (by omega)
    obtain ⟨hx, hrest⟩ := ihs
    refine ⟨he, List.forall_mem_cons.2 ⟨hx.mono (by omega), fun link hlink => ?_⟩⟩
    exact (hrest link hlink).mono (by omega)
  | @expression _ _ _ d _ _ tree ih =>
    obtain ⟨hfirst, hrest⟩ := ih
    refine tree.of_operands (P := fun e => (Node.expr e).NestsBelow (d + 1)) (L := fun _ => True)
      ?_ hfirst fun link hlink => ⟨trivial, hrest link hlink⟩
    intro op a b span _ ha hb
    exact Node.nestsBelow_of_not_opens rfl (Nat.succ_pos d)
      (by simpa [Node.children, Expr.children] using ⟨ha, hb⟩)
  | noArgument => simp [Phrase.NestsBelow]
  | lastArgument _ ih => simpa [Phrase.NestsBelow] using ih
  | @nextArgument _ e x es d d' _ _ _ _ _ ih ihs =>
    have he : (Node.expr e).NestsBelow (max d d') := Node.NestsBelow.mono ih (by omega)
    refine List.forall_mem_cons.2 ⟨he, fun e' he' => ?_⟩
    exact Node.NestsBelow.mono (ihs e' he') (by omega)

theorem DerivesStatement.nestsBelow {f : Function} {limit : Nat} (h : DerivesStatement f d ts)
    (hd : d ≤ limit) (hpos : 0 < limit) : (Node.function f).NestsBelow limit := by
  have hp (p : Prototype) : (Node.prototype p).NestsBelow limit :=
    Node.nestsBelow_of_not_opens rfl hpos (by simp [Node.children])
  refine Node.nestsBelow_of_not_opens rfl hpos ?_
  cases h with
  | definition _ _ body =>
    have he : (Node.expr _).NestsBelow limit := Node.NestsBelow.mono body.nestsBelow hd
    exact List.forall_mem_cons.2 ⟨hp _, by simpa [Node.children] using he⟩
  | external => simpa [Node.children] using hp _
  | anonymous body =>
    have he : (Node.expr _).NestsBelow limit := Node.NestsBelow.mono body.nestsBelow hd
    simpa [Node.children] using he

end Derivations

def FunctionKind.ofFirst : Terminal → FunctionKind
  | .keyword .define => .definition
  | .keyword .external => .external
  | _ => .anonymous

/-- A function with just the parts that go with the first of its tokens. -/
structure Function.Shaped (first : Terminal) (f : Function) : Prop where
  kind_eq : f.kind = .ofFirst first
  prototype_iff : f.prototype?.isSome = true ↔ f.kind ≠ .anonymous
  body_iff : f.body?.isSome = true ↔ f.kind ≠ .external
  ofParts_eq : Function.ofParts f.prototype? f.body? f.span = .ok f

theorem DerivesStatement.shaped {f : Function} {d : Nat} {t : Token} {ts : List Token}
    (h : DerivesStatement f d (t :: ts)) : f.Shaped t.terminal := by
  have hkind : f.kind = .ofFirst t.terminal := by
    cases h with
    | definition hk | external hk => rw [hk]; rfl
    | anonymous body =>
      obtain ⟨s, hs⟩ := Reader.exists_beginOperand body
      unfold FunctionKind.ofFirst
      split <;> simp_all [Recognizer.beginOperand, Function.kind]
  refine ⟨hkind, ?_, ?_, ?_⟩ <;> cases f <;> simp [Function.prototype?, Function.body?,
    Function.kind, Function.ofParts, Function.span]

def CodeTable.Lists (table : CodeTable) (code : Option String) : Prop :=
  (table.title? code).isSome = true

theorem ScanError.listed (e : ScanError) : ScanFault.codes.Lists e.diagnostic.code := by
  obtain ⟨fault, _⟩ := e
  cases fault <;> rfl

theorem SyntaxError.listed (e : SyntaxError) : SyntaxFault.codes.Lists e.diagnostic.code := by
  obtain ⟨fault, _⟩ := e
  cases fault <;> rfl

structure Function.WellFormed (bits maxDepth : Nat) (first : Terminal) (f : Function) : Prop where
  shaped : f.Shaped first
  proper : (Node.function f).AllProper bits
  nests : (Node.function f).NestsBelow maxDepth

namespace Parser

open Reader

/-- A function is well-formed if the tokens it has been read from are. -/
theorem wellFormed_of_next {σ : Type} [TokenSource σ] {bits : Nat} {p q : Parser σ} {f : Function}
    (h : p.next = (.ok (some f), q)) (hpos : 0 < p.maxDepth)
    (htaken : ∀ t ∈ p.taken, t.terminal.Proper bits) :
    f.WellFormed bits p.maxDepth p.reader.lookahead.terminal := by
  obtain ⟨_, _, _, hconsumes, _, d, hd, hderives⟩ := next_some h
  refine ⟨?_, hderives.allProper htaken, hderives.nestsBelow hd hpos⟩
  obtain ⟨t, ts, hts⟩ := List.exists_cons_of_ne_nil hderives.ne_nil
  rw [hts] at hconsumes hderives
  have hfirst : p.reader.lookahead = t := hconsumes.lookahead_eq
  rw [hfirst]
  exact hderives.shaped

end Parser
end ExprLang
