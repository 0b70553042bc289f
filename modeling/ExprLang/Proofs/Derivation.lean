import ExprLang.Proofs.Grammar
import ExprLang.Syntax

/-!
# Derivations with trees

The same language by a grammar that gives each text one reading, together with the tree of that
reading. An expression is a chain of operands with an operator between neighbours, and its tree
has at the root the rightmost of the loosest operators, with the trees of the chains on either
side below it. Only the last operand of a chain may be a conditional without parentheses around
it, so an else branch extends as far as it can. A node's span runs from the first of its tokens
to the last, parentheses around it left out.
-/
namespace ExprLang

def Span.over : List Token → Option Span
  | [] => none
  | t :: ts => some ⟨t.location, (ts.getLastD t).location⟩

/-- `ChainTree first rest e`: the operand `first` with the operations `rest` has the tree `e`. -/
inductive ChainTree : Expr → List (Operator × Expr) → Expr → Prop
  | operand (e : Expr) : ChainTree e [] e
  | split {first x a b : Expr} {left right : List (Operator × Expr)} {op : Operator}
      (before : ChainTree first left a) (after : ChainTree x right b)
      (loosest : ∀ link ∈ left, op ≤ link.1) (rightmost : ∀ link ∈ right, op < link.1) :
      ChainTree first (left ++ (op, x) :: right) (.binary op a b (Span.join a.span b.span))

/-- What some tokens may be read as. The operands of a chain come apart from it, and
`conditional` is a conditional without parentheses around it. -/
inductive Phrase
  | operand (e : Expr)
  | conditional (e : Expr)
  | chain (first : Expr) (rest : List (Operator × Expr))
  | expression (e : Expr)
  | arguments (es : List Expr)

/-- `Derives phrase depth ts`: the tokens `ts` read as `phrase`, and at most `depth` expressions
are open at once, so many indeed at some place. -/
inductive Derives : Phrase → Nat → List Token → Prop
  | number {t : Token} {value : Int} (ht : t.terminal = .number value) :
      Derives (.operand (.number value (Span.over [t]))) 0 [t]
  | reference {t : Token} {name : String} (ht : t.terminal = .identifier name) :
      Derives (.operand (.reference name (Span.over [t]))) 0 [t]
  | call {t l r : Token} {callee : String} {es : List Expr} {d : Nat} {ts : List Token}
      (ht : t.terminal = .identifier callee) (hl : l.terminal = .leftParen)
      (hr : r.terminal = .rightParen) (args : Derives (.arguments es) d ts) :
      Derives (.operand (.call callee es (Span.over (t :: l :: (ts ++ [r]))))) d
        (t :: l :: (ts ++ [r]))
  | group {l r : Token} {e : Expr} {d : Nat} {ts : List Token} (hl : l.terminal = .leftParen)
      (hr : r.terminal = .rightParen) (inner : Derives (.expression e) d ts) :
      Derives (.operand e) d (l :: (ts ++ [r]))
  | conditional {i t e : Token} {p a b : Expr} {dp da db : Nat} {ps as bs : List Token}
      (hi : i.terminal = .keyword .ifWord) (ht : t.terminal = .keyword .thenWord)
      (he : e.terminal = .keyword .elseWord) (predicate : Derives (.expression p) dp ps)
      (thenBranch : Derives (.expression a) da as) (elseBranch : Derives (.expression b) db bs) :
      Derives (.conditional (.conditional p a b (Span.over (i :: (ps ++ t :: (as ++ e :: bs))))))
        (max dp (max da db)) (i :: (ps ++ t :: (as ++ e :: bs)))
  | lastOperand {e : Expr} {d : Nat} {ts : List Token} (last : Derives (.operand e) d ts) :
      Derives (.chain e []) d ts
  | lastConditional {e : Expr} {d : Nat} {ts : List Token}
      (last : Derives (.conditional e) d ts) : Derives (.chain e []) d ts
  | link {o : Token} {op : Operator} {e x : Expr} {rest : List (Operator × Expr)} {d d' : Nat}
      {ts us : List Token} (ho : o.terminal = .operator op) (binary : op.isBinary = true)
      (first : Derives (.operand e) d ts) (others : Derives (.chain x rest) d' us) :
      Derives (.chain e ((op, x) :: rest)) (max d d') (ts ++ o :: us)
  | expression {first e : Expr} {rest : List (Operator × Expr)} {d : Nat} {ts : List Token}
      (chain : Derives (.chain first rest) d ts) (tree : ChainTree first rest e) :
      Derives (.expression e) (d + 1) ts
  | noArgument : Derives (.arguments []) 0 []
  | lastArgument {e : Expr} {d : Nat} {ts : List Token} (last : Derives (.expression e) d ts) :
      Derives (.arguments [e]) d ts
  | nextArgument {c : Token} {e x : Expr} {es : List Expr} {d d' : Nat} {ts us : List Token}
      (hc : c.terminal = .comma) (next : Derives (.expression e) d ts)
      (others : Derives (.arguments (x :: es)) d' us) :
      Derives (.arguments (e :: x :: es)) (max d d') (ts ++ c :: us)

/-- Parameters are the names among names and commas in any order. -/
inductive DerivesParameters : List String → List Token → Prop
  | nil : DerivesParameters [] []
  | comma {c : Token} {params : List String} {ts : List Token} (hc : c.terminal = .comma)
      (rest : DerivesParameters params ts) : DerivesParameters params (c :: ts)
  | name {n : Token} {param : String} {params : List String} {ts : List Token}
      (hn : n.terminal = .identifier param) (rest : DerivesParameters params ts) :
      DerivesParameters (param :: params) (n :: ts)

inductive DerivesPrototype : Prototype → List Token → Prop
  | intro {n l r : Token} {name : String} {params : List String} {ts : List Token}
      (hn : n.terminal = .identifier name) (hl : l.terminal = .leftParen)
      (hr : r.terminal = .rightParen) (parameters : DerivesParameters params ts) :
      DerivesPrototype ⟨name, params, Span.over (n :: l :: (ts ++ [r]))⟩ (n :: l :: (ts ++ [r]))

inductive DerivesStatement : Function → Nat → List Token → Prop
  | definition {k : Token} {p : Prototype} {e : Expr} {d : Nat} {ts us : List Token}
      (hk : k.terminal = .keyword .define) (signature : DerivesPrototype p ts)
      (body : Derives (.expression e) d us) :
      DerivesStatement (.definition p e (Span.over (k :: (ts ++ us)))) d (k :: (ts ++ us))
  | external {k : Token} {p : Prototype} {ts : List Token}
      (hk : k.terminal = .keyword .external) (signature : DerivesPrototype p ts) :
      DerivesStatement (.external p (Span.over (k :: ts))) 0 (k :: ts)
  | anonymous {e : Expr} {d : Nat} {ts : List Token} (body : Derives (.expression e) d ts) :
      DerivesStatement (.anonymous e (Span.over ts)) d ts

theorem ChainTree.cases_split {first e : Expr} {rest : List (Operator × Expr)}
    (h : ChainTree first rest e) (hne : rest ≠ []) :
    ∃ left op x right a b, rest = left ++ (op, x) :: right ∧ ChainTree first left a ∧
      ChainTree x right b ∧ (∀ link ∈ left, op ≤ link.1) ∧ (∀ link ∈ right, op < link.1) ∧
      e = .binary op a b (Span.join a.span b.span) := by
  cases h with
  | operand => contradiction
  | split before after loosest rightmost =>
    exact ⟨_, _, _, _, _, _, rfl, before, after, loosest, rightmost, rfl⟩

/-- The rightmost of the loosest operators stands at one place only. -/
theorem split_unique {left right left' right' : List (Operator × Expr)} {op op' : Operator}
    {x x' : Expr} (h : left ++ (op, x) :: right = left' ++ (op', x') :: right')
    (hright : ∀ link ∈ right, op < link.1) (hleft' : ∀ link ∈ left', op' ≤ link.1)
    (hleft : ∀ link ∈ left, op ≤ link.1) (hright' : ∀ link ∈ right', op' < link.1) :
    left = left' ∧ (op, x) = (op', x') ∧ right = right' := by
  -- of two places, the later operator would bind more tightly than the earlier one and also not
  rcases List.append_eq_append_iff.1 h with ⟨mid, hmid, hrest⟩ | ⟨mid, hmid, hrest⟩
  · cases mid with
    | nil => simp_all
    | cons link mid =>
      simp only [List.cons_append, List.cons.injEq] at hrest
      have hlt : op < op' := hright (op', x') (by simp [hrest.2])
      have hle : op' ≤ op := hleft' (op, x) (by simp [hmid, ← hrest.1])
      rw [Operator.lt_iff] at hlt
      rw [Operator.le_iff] at hle
      omega
  · cases mid with
    | nil => simp_all
    | cons link mid =>
      simp only [List.cons_append, List.cons.injEq] at hrest
      have hlt : op' < op := hright' (op, x) (by simp [hrest.2])
      have hle : op ≤ op' := hleft (op', x') (by simp [hmid, ← hrest.1])
      rw [Operator.lt_iff] at hlt
      rw [Operator.le_iff] at hle
      omega

theorem ChainTree.unique {first a b : Expr} {rest : List (Operator × Expr)}
    (ha : ChainTree first rest a) (hb : ChainTree first rest b) : a = b := by
  induction ha generalizing b with
  | operand e =>
    generalize hrest : [] = rest at hb
    cases hb with
    | operand => rfl
    | split => simp at hrest
  | @split first x l r left right op _ _ loosest rightmost ihl ihr =>
    obtain ⟨left', op', x', right', l', r', hrest, hl, hr, loosest', rightmost', rfl⟩ :=
      hb.cases_split (by simp)
    obtain ⟨rfl, hlink, rfl⟩ := split_unique hrest rightmost loosest' loosest rightmost'
    simp only [Prod.mk.injEq] at hlink
    obtain ⟨rfl, rfl⟩ := hlink
    rw [ihl hl, ihr hr]

/-- Every level of nesting costs a token, and every phrase but an empty list of arguments has
one. -/
theorem Derives.depth_le {phrase : Phrase} {d : Nat} {ts : List Token}
    (h : Derives phrase d ts) :
    match phrase with
    | .operand _ | .conditional _ | .chain _ _ => d < ts.length
    | .expression _ => d ≤ ts.length ∧ ts ≠ []
    | .arguments _ => d ≤ ts.length := by
  induction h with
  | expression _ _ ih => exact ⟨ih, List.ne_nil_of_length_pos (by omega)⟩
  | lastArgument _ ih => exact ih.1
  | number | reference | noArgument => simp
  | lastOperand _ ih | lastConditional _ ih => exact ih
  | _ => simp only [List.length_cons, List.length_append, List.length_nil] at *; omega

theorem DerivesParameters.generates {params : List String} {ts : List Token}
    (h : DerivesParameters params ts) : Grammar.Generates .parameters (terminals ts) := by
  induction h with
  | nil => exact .noParameter
  | comma hc _ ih => simpa [hc] using ih.skipComma
  | name hn _ ih => simpa [hn] using ih.parameter _

theorem DerivesPrototype.generates {p : Prototype} {ts : List Token} (h : DerivesPrototype p ts) :
    Grammar.Generates .prototype (terminals ts) := by
  cases h with
  | intro hn hl hr parameters =>
    simpa [hn, hl, hr] using Grammar.Generates.prototype _ parameters.generates

theorem Derives.generates {phrase : Phrase} {d : Nat} {ts : List Token}
    (h : Derives phrase d ts) :
    match phrase with
    | .operand _ | .conditional _ => Grammar.Generates .primary (terminals ts)
    | .chain _ _ | .expression _ => Grammar.Generates .expression (terminals ts)
    | .arguments es => Grammar.Generates .arguments (terminals ts) ∧
        (es ≠ [] → Grammar.Generates .moreArguments (.comma :: terminals ts)) := by
  induction h with
  | @number t value ht => simpa [ht] using Grammar.Generates.number value
  | @reference t name ht => simpa [ht] using Grammar.Generates.reference name
  | @call t l r callee es d ts ht hl hr _ ih =>
    simpa [ht, hl, hr] using Grammar.Generates.call callee ih.1
  | group hl hr _ ih => simpa [hl, hr] using Grammar.Generates.group ih
  | conditional hi ht he _ _ _ ihp iha ihb =>
    simpa [hi, ht, he] using Grammar.Generates.conditional ihp iha ihb
  | lastOperand _ ih | lastConditional _ ih =>
    simpa using Grammar.Generates.expression ih .noOperation
  | link ho binary _ _ ih ihs =>
    generalize hus : terminals _ = us at ihs
    cases ihs with
    | expression first rest =>
      simpa [ho, hus] using Grammar.Generates.expression ih (.operation binary first rest)
  | expression _ _ ih => exact ih
  | noArgument => exact ⟨.noArgument, fun h => absurd rfl h⟩
  | lastArgument _ ih =>
    refine ⟨?_, fun _ => ?_⟩
    · simpa using Grammar.Generates.arguments ih .lastArgument
    · simpa using Grammar.Generates.nextArgument ih .lastArgument
  | nextArgument hc _ _ ih ihs =>
    have hothers := ihs.2 (by simp)
    refine ⟨?_, fun _ => ?_⟩
    · simpa [hc] using Grammar.Generates.arguments ih hothers
    · simpa [hc] using Grammar.Generates.nextArgument ih hothers

theorem DerivesStatement.generates {f : Function} {d : Nat} {ts : List Token}
    (h : DerivesStatement f d ts) : Grammar.Generates .statement (terminals ts) := by
  cases h with
  | definition hk signature body =>
    simpa [hk] using Grammar.Generates.definition signature.generates body.generates
  | external hk signature => simpa [hk] using Grammar.Generates.external signature.generates
  | anonymous body => exact .bare body.generates

/-- Behind a name that ends an operand there is no parenthesis, which would open a call. -/
def ClosedBefore (next : Token) (ts : List Token) : Prop :=
  endsInName false (terminals ts) = true → next.terminal ≠ .leftParen

def EndsBefore (next : Token) (ts : List Token) : Prop :=
  next.operator? = none ∧ ClosedBefore next ts

/-- Tokens that do not end in a name are closed before any other. -/
theorem closedBefore_snoc {next t : Token} (ts : List Token) (h : t.terminal.isName = false) :
    ClosedBefore next (ts ++ [t]) := by
  simp [ClosedBefore, h]

theorem closedBefore_append_iff {next : Token} {ts us : List Token} (hne : us ≠ []) :
    ClosedBefore next (ts ++ us) ↔ ClosedBefore next us := by
  cases us with
  | nil => contradiction
  | cons u us => simp [ClosedBefore]

theorem ClosedBefore.append {next : Token} {us : List Token} (h : ClosedBefore next us)
    (ts : List Token) (hne : us ≠ []) : ClosedBefore next (ts ++ us) :=
  (closedBefore_append_iff hne).2 h

theorem EndsBefore.of_append {next : Token} (ts : List Token) {us : List Token}
    (h : EndsBefore next (ts ++ us)) (hne : us ≠ []) : EndsBefore next us :=
  ⟨h.1, (closedBefore_append_iff hne).1 h.2⟩

/-- A keyword, a comma or a closing parenthesis ends every expression. -/
theorem endsBefore_of_ne {next : Token} (ts : List Token) (hop : ∀ op, next.terminal ≠ .operator op)
    (hparen : next.terminal ≠ .leftParen) : EndsBefore next ts := by
  refine ⟨?_, fun _ => hparen⟩
  cases h : next.terminal with
  | operator op => exact absurd h (hop op)
  | _ => simp [Token.operator?, h]

end ExprLang
