import ExprLang.Proofs.Programs
import ExprLang.Proofs.Answers

/-!
# Reserved operators

What becomes of an operator that is reserved. Where it stands behind an operand, the loops that
tighten a right operand give it back to the loop around them untouched, and the outermost loop
raises an error at it, which no construct around that expression catches. So an expression never
ends in front of an operator, and no program has a reserved one.
-/
namespace ExprLang

def SyntaxError.reserved (t : Token) : SyntaxError :=
  ⟨.unexpectedToken (.phrase "binary operator"), t⟩

/-- A reserved operator binds less tightly than every binary one. -/
theorem Operator.lt_of_reserved {ahead op : Operator} (reserved : ahead.isBinary = false)
    (binary : op.isBinary = true) : ahead < op := by
  cases ahead <;> cases op <;> first | contradiction | decide

namespace Reader

theorem fail_reserved {σ α : Type} {r : Reader σ} {op : Operator}
    (hop : r.lookahead.operator? = some op) :
    (fail (.unexpectedToken (.phrase "binary operator")) : Reading σ α) r =
      .error (.grammar (.reserved r.lookahead)) r := by
  simp [fail, SyntaxError.ofFault, SyntaxError.reserved, isEnd_of_operator? hop]

variable {σ : Type} [TokenSource σ] {r r' r'' : Reader σ} {operand inner : Reading σ Expr}
  {limit levels rounds least : Nat} {lhs rhs : Expr} {op : Operator} {e : Failure}

mutual

/-- `TailReaches operand rounds lhs least r r'`: the loop that folds operators of precedence at
least `least` onto `lhs`, begun at `r`, comes to `r'` behind an operand, in a round of its own or
of a loop inside it. -/
inductive TailReaches (operand : Reading σ Expr) :
    Nat → Expr → Nat → Reader σ → Reader σ → Prop
  | here {rounds : Nat} {lhs : Expr} {least : Nat} {r : Reader σ} :
      TailReaches operand rounds lhs least r r
  | within {rounds : Nat} {lhs x : Expr} {least : Nat} {op : Operator} {o : Token}
      {r r₁ r₂ r' : Reader σ} (hop : r.lookahead.operator? = some op)
      (hleast : least ≤ op.precedence) (binary : op.isBinary = true)
      (first : advance r = .ok o r₁) (second : operand r₁ = .ok x r₂)
      (third : TightenReaches operand rounds op x r₂ r') :
      TailReaches operand (rounds + 1) lhs least r r'
  | behind {rounds : Nat} {lhs x rhs : Expr} {least : Nat} {op : Operator} {o : Token}
      {r r₁ r₂ r₃ r' : Reader σ} (hop : r.lookahead.operator? = some op)
      (hleast : least ≤ op.precedence) (binary : op.isBinary = true)
      (first : advance r = .ok o r₁) (second : operand r₁ = .ok x r₂)
      (third : tighten operand rounds op x r₂ = .ok rhs r₃)
      (others : TailReaches operand rounds (.binary op lhs rhs (Span.join lhs.span rhs.span))
        least r₃ r') :
      TailReaches operand (rounds + 1) lhs least r r'

inductive TightenReaches (operand : Reading σ Expr) :
    Nat → Operator → Expr → Reader σ → Reader σ → Prop
  | here {rounds : Nat} {op : Operator} {rhs : Expr} {r : Reader σ} :
      TightenReaches operand rounds op rhs r r
  | within {rounds : Nat} {op ahead : Operator} {rhs : Expr} {r r' : Reader σ}
      (hop : r.lookahead.operator? = some ahead) (binary : ahead.isBinary = true)
      (hlt : op < ahead) (first : TailReaches operand rounds rhs (op.precedence + 1) r r') :
      TightenReaches operand (rounds + 1) op rhs r r'
  | behind {rounds : Nat} {op ahead : Operator} {rhs x : Expr} {r r₁ r' : Reader σ}
      (hop : r.lookahead.operator? = some ahead) (binary : ahead.isBinary = true)
      (hlt : op < ahead) (first : operatorTail operand rounds rhs (op.precedence + 1) r = .ok x r₁)
      (others : TightenReaches operand rounds op x r₁ r') :
      TightenReaches operand (rounds + 1) op rhs r r'

end

/-- What a loop of the bound `least` makes of the reserved operator `op` ahead of `r`: it leaves
the operator to the loop around it, or it fails there. -/
def Settles (least : Nat) (op : Operator) (r : Reader σ)
    (result : EStateM.Result Failure (Reader σ) Expr) : Prop :=
  if op.precedence < least then ∃ x, result = .ok x r
  else result = .error (.grammar (.reserved r.lookahead)) r

theorem settles_operatorTail (hop : r.lookahead.operator? = some op)
    (reserved : op.isBinary = false) (hrounds : 0 < rounds) :
    Settles least op r (operatorTail operand rounds lhs least r) := by
  obtain ⟨rounds, rfl⟩ := Nat.exists_eq_add_one_of_ne_zero (Nat.ne_of_gt hrounds)
  unfold Settles
  split
  · next hlow => exact ⟨lhs, operatorTail_stop (by simpa [hop] using hlow)⟩
  · next hleast =>
    rw [operatorTail_reserved hop (Nat.le_of_not_lt hleast) reserved, fail_reserved hop]

theorem tighten_of_reserved {ahead : Operator} (hop : r.lookahead.operator? = some ahead)
    (reserved : ahead.isBinary = false) (hrounds : 0 < rounds) :
    tighten operand rounds op rhs r = .ok rhs r := by
  obtain ⟨rounds, rfl⟩ := Nat.exists_eq_add_one_of_ne_zero (Nat.ne_of_gt hrounds)
  exact tighten_stop (by simp [hop, reserved])

theorem remaining_pos (hop : r.lookahead.operator? = some op) : 0 < r.remaining := by
  simp [remaining, isEnd_of_operator? hop]

/-- A reserved operator that a loop comes to, at whatever depth, is settled by that loop: every
loop inside it stops there without a word. -/
theorem settles_of_reaches (h : Shrinks operand) (reserved : op.isBinary = false) (rounds : Nat) :
    (∀ lhs least (r r' : Reader σ), r.remaining ≤ rounds →
      TailReaches operand rounds lhs least r r' → r'.lookahead.operator? = some op →
      Settles least op r' (operatorTail operand rounds lhs least r)) ∧
    ∀ before rhs (r r' : Reader σ), r.remaining < rounds → before.isBinary = true →
      TightenReaches operand rounds before rhs r r' → r'.lookahead.operator? = some op →
      ∃ x, tighten operand rounds before rhs r = .ok x r' := by
  induction rounds with
  | zero =>
    refine ⟨fun lhs least r r' hr hreaches hop => ?_, fun _ _ r _ hr => by omega⟩
    cases hreaches
    have hpos := remaining_pos hop
    omega
  | succ rounds ih =>
    constructor
    · intro lhs least r r' hr hreaches hop
      cases hreaches with
      | here => exact settles_operatorTail hop reserved (Nat.succ_pos rounds)
      | @within _ _ x _ op' o _ r₁ r₂ _ hop' hleast binary first second third =>
        have hlt₁ := remaining_advance first (isEnd_of_operator? hop')
        have hlt₂ := h _ _ _ second
        obtain ⟨b, htighten⟩ := ih.2 op' x r₂ r' (by omega) binary third hop
        rw [operatorTail_fold hop' hleast binary]
        simp only [bind_apply, first, second, htighten]
        exact settles_operatorTail hop reserved (by omega)
      | @behind _ _ x b _ op' o _ r₁ r₂ r₃ _ hop' hleast binary first second third others =>
        have hlt₁ := remaining_advance first (isEnd_of_operator? hop')
        have hlt₂ := h _ _ _ second
        have hle₃ := (keeps_operatorTail_tighten h.keeps rounds).2 _ _ _ _ _ third
        rw [operatorTail_fold hop' hleast binary]
        simp only [bind_apply, first, second, third]
        exact ih.1 _ _ _ _ (by omega) others hop
    · intro before rhs r r' hr binary hreaches hop
      cases hreaches with
      | here => exact ⟨rhs, tighten_of_reserved hop reserved (Nat.succ_pos rounds)⟩
      | @within _ _ ahead _ _ _ hop' binary' hlt first =>
        have hpos := remaining_pos hop'
        have hsettles := ih.1 rhs _ r r' (by omega) first hop
        have hlow : op.precedence < before.precedence := Operator.lt_of_reserved reserved binary
        rw [Settles, if_pos (by omega)] at hsettles
        obtain ⟨x, htail⟩ := hsettles
        refine ⟨x, ?_⟩
        rw [tighten_go hop' binary' hlt]
        simp only [bind_apply, htail]
        exact tighten_of_reserved hop reserved (by omega)
      | @behind _ _ ahead _ x _ r₁ _ hop' binary' hlt first others =>
        have hpos := remaining_pos hop'
        have hlt₁ := remaining_operatorTail h.keeps (by omega) hop' hlt binary' first
        rw [tighten_go hop' binary' hlt]
        simp only [bind_apply, first]
        exact ih.2 before x r₁ r' (by omega) binary others hop

/-- What lies between is a stretch of the chain of operands. -/
theorem links_of_reaches (h : Shrinks operand) (rounds : Nat) :
    (∀ lhs least (r r' : Reader σ), r.remaining ≤ rounds →
      TailReaches operand rounds lhs least r r' → ∃ rest, Links operand r rest r') ∧
    ∀ before rhs (r r' : Reader σ), r.remaining < rounds →
      TightenReaches operand rounds before rhs r r' → ∃ rest, Links operand r rest r' := by
  induction rounds with
  | zero =>
    refine ⟨fun lhs least r r' hr hreaches => ?_, fun _ _ r _ hr => by omega⟩
    cases hreaches
    exact ⟨[], .nil r⟩
  | succ rounds ih =>
    constructor
    · intro lhs least r r' hr hreaches
      cases hreaches with
      | here => exact ⟨[], .nil r⟩
      | @within _ _ x _ op' o _ r₁ r₂ _ hop _ binary first second third =>
        have hlt₁ := remaining_advance first (isEnd_of_operator? hop)
        have hlt₂ := h _ _ _ second
        obtain ⟨rest, hrest⟩ := ih.2 _ _ _ _ (by omega) third
        exact ⟨_, .cons hop binary first second hrest⟩
      | @behind _ _ x b _ op' o _ r₁ r₂ r₃ _ hop _ binary first second third others =>
        have hlt₁ := remaining_advance first (isEnd_of_operator? hop)
        have hlt₂ := h _ _ _ second
        have hle₃ := (keeps_operatorTail_tighten h.keeps rounds).2 _ _ _ _ _ third
        obtain ⟨right, hright, _⟩ := (operatorTail_tighten_extend h rounds).2 x [] x op' b r₂ r₃
          (by omega) (.operand x) (by simp [LoosestAhead]) (by simp) third
        obtain ⟨rest, hrest⟩ := ih.1 _ _ _ _ (by omega) others
        exact ⟨_, .cons hop binary first second (hright.trans hrest)⟩
    · intro before rhs r r' hr hreaches
      cases hreaches with
      | here => exact ⟨[], .nil r⟩
      | within _ _ _ first => exact ih.1 _ _ _ _ (by omega) first
      | @behind _ _ ahead _ x _ r₁ _ hop binary hlt first others =>
        have hpos := remaining_pos hop
        have hlt₁ := remaining_operatorTail h.keeps (by omega) hop hlt binary first
        obtain ⟨mid, hmid, _⟩ := (operatorTail_tighten_extend h rounds).1 rhs [] rhs _ x r r₁
          (by omega) (.operand rhs) (by simp [LoosestAhead]) first
        obtain ⟨rest, hrest⟩ := ih.2 _ _ _ _ (by omega) others
        exact ⟨_, hmid.trans hrest⟩

inductive OpensArgument (inner : Reading σ Expr) : Reader σ → Reader σ → Prop
  | first (r : Reader σ) : OpensArgument inner r r
  | next {r r₁ r₂ r' : Reader σ} {x : Expr} {c : Token} (before : inner r = .ok x r₁)
      (hcomma : r₁.lookahead.terminal = .comma) (comma : advance r₁ = .ok c r₂)
      (others : OpensArgument inner r₂ r') : OpensArgument inner r r'

/-- Where the expressions inside an operand begin: `r` is in front of the operand, and `r'` in front
of an expression in parentheses, an argument or a part of a conditional. -/
inductive Opens (inner : Reading σ Expr) : Reader σ → Reader σ → Prop
  | group {r r' : Reader σ} {t : Token} (hparen : r.lookahead.terminal = .leftParen)
      (first : advance r = .ok t r') : Opens inner r r'
  | argument {r r₁ r₂ r' : Reader σ} {name : String} {n l : Token}
      (hname : r.lookahead.terminal = .identifier name) (first : advance r = .ok n r₁)
      (hparen : r₁.lookahead.terminal = .leftParen) (second : advance r₁ = .ok l r₂)
      (nonempty : r₂.lookahead.terminal ≠ .rightParen) (others : OpensArgument inner r₂ r') :
      Opens inner r r'
  | predicate {r r' : Reader σ} {t : Token} (hif : r.lookahead.terminal = .keyword .ifWord)
      (first : advance r = .ok t r') : Opens inner r r'
  | thenBranch {r r₁ r₂ r' : Reader σ} {t : Token} {p : Expr}
      (hif : r.lookahead.terminal = .keyword .ifWord) (first : advance r = .ok t r₁)
      (second : inner r₁ = .ok p r₂) (third : branchWord .thenWord r₂ = .ok () r') :
      Opens inner r r'
  | elseBranch {r r₁ r₂ r₃ r₄ r' : Reader σ} {t : Token} {p a : Expr}
      (hif : r.lookahead.terminal = .keyword .ifWord) (first : advance r = .ok t r₁)
      (second : inner r₁ = .ok p r₂) (third : branchWord .thenWord r₂ = .ok () r₃)
      (fourth : inner r₃ = .ok a r₄) (fifth : branchWord .elseWord r₄ = .ok () r') :
      Opens inner r r'

/-- A call fails where an argument does. -/
theorem OpensArgument.arguments_eq_error {callee : String} {rounds : Nat} (h : Shrinks inner)
    (hopens : OpensArgument inner r r') (hr : r.remaining < rounds)
    (herror : inner r' = .error e r'') : arguments inner callee rounds r = .error e r'' := by
  induction hopens generalizing rounds with
  | first r =>
    obtain ⟨rounds, rfl⟩ := Nat.exists_eq_add_one_of_ne_zero (Nat.ne_of_gt (Nat.zero_lt_of_lt hr))
    simp only [arguments, bind_apply, herror]
  | @next r r₁ r₂ r' x c before hcomma comma _ ih =>
    obtain ⟨rounds, rfl⟩ := Nat.exists_eq_add_one_of_ne_zero (Nat.ne_of_gt (Nat.zero_lt_of_lt hr))
    have hlt₁ := h _ _ _ before
    have hlt₂ := remaining_advance comma (isEnd_eq_false (by simp [hcomma]))
    have hfewer : r₂.remaining < rounds := by omega
    have hrest := ih hfewer herror
    simp only [arguments, bind_apply, before, peek_apply, hcomma, comma, hrest]

theorem Opens.primary_eq_error (h : Shrinks inner) (hopens : Opens inner r r')
    (herror : inner r' = .error e r'') : primary inner r = .error e r'' := by
  cases hopens with
  | group hparen first =>
    simp only [primary, bind_apply, peek_apply, hparen, grouping, first, herror]
  | @argument r₁ r₂ _ name n l hname first hparen second nonempty others =>
    have hargs : arguments inner name (r₂.remaining + 1) r₂ = .error e r'' :=
      others.arguments_eq_error h (Nat.lt_succ_self _) herror
    simp only [primary, bind_apply, peek_apply, hname, nameOrCall, first, hparen, second,
      bounded_eq, hargs]
  | predicate hif first =>
    simp only [primary, bind_apply, peek_apply, hif, conditional, first, herror]
  | thenBranch hif first second third =>
    simp only [primary, bind_apply, peek_apply, hif, conditional, first, second, third, herror]
  | elseBranch hif first second third fourth fifth =>
    simp only [primary, bind_apply, peek_apply, hif, conditional, first, second, third, fourth,
      fifth, herror]

inductive BeginsOperand (operand : Reading σ Expr) : Reader σ → Reader σ → Prop
  | first (r : Reader σ) : BeginsOperand operand r r
  | later {r r₁ r₂ r' : Reader σ} {x : Expr} {op : Operator} {o : Token}
      (before : operand r = .ok x r₁)
      (tail : TailReaches operand (r₁.remaining + 1) x 0 r₁ r₂)
      (hop : r₂.lookahead.operator? = some op) (binary : op.isBinary = true)
      (next : advance r₂ = .ok o r') : BeginsOperand operand r r'

/-- `ExpressionReaches limit levels r r'`: reading an expression at `r` comes to `r'` behind an
operand, which is one of its own or of an expression inside it. -/
inductive ExpressionReaches (limit : Nat) : Nat → Reader σ → Reader σ → Prop
  | operand {levels : Nat} {r r₁ r' : Reader σ} {x : Expr}
      (first : primary (expression limit levels) r = .ok x r₁)
      (tail : TailReaches (primary (expression limit levels)) (r₁.remaining + 1) x 0 r₁ r') :
      ExpressionReaches limit (levels + 1) r r'
  | inside {levels : Nat} {r r₁ r₂ r' : Reader σ}
      (begins : BeginsOperand (primary (expression limit levels)) r r₁)
      (opens : Opens (expression limit levels) r₁ r₂)
      (inner : ExpressionReaches limit levels r₂ r') : ExpressionReaches limit (levels + 1) r r'

theorem shrinks_operand (limit levels : Nat) :
    Shrinks (primary (expression limit levels) : Reading σ Expr) :=
  shrinks_primary (shrinks_expression limit levels).keeps

theorem BeginsOperand.expression_eq_error
    (h : BeginsOperand (primary (expression limit levels)) r r')
    (herror : primary (expression limit levels) r' = .error e r'') :
    expression limit (levels + 1) r = .error e r'' := by
  simp only [expression, bind_eq_error, bounded_eq]
  cases h with
  | first => exact .inl herror
  | @later r₁ r₂ _ x op o before tail hop binary next =>
    refine .inr ⟨x, r₁, before, ?_⟩
    have hshrinks := shrinks_operand (σ := σ) limit levels
    obtain ⟨rest, hlinks⟩ := (links_of_reaches hshrinks _).1 _ _ _ _ (Nat.le_succ _) tail
    have hbreaks : Breaks (primary (expression limit levels)) r₂ e r'' :=
      .next hop binary (bind_eq_error.2 (.inr ⟨o, _, next, herror⟩))
    exact operatorTail_of_breaks hshrinks (Nat.le_succ _) (hbreaks.of_links hlinks)

/-- A reserved operator behind an operand is an error at that operator, however deep it stands. -/
theorem expression_of_reaches (h : ExpressionReaches limit levels r r')
    (hop : r'.lookahead.operator? = some op) (reserved : op.isBinary = false) :
    expression limit levels r = .error (.grammar (.reserved r'.lookahead)) r' := by
  induction h with
  | @operand levels r r₁ r' x first tail =>
    have hshrinks := shrinks_operand (σ := σ) limit levels
    have hsettles :=
      (settles_of_reaches hshrinks reserved _).1 _ _ _ _ (Nat.le_succ _) tail hop
    rw [Settles, if_neg (Nat.not_lt_zero _)] at hsettles
    simp only [expression, bind_apply, first, bounded_eq, hsettles]
  | inside begins opens _ ih =>
    exact begins.expression_eq_error (opens.primary_eq_error (shrinks_expression _ _) (ih hop))

inductive StatementReaches (maxDepth : Nat) : Reader σ → Reader σ → Prop
  | body {r r₁ r₂ r' : Reader σ} {k : Token} {p : Prototype}
      (hdefine : r.lookahead.terminal = .keyword .define) (first : advance r = .ok k r₁)
      (second : prototype r₁ = .ok p r₂) (third : ExpressionReaches maxDepth maxDepth r₂ r') :
      StatementReaches maxDepth r r'
  | topLevel {r r' : Reader σ} (hend : r.lookahead.terminal ≠ .endOfInput)
      (hdefine : r.lookahead.terminal ≠ .keyword .define)
      (hexternal : r.lookahead.terminal ≠ .keyword .external)
      (only : ExpressionReaches maxDepth maxDepth r r') : StatementReaches maxDepth r r'

theorem statement_of_reaches {maxDepth : Nat} (h : StatementReaches maxDepth r r')
    (hop : r'.lookahead.operator? = some op) (reserved : op.isBinary = false) :
    statement maxDepth r = .error (.grammar (.reserved r'.lookahead)) r' := by
  cases h with
  | @body r₁ r₂ _ k p hdefine first second third =>
    have hbody := expression_of_reaches third hop reserved
    have hdefinition : definition maxDepth r = .error (.grammar (.reserved r'.lookahead)) r' := by
      simp only [definition, bind_apply, first, second, hbody]
    simp only [statement, peek_bind, hdefine]
    exact map_some_eq_error.2 hdefinition
  | topLevel hend hdefine hexternal only =>
    have hbody := expression_of_reaches only hop reserved
    have htop :
        topLevelExpression maxDepth r = .error (.grammar (.reserved r'.lookahead)) r' := by
      simp only [topLevelExpression, bind_apply, peek_apply, hbody]
    simp only [statement, peek_bind]
    exact map_some_eq_error.2 htop

/-- An expression that is read ends in front of a token that is no operator. -/
theorem operator?_of_expression {x : Expr} (h : expression limit levels r = .ok x r') :
    r'.lookahead.operator? = none := by
  obtain ⟨_, _, hends, _⟩ := readsExpressions_expression limit levels r x r' h
  exact hends.1

end Reader

namespace Recognizer

theorem isBinary_of_step {more : Bool} {s s' : State} {op : Operator}
    (h : step more s (.operator op) = some s') : op.isBinary = true := by
  cases s with
  | complete named frames =>
    by_contra reserved
    simp [step, reserved] at h
  | _ => simp [step, beginStatement, beginOperand] at h

theorem isBinary_of_run {more : Bool} {s s' : State} {ts : List Terminal} {op : Operator}
    (h : run more s ts = some s') (hop : .operator op ∈ ts) : op.isBinary = true := by
  induction ts generalizing s with
  | nil => simp at hop
  | cons t ts ih =>
    obtain ⟨s₁, hstep, hrun⟩ := Option.bind_eq_some_iff.1 (run_cons.symm.trans h)
    rcases List.mem_cons.1 hop with rfl | hop
    · exact isBinary_of_step hstep
    · exact ih hrun hop

end Recognizer

theorem DerivesStatement.isBinary {f : Function} {d : Nat} {ts : List Token}
    (h : DerivesStatement f d ts) {t : Token} (ht : t ∈ ts) {op : Operator}
    (hop : t.operator? = some op) : op.isBinary = true := by
  have hend : EndsBefore (Token.bare .endOfInput) ts := endsBefore_of_isEnd rfl ts
  obtain ⟨_, hrun, _⟩ := h.run_eq true fun _ => hend
  refine Recognizer.isBinary_of_run hrun ?_
  rw [← Token.operator?_eq_some.1 hop]
  exact List.mem_map_of_mem ht

theorem ReadsProgram.isBinary {fs : List Function} {ks : List Nat} {ts : List Token}
    (h : ReadsProgram fs ks ts) {t : Token} (ht : t ∈ ts) {op : Operator}
    (hop : t.operator? = some op) : op.isBinary = true := by
  induction h with
  | nil => simp at ht
  | cons first _ _ ih =>
    rcases List.mem_append.1 ht with ht | ht
    · exact first.derives.isBinary ht hop
    · exact ih ht

namespace Parser

open Reader

/-- What becomes of reserved operators in reading tokens of any source. A loop that comes to one
behind an operand leaves it to the loop around it or fails there, by its bound. No expression
ends in front of an operator. A call that comes to a reserved one behind an operand raises an
error at it, with every token before it consumed. -/
structure RejectsReserved (σ : Type) [TokenSource σ] : Prop where
  tail : ∀ (limit levels rounds least : Nat) (lhs : Expr) (r r' : Reader σ) (op : Operator),
    r.remaining ≤ rounds →
    TailReaches (primary (expression limit levels)) rounds lhs least r r' →
    r'.lookahead.operator? = some op → op.isBinary = false →
    Settles least op r' (operatorTail (primary (expression limit levels)) rounds lhs least r)
  expression : ∀ (limit levels : Nat) (x : Expr) (r r' : Reader σ),
    expression limit levels r = .ok x r' → r'.lookahead.operator? = none
  next : ∀ (p : Parser σ) (r' : Reader σ) (op : Operator), p.failure = none →
    StatementReaches p.maxDepth p.reader.fresh r' →
    r'.lookahead.operator? = some op → op.isBinary = false →
    p.next = (.error (.grammar (.reserved r'.lookahead)),
      ⟨p.maxDepth, r', some (.grammar (.reserved r'.lookahead))⟩) ∧
    Consumes p.reader.fresh p.taken r'

theorem next_of_reaches {σ : Type} [TokenSource σ] {p : Parser σ} {r' : Reader σ} {op : Operator}
    (hnone : p.failure = none) (h : StatementReaches p.maxDepth p.reader.fresh r')
    (hop : r'.lookahead.operator? = some op) (reserved : op.isBinary = false) :
    p.next = (.error (.grammar (.reserved r'.lookahead)),
      ⟨p.maxDepth, r', some (.grammar (.reserved r'.lookahead))⟩) ∧
    Consumes p.reader.fresh p.taken r' := by
  have hstatement := statement_of_reaches h hop reserved
  have hnext := next_eq_error.2 (.inr ⟨hnone, r', hstatement, rfl⟩)
  refine ⟨hnext, ?_⟩
  obtain ⟨_, hfails⟩ := fails_statement hstatement
  generalize hfailure : Failure.grammar (.reserved r'.lookahead) = failure at hfails
  cases hfails with
  | blocked hus | tooDeep hus =>
    rwa [taken_of_consumes hnone (by rw [hnext]; exact hus)]
  | unscanned => cases hfailure

theorem rejectsReserved (σ : Type) [TokenSource σ] : RejectsReserved σ where
  tail limit levels rounds _ _ _ _ _ hr h hop reserved :=
    (settles_of_reaches (shrinks_operand limit levels) reserved rounds).1 _ _ _ _ hr h hop
  expression _ _ _ _ _ h := operator?_of_expression h
  next _ _ _ hnone h hop reserved := next_of_reaches hnone h hop reserved

/-- A reserved operator is rejected wherever it stands behind an operand, with an error of its own
kind, and a list of tokens that has one before its end of input is never parsed. -/
theorem reserved_operators_are_rejected :
    (∀ (σ : Type) [TokenSource σ], RejectsReserved σ) ∧
    (∀ t : Token, (SyntaxError.reserved t).token = t ∧
      (SyntaxError.reserved t).diagnostic.code = some "P001" ∧
      (SyntaxError.reserved t).fault.expected = "binary operator") ∧
    ∀ (ts : List Token) (source : TokenList) (maxDepth : Int) (p q : Parser TokenList)
      (fs : List Function) (t : Token) (op : Operator), TokenList.ofList? ts = some source →
      start maxDepth source = .ok p → t ∈ beforeEnd ts → t.operator? = some op →
      op.isBinary = false → p.all ≠ (.ok fs, q) := by
  refine ⟨rejectsReserved, fun t => ⟨rfl, rfl, rfl⟩, ?_⟩
  intro ts source maxDepth p q fs t op hsource hp ht hop reserved hall
  obtain ⟨p', hstart, _, _, hahead⟩ := start_ahead hsource (pos_of_start hp)
  obtain rfl := Except.ok.inj (hp.symm.trans hstart)
  obtain rfl := append_of_ofList? hsource
  obtain ⟨ending, _, _, hthrough, _⟩ := throughEnd_append source.last_isEnd source.tokens
  obtain ⟨ks, hreads⟩ := reads_of_yields (all_eq_ok.1 hall) (hahead.trans hthrough)
  rw [hreads.isBinary ht hop] at reserved
  contradiction

/-- An operator in parentheses, behind the right operand of one that binds more tightly. -/
theorem reserved_operators_are_rejected_group :
    let ts := [.number 1, .operator .add, .leftParen, .number 2, .operator .mul, .number 3,
      .operator .assign, .number 4, .rightParen, .endOfInput].map Token.bare
    ∃ source p r', TokenList.ofList? ts = some source ∧ start 2 source = .ok p ∧
      StatementReaches p.maxDepth p.reader.fresh r' ∧
      r'.lookahead.operator? = some .assign ∧ Operator.assign.isBinary = false ∧
      p.next = (.error (.grammar (.reserved r'.lookahead)),
        ⟨p.maxDepth, r', some (.grammar (.reserved r'.lookahead))⟩) ∧
      Token.bare (.operator .assign) ∈ beforeEnd ts ∧ ∀ fs q, p.all ≠ (.ok fs, q) := by
  intro ts
  obtain ⟨hrejects, _, hall⟩ := reserved_operators_are_rejected
  let source : TokenList := ⟨ts.dropLast, .bare .endOfInput, 0, rfl⟩
  let p : Parser TokenList := ⟨2, ⟨⟨ts.dropLast.tail, .bare .endOfInput, 1, rfl⟩,
    .bare (.number 1), []⟩, none⟩
  obtain ⟨r', hreaches, hop⟩ : ∃ r', StatementReaches p.maxDepth p.reader.fresh r' ∧
      r'.lookahead.operator? = some .assign :=
    ⟨_, .topLevel (by decide) (by decide) (by decide)
      (.inside (.later rfl .here rfl rfl rfl) (.group rfl rfl)
        (.operand rfl (.within rfl (Nat.zero_le _) rfl rfl rfl .here))), rfl⟩
  have hnext := (hrejects TokenList).next p r' .assign rfl hreaches hop rfl
  have hmem : Token.bare (.operator .assign) ∈ beforeEnd ts := by decide
  refine ⟨source, p, r', rfl, rfl, hreaches, hop, rfl, hnext.1, hmem, fun fs q => ?_⟩
  exact hall ts source 2 p q fs _ .assign rfl rfl hmem rfl rfl

end Parser
end ExprLang
