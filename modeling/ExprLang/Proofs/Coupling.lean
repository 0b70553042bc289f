import ExprLang.Proofs.Consumption
import ExprLang.Proofs.Likeness

/-!
# Two readers side by side

The same reading run on two readers, whose sources may differ. Matched readers show lookaheads and
consumed tokens that are alike, and every reading keeps them matched: what it returns is alike on
both sides, or it fails on both in the same way. Only at certain failures may the left run stop
while the right one goes on, and then the right one ends beyond the place where the left one
stopped. What two readers have to be for this is said once of consuming a token, and holds of
every reading made from that.
-/
namespace ExprLang.Reader

variable {σ τ α β γ δ : Type}

abbrev Outcome (σ α : Type) := EStateM.Result Failure (Reader σ) α

def Outcome.reader : Outcome σ α → Reader σ
  | .ok _ r => r
  | .error _ r => r

/-- Two outcomes that agree, with values in the relation `R`, or a left one that has parted from
the right one. -/
inductive Agree (like : Likeness) (matched : Reader σ → Reader τ → Prop) (parts : Failure → Prop)
    (beyond : Reader σ → Reader τ → Prop) (R : α → β → Prop) : Outcome σ α → Outcome τ β → Prop
  | ok {a : α} {b : β} {r : Reader σ} {r' : Reader τ} (h : matched r r') (hab : R a b) :
      Agree like matched parts beyond R (.ok a r) (.ok b r')
  | error {e e' : Failure} {r : Reader σ} {r' : Reader τ} (h : matched r r')
      (he : like.SameFailure e e') : Agree like matched parts beyond R (.error e r) (.error e' r')
  | parted {e : Failure} {r : Reader σ} {outcome : Outcome τ β} (h : parts e)
      (hbeyond : beyond r outcome.reader) :
      Agree like matched parts beyond R (.error e r) outcome

/-- When readers count as matched, the failures at which the left run may part from the right
one, and how far the right one has then come; with what consuming a token does to all of it. -/
structure Coupling (like : Likeness) (σ τ : Type) [TokenSource σ] [TokenSource τ] where
  matched : Reader σ → Reader τ → Prop
  parts : Failure → Prop
  beyond : Reader σ → Reader τ → Prop
  lookahead_like : ∀ {r r'}, matched r r' → like.token r.lookahead r'.lookahead
  consumed_like : ∀ {r r'}, matched r r' → List.Forall₂ like.token r.consumed r'.consumed
  advance_agree : ∀ {r r'}, matched r r' →
    Agree like matched parts beyond like.token (advance r) (advance r')
  advance_beyond : ∀ {s r}, beyond s r → beyond s (Outcome.reader (advance r))

variable [TokenSource σ] [TokenSource τ] {like : Likeness} {c : Coupling like σ τ}
  {R : α → β → Prop} {S : γ → δ → Prop}

/-- `y` does on the right what `x` does on the left, with values in the relation `R`. -/
structure Follows (c : Coupling like σ τ) (R : α → β → Prop) (x : Reading σ α)
    (y : Reading τ β) : Prop where
  agree : ∀ {r r'}, c.matched r r' → Agree like c.matched c.parts c.beyond R (x r) (y r')
  beyond : ∀ {s r}, c.beyond s r → c.beyond s (Outcome.reader (y r))

theorem follows_pure {a : α} {b : β} (h : R a b) : Follows c R (pure a) (pure b) where
  agree hmatched := .ok hmatched h
  beyond h := h

theorem follows_peek : Follows c like.token peek peek where
  agree h := .ok h (c.lookahead_like h)
  beyond h := h

theorem follows_spanFrom {start start' : Token} (h : like.token start start') :
    Follows c like.span (spanFrom start) (spanFrom start') where
  agree {r r'} hmatched := by
    refine .ok hmatched (Likeness.span_of h ?_)
    have hconsumed := c.consumed_like hmatched
    generalize r.consumed = consumed at hconsumed ⊢
    generalize r'.consumed = consumed' at hconsumed ⊢
    cases hconsumed with
    | nil => exact h
    | cons hhead _ => exact hhead
  beyond h := h

theorem follows_fail (fault : SyntaxFault) :
    Follows c R (fail fault) (fail fault) where
  agree h := .error h (Likeness.sameFailure_ofFault fault (c.lookahead_like h))
  beyond h := h

theorem follows_advance : Follows c like.token advance advance where
  agree := c.advance_agree
  beyond := c.advance_beyond

theorem Follows.bind {R : α → α → Prop} [Std.Refl R] {x : Reading σ α} {y : Reading τ α}
    {f : α → Reading σ γ} {g : α → Reading τ δ} (hx : Follows c R x y)
    (hf : ∀ a b, R a b → Follows c S (f a) (g b)) : Follows c S (x >>= f) (y >>= g) where
  agree {r r'} h := by
    rw [bind_apply, bind_apply]
    have hxy := hx.agree h
    generalize x r = left at hxy
    generalize y r' = right at hxy
    -- a left run that parts does so here or behind `f`; the right run goes on in any case
    cases hxy with
    | ok hmatched hab => exact (hf _ _ hab).agree hmatched
    | error hmatched he => exact .error hmatched he
    | parted hparts hbeyond =>
      refine .parted hparts ?_
      cases right with
      | ok b r₂ => exact (hf b b (Std.Refl.refl b)).beyond hbeyond
      | error e' r₂ => exact hbeyond
  beyond {s r} h := by
    have hy := hx.beyond h
    rw [bind_apply]
    cases hr : y r with
    | ok b r₁ =>
      rw [hr] at hy
      exact (hf b b (Std.Refl.refl b)).beyond hy
    | error e r₁ =>
      rw [hr] at hy
      exact hy

theorem Follows.some {x : Reading σ α} {y : Reading τ α} {R : α → α → Prop} [Std.Refl R]
    (h : Follows c R x y) : Follows c (Option.Rel R) (some <$> x) (some <$> y) := by
  simp only [map_eq_pure_bind]
  exact h.bind fun a b hab => follows_pure (.some hab)

/-- Rounds do not matter as long as there are more of them than tokens ahead. -/
def Steady (loop : Nat → Reading σ α) : Prop :=
  ∀ m n (r : Reader σ), r.remaining < m → r.remaining < n → loop m r = loop n r

theorem follows_bounded {loop : Nat → Reading σ α} {loop' : Nat → Reading τ β}
    (hloop : Steady loop) (hloop' : Steady loop') (h : ∀ n, Follows c R (loop n) (loop' n)) :
    Follows c R (bounded loop) (bounded loop') where
  agree {r r'} hmatched := by
    -- the two sides may count different numbers of tokens ahead
    have hmax := (h (max r.remaining r'.remaining + 1)).agree hmatched
    rwa [hloop _ (r.remaining + 1) r (by omega) (by omega),
      hloop' _ (r'.remaining + 1) r' (by omega) (by omega)] at hmax
  beyond hbeyond := (h _).beyond hbeyond

theorem follows_expect (kind : Kind) : Follows c like.token (expect kind) (expect kind) :=
  follows_peek.bind fun token token' htoken => by
    rw [Likeness.kind_eq htoken]
    split
    · exact follows_advance
    · exact follows_fail _

theorem follows_branchWord (word : Keyword) :
    Follows c Eq (branchWord word) (branchWord word) :=
  follows_peek.bind fun token token' htoken => by
    rw [Likeness.kind_eq htoken]
    split
    · exact follows_advance.bind fun _ _ _ => follows_pure rfl
    · exact follows_fail _

section Operands

variable {inner : Reading σ Expr} {inner' : Reading τ Expr}

theorem follows_arguments (h : Follows c (like.UpTo Expr.erase) inner inner') (callee : String)
    (rounds : Nat) :
    Follows c (like.UpTo Expr.eraseAll) (arguments inner callee rounds)
      (arguments inner' callee rounds) := by
  induction rounds with
  | zero => exact follows_pure (Std.Refl.refl [])
  | succ rounds ih =>
    refine h.bind fun first first' hfirst => follows_peek.bind fun token token' htoken => ?_
    rw [← like.terminal_eq htoken]
    cases token.terminal with
    | comma =>
      refine follows_advance.bind fun _ _ _ => ih.bind fun others others' hothers => ?_
      exact follows_pure ⟨by rw [Expr.eraseAll, Expr.eraseAll, hfirst.1, hothers.1],
        fun hplaces => by rw [hfirst.2 hplaces, hothers.2 hplaces]⟩
    | rightParen =>
      refine follows_advance.bind fun _ _ _ => follows_pure ?_
      exact ⟨by simp only [Expr.eraseAll, hfirst.1], fun hplaces => by rw [hfirst.2 hplaces]⟩
    | _ => exact follows_fail _

theorem follows_call {start start' : Token} (hstart : like.token start start') (name : String)
    {args args' : List Expr} (h : like.UpTo Expr.eraseAll args args') :
    Follows c (like.UpTo Expr.erase)
      (do return .call name args (← spanFrom start) : Reading σ Expr)
      (do return .call name args' (← spanFrom start')) :=
  (follows_spanFrom hstart).bind fun _ _ hspan => follows_pure
    ⟨by rw [Expr.erase, Expr.erase, h.1], fun hplaces => by rw [h.2 hplaces, hspan hplaces]⟩

theorem follows_nameOrCall (h : Follows c (like.UpTo Expr.erase) inner inner')
    (hinner : Shrinks inner) (hinner' : Shrinks inner') (name : String) :
    Follows c (like.UpTo Expr.erase) (nameOrCall inner name) (nameOrCall inner' name) := by
  refine follows_advance.bind fun start start' hstart =>
    follows_peek.bind fun token token' htoken => ?_
  have hargs : Follows c (like.UpTo Expr.eraseAll) (bounded (arguments inner name))
      (bounded (arguments inner' name)) :=
    follows_bounded (arguments_rounds hinner name) (arguments_rounds hinner' name)
      (follows_arguments h name)
  rw [← like.terminal_eq htoken]
  cases token.terminal with
  | leftParen =>
    refine follows_advance.bind fun _ _ _ => follows_peek.bind fun token token' htoken => ?_
    rw [← like.terminal_eq htoken]
    cases token.terminal with
    | rightParen =>
      exact follows_advance.bind fun _ _ _ => follows_call hstart name (Std.Refl.refl [])
    | _ => exact hargs.bind fun args args' hargs' => follows_call hstart name hargs'
  | _ =>
    have hspan := Likeness.span_of hstart hstart
    exact follows_pure ⟨rfl, fun hplaces => by rw [Token.span, hspan hplaces, Token.span]⟩

theorem follows_grouping (h : Follows c (like.UpTo Expr.erase) inner inner') :
    Follows c (like.UpTo Expr.erase) (grouping inner) (grouping inner') :=
  follows_advance.bind fun _ _ _ => h.bind fun _ _ he =>
    (follows_expect _).bind fun _ _ _ => follows_pure he

theorem follows_conditional (h : Follows c (like.UpTo Expr.erase) inner inner') :
    Follows c (like.UpTo Expr.erase) (conditional inner) (conditional inner') := by
  refine follows_advance.bind fun start start' hstart => h.bind fun p p' hp =>
    (follows_branchWord _).bind fun _ _ _ => h.bind fun a a' ha =>
      (follows_branchWord _).bind fun _ _ _ => h.bind fun b b' hb =>
        (follows_spanFrom hstart).bind fun _ _ hspan => follows_pure ?_
  exact ⟨by simp only [Expr.erase, hp.1, ha.1, hb.1], fun hplaces => by
    rw [hp.2 hplaces, ha.2 hplaces, hb.2 hplaces, hspan hplaces]⟩

theorem follows_primary (h : Follows c (like.UpTo Expr.erase) inner inner')
    (hinner : Shrinks inner) (hinner' : Shrinks inner') :
    Follows c (like.UpTo Expr.erase) (primary inner) (primary inner') := by
  refine follows_peek.bind fun token token' htoken => ?_
  rw [← like.terminal_eq htoken]
  cases token.terminal with
  | number value =>
    refine follows_advance.bind fun t t' ht => follows_pure ⟨rfl, fun hplaces => ?_⟩
    rw [Token.span, Likeness.span_of ht ht hplaces, Token.span]
  | leftParen => exact follows_grouping h
  | identifier name => exact follows_nameOrCall h hinner hinner' name
  | keyword word =>
    cases word with
    | ifWord => exact follows_conditional h
    | _ => exact follows_fail _
  | _ => exact follows_fail _

end Operands

theorem follows_binaryOperatorAhead :
    Follows c Eq (binaryOperatorAhead : Reading σ (Option Operator)) binaryOperatorAhead :=
  follows_peek.bind fun _ _ htoken => follows_pure (by rw [Likeness.operator?_eq htoken])

theorem follows_operatorTail_tighten {operand : Reading σ Expr} {operand' : Reading τ Expr}
    (h : Follows c (like.UpTo Expr.erase) operand operand') (rounds : Nat) :
    (∀ lhs lhs' least, like.UpTo Expr.erase lhs lhs' →
      Follows c (like.UpTo Expr.erase) (operatorTail operand rounds lhs least)
        (operatorTail operand' rounds lhs' least)) ∧
    ∀ op rhs rhs', like.UpTo Expr.erase rhs rhs' →
      Follows c (like.UpTo Expr.erase) (tighten operand rounds op rhs)
        (tighten operand' rounds op rhs') := by
  induction rounds with
  | zero => exact ⟨fun _ _ _ hlhs => follows_pure hlhs, fun _ _ _ hrhs => follows_pure hrhs⟩
  | succ rounds ih =>
    constructor
    · intro lhs lhs' least hlhs
      refine follows_peek.bind fun token token' htoken => ?_
      rw [← Likeness.operator?_eq htoken]
      cases token.operator? with
      | none => exact follows_pure hlhs
      | some op =>
        simp only
        split
        · exact follows_pure hlhs
        split
        · exact follows_fail _
        · exact follows_advance.bind fun _ _ _ => h.bind fun _ _ he =>
            (ih.2 _ _ _ he).bind fun _ _ hrhs => ih.1 _ _ _ (Likeness.binary op hlhs hrhs)
    · intro op rhs rhs' hrhs
      refine follows_binaryOperatorAhead.bind fun ahead _ hahead => ?_
      subst hahead
      cases ahead with
      | none => exact follows_pure hrhs
      | some ahead =>
        simp only
        split
        · exact (ih.1 _ _ _ hrhs).bind fun _ _ he => ih.2 _ _ _ he
        · exact follows_pure hrhs

theorem steady_operatorTail {operand : Reading σ Expr} (h : Shrinks operand) (lhs : Expr)
    (least : Nat) : Steady fun rounds => operatorTail operand rounds lhs least :=
  fun m n r hm hn => (operatorTail_tighten_rounds h m).1 n lhs least r (by omega) (by omega)

/-- Expressions agree at all levels of nesting if they do where the left side has none left. -/
theorem follows_expression {limit limit' extra : Nat}
    (hzero : Follows c (like.UpTo Expr.erase) (expression limit 0) (expression limit' extra))
    (levels : Nat) :
    Follows c (like.UpTo Expr.erase) (expression limit levels)
      (expression limit' (levels + extra)) := by
  induction levels with
  | zero => rwa [Nat.zero_add]
  | succ levels ih =>
    rw [Nat.succ_add]
    have hinner := shrinks_expression (σ := σ) limit levels
    have hinner' := shrinks_expression (σ := τ) limit' (levels + extra)
    have hoperand := follows_primary ih hinner hinner'
    refine hoperand.bind fun lhs lhs' hlhs => ?_
    exact follows_bounded (steady_operatorTail (shrinks_primary hinner.keeps) lhs 0)
      (steady_operatorTail (shrinks_primary hinner'.keeps) lhs' 0)
      fun rounds => (follows_operatorTail_tighten hoperand rounds).1 lhs lhs' 0 hlhs

theorem follows_expression_self (limit levels : Nat) :
    Follows c (like.UpTo Expr.erase) (expression limit levels) (expression limit levels) := by
  have hzero : Follows c (like.UpTo Expr.erase) (expression limit 0) (expression limit 0) :=
    follows_fail _
  exact follows_expression hzero levels

theorem follows_parameters (name : String) (rounds : Nat) :
    Follows c Eq (parameters name rounds) (parameters name rounds) := by
  induction rounds with
  | zero => exact follows_pure rfl
  | succ rounds ih =>
    refine follows_peek.bind fun token token' htoken => ?_
    rw [← like.terminal_eq htoken]
    cases token.terminal with
    | comma => exact follows_advance.bind fun _ _ _ => ih
    | identifier param =>
      exact follows_advance.bind fun _ _ _ => ih.bind fun _ _ hparams =>
        follows_pure (by rw [hparams])
    | rightParen => exact follows_advance.bind fun _ _ _ => follows_pure rfl
    | _ => exact follows_fail _

theorem follows_prototype :
    Follows c (like.UpTo Prototype.erase) prototype prototype := by
  refine follows_peek.bind fun token token' htoken => ?_
  rw [← like.terminal_eq htoken]
  cases token.terminal with
  | identifier name =>
    refine follows_advance.bind fun start start' hstart =>
      follows_peek.bind fun token token' htoken => ?_
    have hparams : Follows c Eq (bounded (parameters name)) (bounded (parameters name)) :=
      follows_bounded (parameters_rounds name) (parameters_rounds name) (follows_parameters name)
    rw [← like.terminal_eq htoken]
    cases token.terminal with
    | leftParen =>
      refine follows_advance.bind fun _ _ _ => hparams.bind fun params _ hparams' => ?_
      subst hparams'
      exact (follows_spanFrom hstart).bind fun _ _ hspan =>
        follows_pure ⟨rfl, fun hplaces => by rw [hspan hplaces]⟩
    | _ => exact follows_fail _
  | _ => exact follows_fail _

/-- Statements agree if their expressions do. -/
theorem follows_statement {d d' : Nat}
    (h : Follows c (like.UpTo Expr.erase) (expression d d) (expression d' d')) :
    Follows c (Option.Rel (like.UpTo Function.erase)) (statement d) (statement d') := by
  have hdefinition : Follows c (like.UpTo Function.erase) (definition d) (definition d') := by
    refine follows_advance.bind fun start start' hstart => follows_prototype.bind fun _ _ hp =>
      h.bind fun _ _ he => (follows_spanFrom hstart).bind fun _ _ hspan => follows_pure ?_
    exact ⟨by rw [Function.erase, Function.erase, hp.1, he.1], fun hplaces => by
      rw [hp.2 hplaces, he.2 hplaces, hspan hplaces]⟩
  have hexternal : Follows c (like.UpTo Function.erase) externalDeclaration
      externalDeclaration := by
    refine follows_advance.bind fun start start' hstart => follows_prototype.bind fun _ _ hp =>
      (follows_spanFrom hstart).bind fun _ _ hspan => follows_pure ?_
    exact ⟨by rw [Function.erase, Function.erase, hp.1], fun hplaces => by
      rw [hp.2 hplaces, hspan hplaces]⟩
  have htop : Follows c (like.UpTo Function.erase) (topLevelExpression d)
      (topLevelExpression d') := by
    refine follows_peek.bind fun start start' hstart => h.bind fun _ _ he =>
      (follows_spanFrom hstart).bind fun _ _ hspan => follows_pure ?_
    exact ⟨by rw [Function.erase, Function.erase, he.1], fun hplaces => by
      rw [he.2 hplaces, hspan hplaces]⟩
  refine follows_peek.bind fun token token' htoken => ?_
  rw [← like.terminal_eq htoken]
  cases token.terminal with
  | endOfInput => exact follows_pure .none
  | keyword word =>
    cases word with
    | define => exact hdefinition.some
    | external => exact hexternal.some
    | _ => exact htop.some
  | _ => exact htop.some

end ExprLang.Reader
