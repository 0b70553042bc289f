import ExprLang.Proofs.Completion
import ExprLang.Proofs.Soundness

/-!
# Where reading fails

A reading that fails has consumed tokens that the recognizer reads, and the token it fails at is
one that the recognizer cannot read next. Apart from that only a token that cannot be scanned
and an expression nested too deep make a reading fail.
-/
namespace ExprLang

namespace Recognizer

/-- The machine cannot read `t`, and where `t` is the end of input, nothing may end. -/
def Stuck (s : State) (t : Terminal) : Prop :=
  step true s t = none ∧ (t = .endOfInput → s.accepting = false)

theorem endExpression_predicate {more : Bool} {frames : List Frame} {t : Terminal}
    (h : t ≠ .keyword .thenWord) : endExpression more (.predicate :: frames) t = none := by
  cases t with
  | keyword word => cases word <;> first | rfl | contradiction
  | _ => rfl

theorem endExpression_thenBranch {more : Bool} {frames : List Frame} {t : Terminal}
    (h : t ≠ .keyword .elseWord) : endExpression more (.thenBranch :: frames) t = none := by
  cases t with
  | keyword word => cases word <;> first | rfl | contradiction
  | _ => rfl

end Recognizer

/-- A fault that more input could mend, apart from an end of input. -/
def SyntaxFault.Mendable : SyntaxFault → Prop
  | .unexpectedEnd _ | .nestingTooDeep _ => False
  | _ => True

theorem SyntaxError.ofFault_token (fault : SyntaxFault) (found : Token) :
    (SyntaxError.ofFault fault found).token = found := by
  unfold SyntaxError.ofFault
  split <;> rfl

/-- Such a fault becomes an unexpected end at the end of input and nowhere else. -/
theorem SyntaxFault.Mendable.code_ofFault {fault : SyntaxFault} (h : fault.Mendable)
    (found : Token) :
    (SyntaxError.ofFault fault found).diagnostic.code = some "P010" ↔ found.isEnd = true := by
  unfold SyntaxError.ofFault SyntaxError.diagnostic
  cases hend : found.isEnd with
  | true =>
    cases fault with
    | unexpectedEnd | nestingTooDeep => cases h
    | _ => simp [SyntaxFault.wanted?, SyntaxFault.code]
  | false =>
    cases fault with
    | unexpectedEnd | nestingTooDeep => cases h
    | _ => simp [SyntaxFault.code]

theorem EndsBefore.step_complete {more : Bool} {next : Token} {ts : List Token}
    (h : EndsBefore next ts) (frames : List Recognizer.Frame) :
    Recognizer.step more (.complete (endsInName false (terminals ts)) frames) next.terminal =
      Recognizer.endExpression more frames next.terminal := by
  refine Recognizer.step_complete frames (fun op hop => ?_) h.2
  have hnone := h.1
  rw [Token.operator?_eq_some.2 hop] at hnone
  contradiction

namespace Reader

open Recognizer

variable {σ : Type} [TokenSource σ] {limit levels : Nat} {s s₁ : State} {frames : List Frame}
  {r r₁ r' : Reader σ} {e : Failure}

/-- How a reading fails that began in the state `s` of the recognizer, with `levels` levels of
nesting left. -/
inductive Fails (limit levels : Nat) (s : State) (r : Reader σ) : Failure → Reader σ → Prop
  | blocked {ts : List Token} {s' : State} {r' : Reader σ} {fault : SyntaxFault}
      (consumed : Consumes r ts r') (reached : run true s (terminals ts) = some s')
      (stuck : Stuck s' r'.lookahead.terminal) (mendable : fault.Mendable) :
      Fails limit levels s r (.grammar (SyntaxError.ofFault fault r'.lookahead)) r'
  | tooDeep {ts : List Token} {r' : Reader σ} (consumed : Consumes r ts r')
      (deep : levels ≤ ts.length) :
      Fails limit levels s r
        (.grammar (SyntaxError.ofFault (.nestingTooDeep limit) r'.lookahead)) r'
  | unscanned {ts : List Token} {r₁ : Reader σ} {scanError : ScanError} {source : σ}
      (consumed : Consumes r ts r₁) (ahead : r₁.lookahead.isEnd = false)
      (pull : TokenSource.pull r₁.source = (.error scanError, source)) :
      Fails limit levels s r (.scan scanError) { r₁ with source }

theorem Fails.after {levels' : Nat} {ts : List Token} (h : Fails limit levels' s₁ r₁ e r')
    (hts : Consumes r ts r₁) (hrun : run true s (terminals ts) = some s₁)
    (hlevels : levels ≤ ts.length + levels') : Fails limit levels s r e r' := by
  cases h with
  | blocked consumed reached stuck mendable =>
    exact .blocked (hts.trans consumed) (by simp [hrun, reached]) stuck mendable
  | tooDeep consumed deep => exact .tooDeep (hts.trans consumed) (by simp; omega)
  | unscanned consumed ahead pull => exact .unscanned (hts.trans consumed) ahead pull

theorem fails_advance (h : (advance : Reading σ Token) r = .error e r') :
    Fails limit levels s r e r' := by
  obtain ⟨scanError, source, hend, hpull, rfl, rfl⟩ := advance_eq_error h
  exact .unscanned (.nil r) hend hpull

theorem fails_fail {α : Type} {fault : SyntaxFault}
    (h : (fail fault : Reading σ α) r = .error e r') (hstuck : Stuck s r.lookahead.terminal)
    (hfault : fault.Mendable) : Fails limit levels s r e r' := by
  obtain ⟨rfl, rfl⟩ := fail_eq_error.1 h
  exact .blocked (.nil r) rfl hstuck hfault

theorem Fails.after_one {levels' : Nat} {t : Token} (h : Fails limit levels' s₁ r₁ e r')
    (hadvance : advance r = .ok t r₁) (hstep : step true s r.lookahead.terminal = some s₁)
    (hlevels : levels ≤ levels' + 1) : Fails limit levels s r e r' := by
  have ht := (advance_eq_ok hadvance).1
  have hend : r.lookahead.terminal ≠ .endOfInput := by
    intro hend
    rw [hend, step_endOfInput] at hstep
    contradiction
  refine h.after (consumes_advance hadvance hend) ?_ (by simp; omega)
  simp [ht, hstep]

/-- Only the first step counts of the state in which a reading began. -/
theorem Fails.of_step_eq (h : Fails limit levels s r e r')
    (hstep : step true s₁ r.lookahead.terminal = step true s r.lookahead.terminal)
    (hend : r.lookahead.terminal = .endOfInput → s₁.accepting = false) :
    Fails limit levels s₁ r e r' := by
  cases h with
  | @blocked ts s' r' fault consumed reached stuck mendable =>
    cases ts with
    | nil =>
      obtain rfl := consumed.eq_of_nil
      simp only [terminals_nil, run_nil, Option.some.injEq] at reached
      subst reached
      exact .blocked (.nil r) rfl ⟨hstep.trans stuck.1, hend⟩ mendable
    | cons t ts =>
      rw [consumed.lookahead_eq] at hstep
      refine .blocked consumed ?_ stuck mendable
      rwa [terminals_cons, run_cons, hstep]
  | tooDeep consumed deep => exact .tooDeep consumed deep
  | unscanned consumed ahead pull => exact .unscanned consumed ahead pull

def PassesExpression (r r' : Reader σ) : Prop :=
  ∃ ts named, Consumes r ts r' ∧ ∀ frames,
    run true (.operand frames) (terminals ts) = some (.complete named frames) ∧
      step true (.complete named frames) r'.lookahead.terminal =
        endExpression true frames r'.lookahead.terminal

theorem passesExpression_of_ok {x : Expr} (h : expression limit levels r = .ok x r') :
    PassesExpression r r' := by
  obtain ⟨ts, hts, hend, d, _, hderives⟩ := readsExpressions_expression limit levels r x r' h
  obtain ⟨_, hrun⟩ := reads_of_generates true hderives.generates
  exact ⟨ts, _, hts, fun frames => ⟨hrun frames, hend.step_complete frames⟩⟩

theorem Fails.after_expression {x : Expr} (hx : expression limit levels r = .ok x r₁)
    (h : ∀ named, step true (.complete named frames) r₁.lookahead.terminal =
      endExpression true frames r₁.lookahead.terminal →
        Fails limit levels (.complete named frames) r₁ e r') :
    Fails limit levels (.operand frames) r e r' := by
  obtain ⟨ts, named, hts, hrun⟩ := passesExpression_of_ok hx
  obtain ⟨hrun, hstep⟩ := hrun frames
  exact (h named hstep).after hts hrun (by omega)

theorem stuck_complete {named : Bool} {frame : Frame} {t : Terminal}
    (hstep : step true (.complete named (frame :: frames)) t =
      endExpression true (frame :: frames) t)
    (h : endExpression true (frame :: frames) t = none) :
    Stuck (.complete named (frame :: frames)) t :=
  ⟨hstep.trans h, fun _ => rfl⟩

def FailsInside (limit levels : Nat) (inner : Reading σ Expr) : Prop :=
  ∀ frames r e r', inner r = .error e r' → Fails limit levels (.operand frames) r e r'

theorem expect_eq_error {kind : Kind} :
    (expect kind : Reading σ Token) r = .error e r' ↔
      (r.lookahead.kind = kind ∧ (advance : Reading σ Token) r = .error e r') ∨
        (r.lookahead.kind ≠ kind ∧
          (fail (.unexpectedToken (.kind kind)) : Reading σ Token) r = .error e r') := by
  simp only [expect, peek_bind]
  by_cases h : r.lookahead.kind = kind <;> simp [h]

theorem branchWord_eq_error {word : Keyword} :
    (branchWord word : Reading σ Unit) r = .error e r' ↔
      (r.lookahead.terminal = .keyword word ∧ (advance : Reading σ Token) r = .error e r') ∨
        (r.lookahead.terminal ≠ .keyword word ∧
          (fail (.missingKeyword (.keyword word) "conditional") : Reading σ Unit) r =
            .error e r') := by
  simp only [branchWord, peek_bind, ne_eq, ← Token.kind_eq_keyword]
  by_cases h : r.lookahead.kind = .keyword word
  · simp only [h, if_true, bind_eq_error, pure_ne_error, and_false, exists_false, or_false,
      true_and, not_true, false_and]
  · simp [h]

theorem fails_grouping (ih : FailsInside limit levels (expression limit levels : Reading σ Expr))
    (hleft : r.lookahead.terminal = .leftParen)
    (h : grouping (expression limit levels) r = .error e r') :
    Fails limit (levels + 1) (.operand frames) r e r' := by
  simp only [grouping, bind_eq_error, pure_ne_error, and_false, exists_false, or_false] at h
  have hstep : step true (.operand frames) r.lookahead.terminal =
      some (.operand (.group :: frames)) := by rw [hleft]; rfl
  rcases h with hadvance | ⟨l, r₁, hadvance, hinner | ⟨x, r₂, hinner, hclose⟩⟩
  · exact fails_advance hadvance
  · exact (ih _ _ _ _ hinner).after_one hadvance hstep (by omega)
  · refine Fails.after_one (Fails.after_expression hinner fun named hstep' => ?_) hadvance hstep
      (by omega)
    rcases expect_eq_error.1 hclose with ⟨_, hadvance'⟩ | ⟨hkind, hfail⟩
    · exact fails_advance hadvance'
    · refine fails_fail hfail (stuck_complete hstep' ?_) trivial
      rw [Ne, Token.kind_eq_rightParen] at hkind
      cases hnext : r₂.lookahead.terminal <;> first | rfl | contradiction

/-- The arguments after an opening parenthesis, when there is at least one. -/
theorem fails_arguments (ih : FailsInside limit levels (expression limit levels : Reading σ Expr))
    {callee : String} {rounds : Nat}
    (h : arguments (expression limit levels) callee rounds r = .error e r') :
    Fails limit levels (.operand (.arguments :: frames)) r e r' := by
  induction rounds generalizing r with
  | zero => exact absurd h pure_ne_error
  | succ rounds ihr =>
    simp only [arguments, bind_eq_error, peek_bind] at h
    rcases h with hfirst | ⟨x, r₁, hfirst, h⟩
    · exact ih _ _ _ _ hfirst
    apply Fails.after_expression hfirst
    intro named hstep
    cases hnext : r₁.lookahead.terminal with
    | comma =>
      simp only [hnext, bind_eq_error, pure_ne_error, and_false, exists_false, or_false] at h
      rcases h with hadvance | ⟨c, r₂, hadvance, hothers⟩
      · exact fails_advance hadvance
      · exact (ihr hothers).after_one hadvance (by rw [hstep, hnext]; rfl) (by omega)
    | rightParen =>
      simp only [hnext, bind_eq_error, pure_ne_error, and_false, exists_false, or_false] at h
      exact fails_advance h
    | _ =>
      simp only [hnext] at h
      refine fails_fail h (stuck_complete hstep ?_) trivial
      rw [hnext]
      rfl

theorem fails_nameOrCall (ih : FailsInside limit levels (expression limit levels : Reading σ Expr))
    {name : String} (hname : r.lookahead.terminal = .identifier name)
    (h : nameOrCall (expression limit levels) name r = .error e r') :
    Fails limit (levels + 1) (.operand frames) r e r' := by
  simp only [nameOrCall, bind_eq_error, peek_bind] at h
  rcases h with hadvance | ⟨t, r₁, hadvance, h⟩
  · exact fails_advance hadvance
  have hstep : step true (.operand frames) r.lookahead.terminal = some (.complete true frames) := by
    rw [hname]
    rfl
  cases hleft : r₁.lookahead.terminal with
  | leftParen =>
    have hstep' : step true (.complete true frames) r₁.lookahead.terminal =
        some (.firstArgument frames) := by rw [hleft]; rfl
    simp only [hleft, bind_eq_error, peek_bind] at h
    rcases h with hadvance' | ⟨l, r₂, hadvance', h⟩
    · exact (fails_advance hadvance').after_one hadvance hstep (Nat.le_succ _)
    have hafter (hfails : Fails limit levels (.firstArgument frames) r₂ e r') :
        Fails limit (levels + 1) (.operand frames) r e r' :=
      (hfails.after_one hadvance' hstep' (Nat.le_succ _)).after_one hadvance hstep (Nat.le_refl _)
    cases hright : r₂.lookahead.terminal with
    | rightParen =>
      simp only [hright, bind_eq_error, pure_ne_error, spanFrom_bind, and_false, exists_false,
        or_false] at h
      exact hafter (fails_advance h)
    | _ =>
      simp only [hright, bind_eq_error, pure_ne_error, spanFrom_bind, and_false, exists_false,
        or_false, bounded_eq] at h
      exact hafter ((fails_arguments ih h).of_step_eq (step_firstArgument (by simp [hright]))
        fun _ => rfl)
  | _ =>
    simp only [hleft] at h
    exact absurd h pure_ne_error

theorem fails_conditional (ih : FailsInside limit levels (expression limit levels : Reading σ Expr))
    (hif : r.lookahead.terminal = .keyword .ifWord)
    (h : conditional (expression limit levels) r = .error e r') :
    Fails limit (levels + 1) (.operand frames) r e r' := by
  simp only [conditional, bind_eq_error, pure_ne_error, spanFrom_bind, and_false, exists_false,
    or_false] at h
  have hstep : step true (.operand frames) r.lookahead.terminal =
      some (.operand (.predicate :: frames)) := by rw [hif]; rfl
  rcases h with hadvance | ⟨i, r₁, hadvance, h⟩
  · exact fails_advance hadvance
  refine Fails.after_one ?_ hadvance hstep (Nat.le_refl _)
  rcases h with hp | ⟨p, r₂, hp, h⟩
  · exact ih _ _ _ _ hp
  apply Fails.after_expression hp
  intro named hstep
  rcases h with hword | ⟨_, r₃, hword, h⟩
  · rcases branchWord_eq_error.1 hword with ⟨_, hadvance'⟩ | ⟨hne, hfail⟩
    · exact fails_advance hadvance'
    · refine fails_fail hfail (stuck_complete hstep ?_) trivial
      exact endExpression_predicate hne
  obtain ⟨hthen, t, hadvance'⟩ := branchWord_eq_ok.1 hword
  have hstep' : step true (.complete named (.predicate :: frames)) r₂.lookahead.terminal =
      some (.operand (.thenBranch :: frames)) := by rw [hstep, hthen]; rfl
  refine Fails.after_one ?_ hadvance' hstep' (Nat.le_succ _)
  rcases h with ha | ⟨a, r₄, ha, h⟩
  · exact ih _ _ _ _ ha
  apply Fails.after_expression ha
  intro named hstep
  rcases h with hword | ⟨_, r₅, hword, hb⟩
  · rcases branchWord_eq_error.1 hword with ⟨_, hadvance'⟩ | ⟨hne, hfail⟩
    · exact fails_advance hadvance'
    · refine fails_fail hfail (stuck_complete hstep ?_) trivial
      exact endExpression_thenBranch hne
  obtain ⟨helse, k, hadvance''⟩ := branchWord_eq_ok.1 hword
  exact (ih frames _ _ _ hb).after_one hadvance'' (by rw [hstep, helse]; rfl) (Nat.le_succ _)

theorem fails_primary (ih : FailsInside limit levels (expression limit levels : Reading σ Expr))
    (h : primary (expression limit levels) r = .error e r') :
    Fails limit (levels + 1) (.operand frames) r e r' := by
  simp only [primary, peek_bind] at h
  have hblocked (hnone : beginOperand frames r.lookahead.terminal = none)
      (hfail : (fail .invalidExpression : Reading σ Expr) r = .error e r') :
      Fails limit (levels + 1) (.operand frames) r e r' :=
    fails_fail hfail ⟨hnone, fun _ => rfl⟩ trivial
  cases hnext : r.lookahead.terminal with
  | number value =>
    simp only [hnext, bind_eq_error, pure_ne_error, and_false, exists_false, or_false] at h
    exact fails_advance h
  | leftParen => exact fails_grouping ih hnext (by simpa only [hnext] using h)
  | identifier name => exact fails_nameOrCall ih hnext (by simpa only [hnext] using h)
  | keyword word =>
    cases word with
    | ifWord => exact fails_conditional ih hnext (by simpa only [hnext] using h)
    | _ => exact hblocked (by rw [hnext]; rfl) (by simpa only [hnext] using h)
  | _ => exact hblocked (by rw [hnext]; rfl) (by simpa only [hnext] using h)

theorem Fails.after_operand {operand : Reading σ Expr} {x : Expr} {levels' : Nat}
    (hreads : ReadsOperands levels' operand) (hx : operand r = .ok x r₁)
    (h : ∀ named, Fails limit levels (.complete named frames) r₁ e r') :
    Fails limit levels (.operand frames) r e r' := by
  obtain ⟨ts, hts, hoperand⟩ := hreads _ _ _ hx
  obtain ⟨_, hrun⟩ := reads_of_generates true hoperand.generates
  exact (h _).after hts (hrun frames) (by omega)

/-- A chain breaks at an operator that is reserved or inside an operand. -/
theorem fails_of_breaks {operand : Reading σ Expr} {levels' : Nat}
    (hreads : ReadsOperands levels' operand) (ih : FailsInside limit levels operand)
    (h : Breaks operand r e r') (named : Bool) :
    Fails limit levels (.complete named frames) r e r' := by
  have hstep {r : Reader σ} {op : Operator} (named : Bool) (hop : r.lookahead.operator? = some op)
      (binary : op.isBinary = true) :
      step true (.complete named frames) r.lookahead.terminal = some (.operand frames) := by
    simp [Token.operator?_eq_some.1 hop, step, binary]
  induction h generalizing named with
  | reserved hop reserved herror =>
    have hterminal := Token.operator?_eq_some.1 hop
    exact fails_fail herror ⟨by simp [hterminal, step, reserved], by simp [hterminal]⟩ trivial
  | next hop binary herror =>
    rcases bind_eq_error.1 herror with hadvance | ⟨o, r₁, hadvance, hoperand⟩
    · exact fails_advance hadvance
    · exact (ih _ _ _ _ hoperand).after_one hadvance (hstep named hop binary) (Nat.le_succ _)
  | later hop binary first second _ ihb =>
    exact (Fails.after_operand hreads second ihb).after_one first (hstep named hop binary)
      (Nat.le_succ _)

theorem fails_expression (limit levels : Nat) :
    FailsInside limit levels (expression limit levels : Reading σ Expr) := by
  induction levels with
  | zero =>
    intro frames r e r' herror
    obtain ⟨rfl, rfl⟩ := fail_eq_error.1 herror
    exact .tooDeep (.nil r) (Nat.le_refl 0)
  | succ levels ih =>
    intro frames r e r' herror
    have hreads := readsOperands_primary (readsExpressions_expression (σ := σ) limit levels)
    have hshrinks : Shrinks (primary (expression limit levels) : Reading σ Expr) :=
      shrinks_primary (shrinks_expression limit levels).keeps
    simp only [expression, bind_eq_error, bounded_eq] at herror
    rcases herror with hfirst | ⟨first, r₁, hfirst, htail⟩
    · exact fails_primary ih hfirst
    · apply Fails.after_operand hreads hfirst
      exact fails_of_breaks hreads (fun _ _ _ _ => fails_primary ih)
        ((breaks_of_operatorTail_tighten hshrinks _).1 _ _ _ _ _ (Nat.le_succ _) htail)

theorem fails_parameters {name : String} {rounds : Nat} {body : Bool}
    (h : parameters name rounds r = .error e r') :
    Fails limit levels (.parameters body) r e r' := by
  induction rounds generalizing r with
  | zero => exact absurd h pure_ne_error
  | succ rounds ih =>
    simp only [parameters, peek_bind] at h
    cases hnext : r.lookahead.terminal with
    | comma =>
      simp only [hnext, bind_eq_error] at h
      rcases h with hadvance | ⟨c, r₁, hadvance, h⟩
      · exact fails_advance hadvance
      · exact (ih h).after_one hadvance (by rw [hnext]; rfl) (Nat.le_succ _)
    | identifier param =>
      simp only [hnext, bind_eq_error, pure_ne_error, and_false, exists_false, or_false] at h
      rcases h with hadvance | ⟨n, r₁, hadvance, h⟩
      · exact fails_advance hadvance
      · exact (ih h).after_one hadvance (by rw [hnext]; rfl) (Nat.le_succ _)
    | rightParen =>
      simp only [hnext, bind_eq_error, pure_ne_error, and_false, exists_false, or_false] at h
      exact fails_advance h
    | _ =>
      simp only [hnext] at h
      refine fails_fail h ⟨?_, fun _ => rfl⟩ trivial
      rw [hnext]
      rfl

theorem fails_prototype {body : Bool} (h : (prototype : Reading σ Prototype) r = .error e r') :
    Fails limit levels (.prototypeName body) r e r' := by
  simp only [prototype, peek_bind] at h
  cases hname : r.lookahead.terminal with
  | identifier name =>
    simp only [hname, bind_eq_error, peek_bind] at h
    rcases h with hadvance | ⟨n, r₁, hadvance, h⟩
    · exact fails_advance hadvance
    refine Fails.after_one ?_ hadvance (by rw [hname]; rfl) (Nat.le_succ levels)
    cases hleft : r₁.lookahead.terminal with
    | leftParen =>
      simp only [hleft, bind_eq_error, pure_ne_error, spanFrom_bind, and_false, exists_false,
        or_false, bounded_eq] at h
      rcases h with hadvance' | ⟨l, r₂, hadvance', hparams⟩
      · exact fails_advance hadvance'
      · exact (fails_parameters hparams).after_one hadvance' (by rw [hleft]; rfl) (Nat.le_succ _)
    | _ =>
      simp only [hleft] at h
      refine fails_fail h ⟨?_, fun _ => rfl⟩ trivial
      rw [hleft]
      rfl
  | _ =>
    simp only [hname] at h
    refine fails_fail h ⟨?_, fun _ => rfl⟩ trivial
    rw [hname]
    rfl

theorem fails_definition {maxDepth : Nat} (hnext : r.lookahead.terminal = .keyword .define)
    (h : definition maxDepth r = .error e r') : Fails maxDepth maxDepth .start r e r' := by
  simp only [definition, bind_eq_error, pure_ne_error, spanFrom_bind, and_false, exists_false,
    or_false] at h
  rcases h with hadvance | ⟨k, r₁, hadvance, h⟩
  · exact fails_advance hadvance
  refine Fails.after_one ?_ hadvance (by rw [hnext]; rfl) (Nat.le_succ _)
  rcases h with hp | ⟨p, r₂, hp, hbody⟩
  · exact fails_prototype hp
  obtain ⟨ts, hts, hprototype⟩ := derivesPrototype_prototype hp
  have hrun := reads_of_generates true hprototype.generates true
  exact (fails_expression maxDepth maxDepth _ _ _ _ hbody).after hts hrun (by omega)

theorem fails_externalDeclaration {maxDepth : Nat}
    (hnext : r.lookahead.terminal = .keyword .external)
    (h : (externalDeclaration : Reading σ Function) r = .error e r') :
    Fails maxDepth maxDepth .start r e r' := by
  simp only [externalDeclaration, bind_eq_error, pure_ne_error, spanFrom_bind, and_false,
    exists_false, or_false] at h
  rcases h with hadvance | ⟨k, r₁, hadvance, hp⟩
  · exact fails_advance hadvance
  · exact (fails_prototype hp).after_one hadvance (by rw [hnext]; rfl) (Nat.le_succ _)

theorem fails_statement {maxDepth : Nat} (h : statement maxDepth r = .error e r') :
    r.lookahead.terminal ≠ .endOfInput ∧ Fails maxDepth maxDepth .start r e r' := by
  have htop (hend : r.lookahead.terminal ≠ .endOfInput)
      (hbegin : beginStatement r.lookahead.terminal = beginOperand [] r.lookahead.terminal)
      (htop : topLevelExpression maxDepth r = .error e r') :
      Fails maxDepth maxDepth .start r e r' := by
    simp only [topLevelExpression, peek_bind, bind_eq_error, pure_ne_error, spanFrom_bind,
      and_false, exists_false, or_false] at htop
    exact (fails_expression maxDepth maxDepth [] _ _ _ htop).of_step_eq hbegin
      fun h => absurd h hend
  simp only [statement, peek_bind] at h
  cases hnext : r.lookahead.terminal with
  | endOfInput =>
    simp only [hnext] at h
    exact absurd h pure_ne_error
  | keyword word =>
    refine ⟨by simp, ?_⟩
    cases word with
    | define => exact fails_definition hnext (map_some_eq_error.1 (by simpa only [hnext] using h))
    | external =>
      exact fails_externalDeclaration hnext (map_some_eq_error.1 (by simpa only [hnext] using h))
    | _ =>
      have herror := map_some_eq_error.1 (by simpa only [hnext] using h)
      exact htop (by simp [hnext]) (by rw [hnext]; rfl) herror
  | _ =>
    have herror := map_some_eq_error.1 (by simpa only [hnext] using h)
    exact ⟨by simp, htop (by simp [hnext]) (by rw [hnext]; rfl) herror⟩

end Reader
end ExprLang
