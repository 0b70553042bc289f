import ExprLang.Reader.Statement

/-!
# Progress

Reading never adds tokens to what lies ahead, an operand and an expression take at least one,
and the loops of the reader end before their rounds run out: with as many rounds as
`Reader.bounded` gives, or more, a loop reads the same.
-/
namespace ExprLang.Reader

variable {σ α β : Type}

theorem isEnd_eq_false {t : Token} (h : t.terminal ≠ .endOfInput) : t.isEnd = false := by
  simpa [Token.isEnd] using h

variable [TokenSource σ]

theorem remaining_advance {r r' : Reader σ} {token : Token} (h : advance r = .ok token r')
    (hend : r.lookahead.isEnd = false) : r'.remaining < r.remaining := by
  simp only [advance, hend, Bool.false_eq_true, if_false] at h
  split at h
  · next next source hpull =>
    simp only [EStateM.Result.ok.injEq] at h
    obtain ⟨rfl, rfl⟩ := h
    simp only [remaining, hend, Bool.false_eq_true, if_false]
    split
    · simp
    · next hnext =>
      have := TokenSource.remaining_pull hpull (by simpa using hnext)
      omega
  · simp at h

/-- A reading that leaves no more tokens than there were, whenever it succeeds. -/
def Keeps (x : Reading σ α) : Prop :=
  ∀ (r r' : Reader σ) (a : α), x r = .ok a r' → r'.remaining ≤ r.remaining

def Shrinks (x : Reading σ α) : Prop :=
  ∀ (r r' : Reader σ) (a : α), x r = .ok a r' → r'.remaining < r.remaining

theorem Shrinks.keeps {x : Reading σ α} (h : Shrinks x) : Keeps x :=
  fun r r' a hr => Nat.le_of_lt (h r r' a hr)

theorem keeps_pure (a : α) : Keeps (pure a : Reading σ α) := by
  intro r r' b h
  simp only [pure, EStateM.pure, EStateM.Result.ok.injEq] at h
  exact h.2 ▸ Nat.le_refl _

theorem keeps_peek : Keeps (peek : Reading σ Token) := by
  intro r r' a h
  simp only [peek_apply, EStateM.Result.ok.injEq] at h
  exact h.2 ▸ Nat.le_refl _

theorem keeps_spanFrom (start : Token) : Keeps (spanFrom start : Reading σ Span) := by
  intro r r' a h
  simp only [spanFrom, EStateM.Result.ok.injEq] at h
  exact h.2 ▸ Nat.le_refl _

theorem shrinks_fail (fault : SyntaxFault) : Shrinks (fail fault : Reading σ α) := by
  intro r r' a h
  simp [fail] at h

theorem keeps_advance : Keeps (advance : Reading σ Token) := by
  intro r r' a h
  cases hend : r.lookahead.isEnd with
  | false => exact Nat.le_of_lt (remaining_advance h hend)
  | true =>
    simp only [advance, hend, if_true, EStateM.Result.ok.injEq] at h
    rw [← h.2]
    exact Nat.le_refl _

theorem Keeps.bind {x : Reading σ α} {f : α → Reading σ β} (hx : Keeps x)
    (hf : ∀ a, Keeps (f a)) : Keeps (x >>= f) := by
  intro r r' b h
  obtain ⟨a, r₁, h₁, h₂⟩ := bind_eq_ok.1 h
  exact Nat.le_trans (hf a _ _ _ h₂) (hx _ _ _ h₁)

theorem Shrinks.bind {x : Reading σ α} {f : α → Reading σ β} (hx : Shrinks x)
    (hf : ∀ a, Keeps (f a)) : Shrinks (x >>= f) := by
  intro r r' b h
  obtain ⟨a, r₁, h₁, h₂⟩ := bind_eq_ok.1 h
  exact Nat.lt_of_le_of_lt (hf a _ _ _ h₂) (hx _ _ _ h₁)

/-- A reading that starts by consuming a token takes at least one, before the end of input. -/
theorem remaining_advance_bind {f : Token → Reading σ α} {r r' : Reader σ} {a : α}
    (hf : ∀ t, Keeps (f t)) (h : (advance >>= f) r = .ok a r')
    (hend : r.lookahead.isEnd = false) : r'.remaining < r.remaining := by
  obtain ⟨t, r₁, h₁, h₂⟩ := bind_eq_ok.1 h
  exact Nat.lt_of_le_of_lt (hf t _ _ _ h₂) (remaining_advance h₁ hend)

theorem keeps_expect (kind : Kind) : Keeps (expect kind : Reading σ Token) :=
  keeps_peek.bind fun token => by
    split
    · exact keeps_advance
    · exact (shrinks_fail _).keeps

theorem keeps_branchWord (word : Keyword) : Keeps (branchWord word : Reading σ Unit) :=
  keeps_peek.bind fun token => by
    split
    · exact keeps_advance.bind fun _ => keeps_pure _
    · exact (shrinks_fail _).keeps

theorem keeps_arguments {argument : Reading σ Expr} (h : Keeps argument) (callee : String)
    (rounds : Nat) : Keeps (arguments argument callee rounds) := by
  induction rounds with
  | zero => exact keeps_pure []
  | succ rounds ih =>
    refine h.bind fun first => keeps_peek.bind fun token => ?_
    split
    · exact keeps_advance.bind fun _ => ih.bind fun _ => keeps_pure _
    · exact keeps_advance.bind fun _ => keeps_pure _
    · exact (shrinks_fail _).keeps

theorem keeps_bounded {loop : Nat → Reading σ α} (h : ∀ rounds, Keeps (loop rounds)) :
    Keeps (bounded loop) :=
  fun r r' a hr => h _ r r' a hr

theorem shrinks_primary {inner : Reading σ Expr} (h : Keeps inner) :
    Shrinks (primary inner) := by
  intro r r' e hr
  simp only [primary, bind_apply, peek_apply] at hr
  cases hnext : r.lookahead.terminal with
  | number value =>
    simp only [hnext] at hr
    exact remaining_advance_bind (fun _ => keeps_pure _) hr (isEnd_eq_false (by simp [hnext]))
  | leftParen =>
    simp only [hnext] at hr
    refine remaining_advance_bind (fun _ => ?_) hr (isEnd_eq_false (by simp [hnext]))
    exact h.bind fun _ => (keeps_expect _).bind fun _ => keeps_pure _
  | identifier name =>
    simp only [hnext] at hr
    refine remaining_advance_bind (fun _ => ?_) hr (isEnd_eq_false (by simp [hnext]))
    refine keeps_peek.bind fun _ => ?_
    split
    · refine keeps_advance.bind fun _ => keeps_peek.bind fun _ => ?_
      split
      · exact keeps_advance.bind fun _ => (keeps_spanFrom _).bind fun _ => keeps_pure _
      · exact (keeps_bounded (keeps_arguments h name)).bind fun _ =>
          (keeps_spanFrom _).bind fun _ => keeps_pure _
    · exact keeps_pure _
  | keyword word =>
    cases word with
    | ifWord =>
      simp only [hnext] at hr
      refine remaining_advance_bind (fun _ => ?_) hr (isEnd_eq_false (by simp [hnext]))
      exact h.bind fun _ => (keeps_branchWord _).bind fun _ => h.bind fun _ =>
        (keeps_branchWord _).bind fun _ => h.bind fun _ =>
          (keeps_spanFrom _).bind fun _ => keeps_pure _
    | _ => simp [hnext, fail] at hr
  | _ => simp [hnext, fail] at hr

theorem keeps_operatorTail_tighten {operand : Reading σ Expr} (h : Keeps operand)
    (rounds : Nat) :
    (∀ lhs least, Keeps (operatorTail operand rounds lhs least)) ∧
      ∀ op rhs, Keeps (tighten operand rounds op rhs) := by
  induction rounds with
  | zero => exact ⟨fun lhs _ => keeps_pure lhs, fun _ rhs => keeps_pure rhs⟩
  | succ rounds ih =>
    constructor
    · intro lhs least
      refine keeps_peek.bind fun _ => ?_
      split
      · exact keeps_pure _
      split
      · exact keeps_pure _
      split
      · exact (shrinks_fail _).keeps
      · exact keeps_advance.bind fun _ => h.bind fun _ => (ih.2 _ _).bind fun _ => ih.1 _ _
    · intro op rhs
      refine Keeps.bind (keeps_peek.bind fun _ => keeps_pure _) fun _ => ?_
      split
      · exact keeps_pure _
      split
      · exact (ih.1 _ _).bind fun _ => ih.2 _ _
      · exact keeps_pure _

theorem shrinks_expression (limit levels : Nat) :
    Shrinks (expression limit levels : Reading σ Expr) := by
  induction levels with
  | zero => exact shrinks_fail _
  | succ levels ih =>
    have hprimary := shrinks_primary ih.keeps
    exact hprimary.bind fun lhs =>
      keeps_bounded fun rounds => (keeps_operatorTail_tighten hprimary.keeps rounds).1 lhs 0

theorem arguments_rounds {argument : Reading σ Expr} (h : Shrinks argument) (callee : String)
    (m n : Nat) (r : Reader σ) (hm : r.remaining < m) (hn : r.remaining < n) :
    arguments argument callee m r = arguments argument callee n r := by
  induction m generalizing n r with
  | zero => omega
  | succ m ih =>
    cases n with
    | zero => omega
    | succ n =>
      simp only [arguments, bind_apply, peek_apply]
      cases ha : argument r with
      | error e r' => rfl
      | ok first r₁ =>
        have h₁ := h _ _ _ ha
        cases hnext : r₁.lookahead.terminal with
        | comma =>
          simp only [hnext, bind_apply]
          cases hb : advance r₁ with
          | error e r' => rfl
          | ok token r₂ =>
            have h₂ := keeps_advance _ _ _ hb
            simp only
            rw [ih n r₂ (by omega) (by omega)]
        | _ => simp only [hnext]

theorem parameters_rounds (name : String) (m n : Nat) (r : Reader σ) (hm : r.remaining < m)
    (hn : r.remaining < n) : parameters name m r = parameters name n r := by
  induction m generalizing n r with
  | zero => omega
  | succ m ih =>
    cases n with
    | zero => omega
    | succ n =>
      simp only [parameters, bind_apply, peek_apply]
      cases hnext : r.lookahead.terminal with
      | comma =>
        simp only [bind_apply]
        cases hb : advance r with
        | error e r' => rfl
        | ok token r₁ =>
          have h₁ := remaining_advance hb (isEnd_eq_false (by simp [hnext]))
          exact ih n r₁ (by omega) (by omega)
      | identifier param =>
        simp only [bind_apply]
        cases hb : advance r with
        | error e r' => rfl
        | ok token r₁ =>
          have h₁ := remaining_advance hb (isEnd_eq_false (by simp [hnext]))
          simp only
          rw [ih n r₁ (by omega) (by omega)]
      | _ => simp only

/-- With nothing ahead but the end of input there is no operator. -/
theorem operator?_eq_none {r : Reader σ} (h : r.remaining = 0) : r.lookahead.operator? = none := by
  unfold remaining at h
  split at h
  · next hend =>
    have hterminal : r.lookahead.terminal = .endOfInput := by simpa [Token.isEnd] using hend
    simp [Token.operator?, hterminal]
  · omega

theorem isEnd_of_operator? {t : Token} {op : Operator} (h : t.operator? = some op) :
    t.isEnd = false := by
  refine isEnd_eq_false fun hterminal => ?_
  simp [Token.operator?, hterminal] at h

theorem operatorTail_zero (operand : Reading σ Expr) (rounds : Nat) (lhs : Expr) (least : Nat)
    {r : Reader σ} (h : r.remaining = 0) : operatorTail operand rounds lhs least r = .ok lhs r := by
  cases rounds with
  | zero => rfl
  | succ rounds => simp [operatorTail, bind_apply, peek_apply, operator?_eq_none h, pure_apply]

/-- A tail takes at least one token when it starts with an operator it may fold. -/
theorem remaining_operatorTail {operand : Reading σ Expr} (h : Keeps operand) {rounds : Nat}
    {lhs e : Expr} {least : Nat} {op : Operator} {r r' : Reader σ} (hrounds : 0 < rounds)
    (hop : r.lookahead.operator? = some op) (hleast : least ≤ op.precedence)
    (hbinary : op.isBinary = true) (hr : operatorTail operand rounds lhs least r = .ok e r') :
    r'.remaining < r.remaining := by
  cases rounds with
  | zero => omega
  | succ rounds =>
    rw [operatorTail, bind_apply, peek_apply] at hr
    simp only [hop, hbinary, Nat.not_lt.2 hleast, Bool.not_true, Bool.false_eq_true,
      if_false] at hr
    refine remaining_advance_bind (fun _ => ?_) hr (isEnd_of_operator? hop)
    have htail := keeps_operatorTail_tighten h rounds
    exact h.bind fun _ => (htail.2 _ _).bind fun _ => htail.1 _ _

theorem operatorTail_tighten_rounds {operand : Reading σ Expr} (h : Shrinks operand)
    (m : Nat) :
    (∀ n lhs least (r : Reader σ), r.remaining ≤ m → r.remaining ≤ n →
      operatorTail operand m lhs least r = operatorTail operand n lhs least r) ∧
    ∀ n op rhs (r : Reader σ), r.remaining < m → r.remaining < n →
      tighten operand m op rhs r = tighten operand n op rhs r := by
  induction m with
  | zero =>
    refine ⟨fun n lhs least r hm _ => ?_, fun n op rhs r hm => by omega⟩
    rw [operatorTail_zero operand 0 lhs least (by omega),
      operatorTail_zero operand n lhs least (by omega)]
  | succ m ih =>
    constructor
    · intro n lhs least r hm hn
      cases n with
      | zero =>
        rw [operatorTail_zero operand 0 lhs least (by omega),
          operatorTail_zero operand (m + 1) lhs least (by omega)]
      | succ n =>
        simp only [operatorTail, bind_apply, peek_apply]
        cases hop : r.lookahead.operator? with
        | none => rfl
        | some op =>
          simp only
          split
          · rfl
          split
          · rfl
          simp only [bind_apply]
          cases ha : advance r with
          | error e r' => rfl
          | ok token r₁ =>
            have h₁ := remaining_advance ha (isEnd_of_operator? hop)
            simp only
            cases hb : operand r₁ with
            | error e r' => rfl
            | ok rhs r₂ =>
              have h₂ := h _ _ _ hb
              simp only
              rw [ih.2 n op rhs r₂ (by omega) (by omega)]
              cases hc : tighten operand n op rhs r₂ with
              | error e r' => rfl
              | ok rhs' r₃ =>
                have h₃ := (keeps_operatorTail_tighten h.keeps n).2 _ _ _ _ _ hc
                exact ih.1 n _ least r₃ (by omega) (by omega)
    · intro n op rhs r hm hn
      cases n with
      | zero => omega
      | succ n =>
        simp only [tighten, binaryOperatorAhead, bind_apply, peek_apply, pure_apply]
        cases hop : r.lookahead.operator? with
        | none => rfl
        | some ahead =>
          cases hbinary : ahead.isBinary with
          | false => rw [Option.filter_some_neg (by simp [hbinary])]
          | true =>
            rw [Option.filter_some_pos (by simp [hbinary])]
            simp only
            split
            · next hlt =>
              have hpos : 0 < r.remaining := by
                simp [remaining, isEnd_of_operator? hop]
              rw [bind_apply, bind_apply, ih.1 n rhs _ r (by omega) (by omega)]
              cases ha : operatorTail operand n rhs (op.precedence + 1) r with
              | error e r' => rfl
              | ok rhs' r₁ =>
                have h₁ := remaining_operatorTail h.keeps (by omega) hop hlt hbinary ha
                exact ih.2 n op rhs' r₁ (by omega) (by omega)
            · rfl

end ExprLang.Reader
