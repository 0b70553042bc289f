import ExprLang.Proofs.Completeness
import ExprLang.Proofs.Nesting

/-!
# Nesting too deep

Tokens that derive a phrase are read up to the first one that is inside more open expressions
than there are levels of nesting, and reading fails there, in front of the expression that one
level too many would have to be opened for.
-/
namespace ExprLang.Reader

variable {σ : Type} [TokenSource σ] {limit levels : Nat} {r r' r₁ r₂ : Reader σ}

def tooDeep (limit : Nat) (r : Reader σ) : Failure :=
  .grammar (SyntaxError.ofFault (.nestingTooDeep limit) r.lookahead)

/-- At `r₁` the phrase that begins at `r` is nested too deep. Arguments are read up to there
whatever the number of rounds that is left for them. -/
def Overflows (limit levels : Nat) (r r₁ : Reader σ) : Phrase → Prop
  | .operand _ | .conditional _ =>
      primary (expression limit levels) r = .error (tooDeep limit r₁) r₁
  | .chain _ _ => primary (expression limit levels) r = .error (tooDeep limit r₁) r₁ ∨
      ∃ first r₂, primary (expression limit levels) r = .ok first r₂ ∧
        Breaks (primary (expression limit levels)) r₂ (tooDeep limit r₁) r₁
  | .expression _ => expression limit levels r = .error (tooDeep limit r₁) r₁
  | .arguments _ => ∀ callee rounds, r.remaining < rounds →
      arguments (expression limit levels) callee rounds r = .error (tooDeep limit r₁) r₁

/-- Around a token that is in no inner expression: what comes before it is nested too deep already,
or that and the token are consumed and what comes behind is nested too deep. -/
theorem shallow_cases {ks ls : List Nat} {ts us : List Token} {t : Token}
    (hlength : ks.length = ts.length) (hdeep : levels < deepest (ks ++ 0 :: ls))
    (hts : Consumes r (ts ++ t :: us) r')
    (hr₁ : Consumes r (shallow levels (ks ++ 0 :: ls) (ts ++ t :: us)) r₁) :
    ∃ r₂, Consumes r ts r₂ ∧ r₂.lookahead = t ∧
      ((levels < deepest ks ∧ Consumes r (shallow levels ks ts) r₁) ∨
        (deepest ks ≤ levels ∧ levels < deepest ls ∧ ∃ r₃, advance r₂ = .ok t r₃ ∧
          Consumes r₃ us r' ∧ Consumes r₃ (shallow levels ls us) r₁)) := by
  by_cases hfront : levels < deepest ks
  · obtain ⟨r₂, hts, hrest⟩ := Consumes.append_iff.1 hts
    rw [shallow_append_of_lt hlength hfront] at hr₁
    exact ⟨r₂, hts, hrest.lookahead_eq, .inl ⟨hfront, hr₁⟩⟩
  · have hle := Nat.not_lt.1 hfront
    have hbehind : levels < deepest ls := by
      rw [deepest_append, deepest_cons] at hdeep
      omega
    rw [shallow_append_of_le hlength hle, shallow_cons (Nat.zero_le _)] at hr₁
    obtain ⟨r₂, hts, hrest, hr₁⟩ := hts.fork hr₁
    obtain ⟨r₃, hadvance, hus, hr₁⟩ := hrest.fork_cons hr₁
    exact ⟨r₂, hts, hrest.lookahead_eq, .inr ⟨hle, hbehind, r₃, hadvance, hus, hr₁⟩⟩

theorem overflows_call {t l : Token} {callee : String} {us vs : List Token} (es : List Expr)
    (ht : t.terminal = .identifier callee) (hl : l.terminal = .leftParen)
    (hts : Consumes r (t :: l :: us) r') (hr₁ : Consumes r (t :: l :: vs) r₁)
    (ih : ∀ r₂, Consumes r₂ us r' → Consumes r₂ vs r₁ → r₂.lookahead.terminal ≠ .rightParen ∧
      Overflows limit levels r₂ r₁ (.arguments es)) (e : Expr) :
    Overflows limit levels r r₁ (.operand e) := by
  have hnext : r.lookahead.terminal = .identifier callee := hts.lookahead_eq ▸ ht
  obtain ⟨r₂, hadvance, hts, hr₁⟩ := hts.fork_cons hr₁
  have hleft : r₂.lookahead.terminal = .leftParen := hts.lookahead_eq ▸ hl
  obtain ⟨r₃, hadvance', hts, hr₁⟩ := hts.fork_cons hr₁
  obtain ⟨hne, hargs⟩ := ih r₃ hts hr₁
  simp only [Overflows, primary, nameOrCall, bind_apply, peek_apply, hnext, hadvance, hleft,
    hadvance']
  cases h : r₃.lookahead.terminal with
  | rightParen => contradiction
  | _ => simp only [bounded_eq, hargs callee _ (Nat.lt_succ_self _)]

theorem overflows_group {l : Token} {e : Expr} {us vs : List Token}
    (hl : l.terminal = .leftParen) (hts : Consumes r (l :: us) r')
    (hr₁ : Consumes r (l :: vs) r₁)
    (ih : ∀ r₂, Consumes r₂ us r' → Consumes r₂ vs r₁ →
      Overflows limit levels r₂ r₁ (.expression e)) :
    Overflows limit levels r r₁ (.operand e) := by
  have hnext : r.lookahead.terminal = .leftParen := hts.lookahead_eq ▸ hl
  obtain ⟨r₂, hadvance, hts, hr₁⟩ := hts.fork_cons hr₁
  have hinner : expression limit levels r₂ = .error (tooDeep limit r₁) r₁ := ih r₂ hts hr₁
  simp only [Overflows, primary, bind_apply, peek_apply, hnext, grouping, hadvance, hinner]

theorem overflows_conditional {i t e : Token} {kp ka kb : List Nat} {p a : Expr}
    {ps as bs : List Token} (hi : i.terminal = .keyword .ifWord)
    (ht : t.terminal = .keyword .thenWord) (he : e.terminal = .keyword .elseWord)
    (predicate : Nests (.expression p) kp ps) (thenBranch : Nests (.expression a) ka as)
    (hdeep : levels < deepest (kp ++ 0 :: (ka ++ 0 :: kb)))
    (hts : Consumes r (i :: (ps ++ t :: (as ++ e :: bs))) r')
    (hr₁ : Consumes r (shallow levels (0 :: (kp ++ 0 :: (ka ++ 0 :: kb)))
      (i :: (ps ++ t :: (as ++ e :: bs)))) r₁)
    (ihp : ∀ {r r' : Reader σ}, levels < deepest kp → Consumes r ps r' →
      Consumes r (shallow levels kp ps) r₁ →
      expression limit levels r = .error (tooDeep limit r₁) r₁)
    (iha : ∀ {r r' : Reader σ}, levels < deepest ka → Consumes r as r' →
      Consumes r (shallow levels ka as) r₁ →
      expression limit levels r = .error (tooDeep limit r₁) r₁)
    (ihb : ∀ {r r' : Reader σ}, levels < deepest kb → Consumes r bs r' →
      Consumes r (shallow levels kb bs) r₁ →
      expression limit levels r = .error (tooDeep limit r₁) r₁)
    (x : Expr) : Overflows limit levels r r₁ (.conditional x) := by
  have hif : r.lookahead.terminal = .keyword .ifWord := hts.lookahead_eq ▸ hi
  rw [shallow_cons (Nat.zero_le _)] at hr₁
  obtain ⟨r₂, hadvance, hts, hr₁⟩ := hts.fork_cons hr₁
  simp only [Overflows, primary, bind_apply, peek_apply, hif, conditional, hadvance]
  obtain ⟨r₃, hps, rfl, ⟨hp, hr₁⟩ | ⟨hp, hdeep, r₄, hadvance, hts, hr₁⟩⟩ :=
    shallow_cases predicate.length_eq hdeep hts hr₁
  · simp only [ihp hp hps hr₁]
  have hpredicate : expression limit levels r₂ = .ok p r₃ :=
    expression_of_derives predicate.derives hp hps
      (endsBefore_of_ne ps (by simp [ht]) (by simp [ht]))
  simp only [hpredicate, branchWord_of_lookahead ht hadvance]
  obtain ⟨r₅, has, rfl, ⟨ha, hr₁⟩ | ⟨ha, hb, r₆, hadvance, hbs, hr₁⟩⟩ :=
    shallow_cases thenBranch.length_eq hdeep hts hr₁
  · simp only [iha ha has hr₁]
  have hthenBranch : expression limit levels r₄ = .ok a r₅ :=
    expression_of_derives thenBranch.derives ha has
      (endsBefore_of_ne as (by simp [he]) (by simp [he]))
  simp only [hthenBranch, branchWord_of_lookahead he hadvance, ihb hb hbs hr₁]

theorem overflows_link {o : Token} {op : Operator} {e x : Expr} {rest : List (Operator × Expr)}
    {ks ls : List Nat} {ts us : List Token} (ho : o.terminal = .operator op)
    (binary : op.isBinary = true) (first : Nests (.operand e) ks ts)
    (hdeep : levels < deepest (ks ++ 0 :: ls)) (hts : Consumes r (ts ++ o :: us) r')
    (hr₁ : Consumes r (shallow levels (ks ++ 0 :: ls) (ts ++ o :: us)) r₁)
    (ih : ∀ {r r' : Reader σ}, levels < deepest ks → Consumes r ts r' →
      Consumes r (shallow levels ks ts) r₁ → Overflows limit levels r r₁ (.operand e))
    (ihs : ∀ {r r' : Reader σ}, levels < deepest ls → Consumes r us r' →
      Consumes r (shallow levels ls us) r₁ → Overflows limit levels r r₁ (.chain x rest)) :
    Overflows limit levels r r₁ (.chain e ((op, x) :: rest)) := by
  obtain ⟨r₂, hbefore, rfl, ⟨hfirst, hr₁⟩ | ⟨hfirst, hothers, r₃, hadvance, hus, hr₁⟩⟩ :=
    shallow_cases first.length_eq hdeep hts hr₁
  · exact .inl (ih hfirst hbefore hr₁)
  have hoperand : primary (expression limit levels) r = .ok e r₂ :=
    delivers_of_derives first.derives hfirst hbefore fun _ => by simp [ho]
  have hop : r₂.lookahead.operator? = some op := Token.operator?_eq_some.2 ho
  refine .inr ⟨e, r₂, hoperand, ?_⟩
  rcases ihs hothers hus hr₁ with hnext | ⟨x', r₄, hx, hbreaks⟩
  · exact .next hop binary (bind_eq_error.2 (.inr ⟨_, r₃, hadvance, hnext⟩))
  · exact .later hop binary hadvance hx hbreaks

theorem overflows_expression {first e : Expr} {rest : List (Operator × Expr)}
    (h : Overflows limit levels r r₁ (.chain first rest)) :
    Overflows limit (levels + 1) r r₁ (.expression e) := by
  simp only [Overflows, expression, bind_apply]
  rcases h with hfirst | ⟨x, r₂, hx, hbreaks⟩
  · rw [hfirst]
  · have hshrinks : Shrinks (primary (expression limit levels) : Reading σ Expr) :=
      shrinks_primary (shrinks_expression limit levels).keeps
    rw [hx]
    exact operatorTail_of_breaks hshrinks (Nat.le_succ _) hbreaks

theorem overflows_firstArgument {e : Expr} (h : Overflows limit levels r r₁ (.expression e))
    (es : List Expr) : Overflows limit levels r r₁ (.arguments es) := by
  intro callee rounds hrounds
  have he : expression limit levels r = .error (tooDeep limit r₁) r₁ := h
  cases rounds with
  | zero => omega
  | succ rounds => simp only [arguments, bind_apply, he]

theorem overflows_nextArgument {c : Token} {e x : Expr} {es : List Expr} {ks ls : List Nat}
    {ts us : List Token} (hc : c.terminal = .comma) (next : Nests (.expression e) ks ts)
    (hdeep : levels < deepest (ks ++ 0 :: ls)) (hts : Consumes r (ts ++ c :: us) r')
    (hr₁ : Consumes r (shallow levels (ks ++ 0 :: ls) (ts ++ c :: us)) r₁)
    (ih : ∀ {r r' : Reader σ}, levels < deepest ks → Consumes r ts r' →
      Consumes r (shallow levels ks ts) r₁ → Overflows limit levels r r₁ (.expression e))
    (ihs : ∀ {r r' : Reader σ}, levels < deepest ls → Consumes r us r' →
      Consumes r (shallow levels ls us) r₁ → Overflows limit levels r r₁ (.arguments (x :: es))) :
    Overflows limit levels r r₁ (.arguments (e :: x :: es)) := by
  obtain ⟨r₂, hbefore, rfl, ⟨hfirst, hr₁⟩ | ⟨hfirst, hothers, r₃, hadvance, hus, hr₁⟩⟩ :=
    shallow_cases next.length_eq hdeep hts hr₁
  · exact overflows_firstArgument (ih hfirst hbefore hr₁) _
  intro callee rounds hrounds
  have he : expression limit levels r = .ok e r₂ :=
    expression_of_derives next.derives hfirst hbefore
      (endsBefore_of_ne ts (by simp [hc]) (by simp [hc]))
  have hle := hbefore.remaining_le
  have hlt := remaining_advance hadvance (isEnd_eq_false (by simp [hc]))
  cases rounds with
  | zero => omega
  | succ rounds =>
    have hfails := ihs hothers hus hr₁ callee rounds (by omega)
    simp only [arguments, bind_apply, peek_apply, he, hc, hadvance, hfails]

theorem overflows_of_nests {phrase : Phrase} {ks : List Nat} {ts : List Token}
    (h : Nests phrase ks ts) (hdeep : levels < deepest ks) (hts : Consumes r ts r')
    (hr₁ : Consumes r (shallow levels ks ts) r₁) : Overflows limit levels r r₁ phrase := by
  induction h generalizing levels r r' r₁ with
  | number | reference | noArgument => simp at hdeep
  | @call t l close callee es ks ts ht hl _ args ih =>
    have hinner : levels < deepest ks := by simpa using hdeep
    rw [shallow_cons (Nat.zero_le _), shallow_cons (Nat.zero_le _),
      shallow_append_of_lt args.length_eq hinner] at hr₁
    refine overflows_call es ht hl hts hr₁ (fun r₂ hus hvs => ?_) _
    obtain ⟨_, hts, _⟩ := Consumes.append_iff.1 hus
    have hne : es ≠ [] := by
      rintro rfl
      cases args
      simp at hinner
    exact ⟨ne_rightParen_of_derives args.derives hne hts, ih hinner hts hvs⟩
  | @group l close e ks ts hl _ inner ih =>
    have hinner : levels < deepest ks := by simpa using hdeep
    rw [shallow_cons (Nat.zero_le _), shallow_append_of_lt inner.length_eq hinner] at hr₁
    refine overflows_group hl hts hr₁ fun r₂ hus hvs => ?_
    obtain ⟨_, hts, _⟩ := Consumes.append_iff.1 hus
    exact ih hinner hts hvs
  | conditional hi ht he predicate thenBranch _ ihp iha ihb =>
    rw [deepest_zero_cons] at hdeep
    exact overflows_conditional hi ht he predicate thenBranch hdeep hts hr₁ ihp iha ihb _
  | lastOperand _ ih | lastConditional _ ih => exact .inl (ih hdeep hts hr₁)
  | link ho binary first _ ih ihs => exact overflows_link ho binary first hdeep hts hr₁ ih ihs
  | @expression first e rest ks ts chain _ ih =>
    have hne : ks ≠ [] := by
      rintro rfl
      simp at hdeep
    rw [deepest_map_succ hne] at hdeep
    cases levels with
    | zero =>
      rw [shallow_zero_map_succ hne] at hr₁
      obtain rfl := hr₁.eq_of_nil
      rfl
    | succ levels =>
      rw [shallow_map_succ] at hr₁
      exact overflows_expression (ih (by omega) hts hr₁)
  | lastArgument _ ih => exact overflows_firstArgument (ih hdeep hts hr₁) _
  | nextArgument hc next _ ih ihs => exact overflows_nextArgument hc next hdeep hts hr₁ ih ihs

theorem statement_of_nests {maxDepth : Nat} {f : Function} {ks : List Nat} {ts : List Token}
    (h : NestsStatement f ks ts) (hdeep : maxDepth < deepest ks) (hts : Consumes r ts r')
    (hr₁ : Consumes r (shallow maxDepth ks ts) r₁) :
    statement maxDepth r = .error (tooDeep maxDepth r₁) r₁ := by
  cases h with
  | @definition k p e ks ts us hk signature body =>
    have hnext : r.lookahead.terminal = .keyword .define := hts.lookahead_eq ▸ hk
    rw [shallow_cons (Nat.zero_le _), shallow_append_of_le (by simp) (by simp)] at hr₁
    obtain ⟨r₂, hadvance, hts, hr₁⟩ := hts.fork_cons hr₁
    obtain ⟨r₃, hps, hus, hr₁⟩ := hts.fork hr₁
    have hp := prototype_of_derives signature hps
    have hbody : expression maxDepth maxDepth r₃ = .error (tooDeep maxDepth r₁) r₁ :=
      overflows_of_nests body (by simpa using hdeep) hus hr₁
    simp only [statement, bind_apply, peek_apply, hnext]
    rw [map_some_eq_error]
    simp only [definition, bind_apply, hadvance, hp, hbody]
  | external => simp at hdeep
  | @anonymous e _ _ body =>
    obtain ⟨s, hbegin⟩ := beginOperand_of_derives body.derives hts
    have hbody : expression maxDepth maxDepth r = .error (tooDeep maxDepth r₁) r₁ :=
      overflows_of_nests body hdeep hts hr₁
    have htop : topLevelExpression maxDepth r = .error (tooDeep maxDepth r₁) r₁ := by
      simp only [topLevelExpression, bind_apply, peek_apply, hbody]
    rw [statement_eq_topLevelExpression hbegin, map_some_eq_error]
    exact htop

end ExprLang.Reader
