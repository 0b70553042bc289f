import ExprLang.Proofs.Climbing

/-!
# What is read is derivable

Whenever a reading succeeds, the tokens it consumed derive the tree it returns, with its spans,
and no more expressions were open at once than there were levels. The token it stops at cannot
go on with what was read.
-/
namespace ExprLang

/-- `ts` is an operand with the tree `e`, and `next` behind it neither opens a call nor, after a
conditional, goes on with its else branch. -/
def OperandOf (levels : Nat) (e : Expr) (ts : List Token) (next : Token) : Prop :=
  ClosedBefore next ts ∧ ∃ d ≤ levels,
    Derives (.operand e) d ts ∨ Derives (.conditional e) d ts ∧ next.operator? = none

def ExpressionOf (levels : Nat) (e : Expr) (ts : List Token) (next : Token) : Prop :=
  EndsBefore next ts ∧ ∃ d ≤ levels, Derives (.expression e) d ts

theorem OperandOf.generates {levels : Nat} {x : Expr} {ts : List Token} {next : Token}
    (h : OperandOf levels x ts next) : Grammar.Generates .primary (terminals ts) := by
  obtain ⟨_, d, _, hoperand | ⟨hconditional, _⟩⟩ := h
  · exact hoperand.generates
  · exact hconditional.generates

theorem Token.kind_eq_rightParen {t : Token} : t.kind = .rightParen ↔ t.terminal = .rightParen := by
  cases h : t.terminal <;> simp [Token.kind, Terminal.kind, h]

theorem Token.kind_eq_keyword {t : Token} {word : Keyword} :
    t.kind = .keyword word ↔ t.terminal = .keyword word := by
  cases h : t.terminal <;> simp [Token.kind, Terminal.kind, h]

theorem Token.operator?_eq_some {t : Token} {op : Operator} :
    t.operator? = some op ↔ t.terminal = .operator op := by
  cases h : t.terminal <;> simp [Token.operator?, h]

namespace Reader

variable {σ : Type} [TokenSource σ] {inner operand : Reading σ Expr} {levels : Nat}
  {r r' : Reader σ} {e : Expr}

theorem Consumes.span_eq {t : Token} {ts : List Token} (h : Consumes r (t :: ts) r') :
    some ⟨t.location, (r'.consumed.headD t).location⟩ = Span.over (t :: ts) := by
  rw [h.headD_consumed]
  rfl

def ReadsOperands (levels : Nat) (operand : Reading σ Expr) : Prop :=
  ∀ r e r', operand r = .ok e r' → ∃ ts, Consumes r ts r' ∧ OperandOf levels e ts r'.lookahead

def ReadsExpressions (levels : Nat) (inner : Reading σ Expr) : Prop :=
  ∀ r e r', inner r = .ok e r' → ∃ ts, Consumes r ts r' ∧ ExpressionOf levels e ts r'.lookahead

theorem expect_eq_ok {kind : Kind} {t : Token} :
    (expect kind : Reading σ Token) r = .ok t r' ↔
      r.lookahead.kind = kind ∧ advance r = .ok t r' := by
  simp only [expect, bind_apply, peek_apply]
  by_cases h : r.lookahead.kind = kind <;> simp [h, fail_ne_ok]

theorem branchWord_eq_ok {word : Keyword} {u : Unit} :
    (branchWord word : Reading σ Unit) r = .ok u r' ↔
      r.lookahead.terminal = .keyword word ∧ ∃ t, advance r = .ok t r' := by
  simp only [branchWord, bind_apply, peek_apply, ← Token.kind_eq_keyword]
  by_cases h : r.lookahead.kind = .keyword word
  · simp only [h, if_true, bind_eq_ok, pure_eq_ok, true_and]
    constructor
    · rintro ⟨t, _, hadvance, rfl⟩
      exact ⟨t, hadvance⟩
    · rintro ⟨t, hadvance⟩
      exact ⟨t, r', hadvance, rfl⟩
  · simp [h, fail_ne_ok]

/-- The arguments after an opening parenthesis, when there is at least one. -/
theorem derives_arguments (h : ReadsExpressions levels inner) {callee : String} {rounds : Nat}
    {es : List Expr} (hr : r.remaining < rounds)
    (hok : arguments inner callee rounds r = .ok es r') :
    ∃ ts close, Consumes r (ts ++ [close]) r' ∧ close.terminal = .rightParen ∧ es ≠ [] ∧
      ∃ d ≤ levels, Derives (.arguments es) d ts := by
  induction rounds generalizing r es with
  | zero => omega
  | succ rounds ih =>
    simp only [arguments, bind_eq_ok, peek_bind] at hok
    obtain ⟨first, r₁, hfirst, hok⟩ := hok
    obtain ⟨ts, hts, _, d, hd, hderives⟩ := h _ _ _ hfirst
    have hlt := hts.remaining_le
    cases hnext : r₁.lookahead.terminal with
    | comma =>
      simp only [hnext, bind_eq_ok, pure_eq_ok] at hok
      obtain ⟨c, r₂, hadvance, others, r₃, hothers, rfl, rfl⟩ := hok
      have hc := consumes_advance hadvance (by simp [hnext])
      have hlt' := hc.remaining_le
      simp only [List.length_singleton] at hlt'
      obtain ⟨us, close, hus, hclose, hne, d', hd', hderives'⟩ := ih (by omega) hothers
      refine ⟨ts ++ c :: us, close, ?_, hclose, by simp, max d d', by omega, ?_⟩
      · simpa using (hts.trans hc).trans hus
      · cases others with
        | nil => contradiction
        | cons x others =>
          exact .nextArgument ((advance_eq_ok hadvance).1 ▸ hnext) hderives hderives'
    | rightParen =>
      simp only [hnext, bind_eq_ok, pure_eq_ok] at hok
      obtain ⟨close, r₂, hadvance, rfl, rfl⟩ := hok
      refine ⟨ts, close, hts.trans (consumes_advance hadvance (by simp [hnext])), ?_, by simp, d,
        hd, .lastArgument hderives⟩
      exact (advance_eq_ok hadvance).1 ▸ hnext
    | _ => simp [hnext, fail_ne_ok] at hok

theorem operandOf_nameOrCall (h : ReadsExpressions levels inner) {name : String}
    (hname : r.lookahead.terminal = .identifier name) (hok : nameOrCall inner name r = .ok e r') :
    ∃ ts, Consumes r ts r' ∧ OperandOf levels e ts r'.lookahead := by
  simp only [nameOrCall, bind_eq_ok, peek_bind] at hok
  obtain ⟨t, r₁, hadvance, hok⟩ := hok
  have ht := consumes_advance hadvance (by simp [hname])
  have hterminal : t.terminal = .identifier name := (advance_eq_ok hadvance).1 ▸ hname
  cases hleft : r₁.lookahead.terminal with
  | leftParen =>
    simp only [hleft, bind_eq_ok, peek_bind] at hok
    obtain ⟨l, r₂, hadvance', hok⟩ := hok
    have hl := ht.trans (consumes_advance hadvance' (by simp [hleft]))
    have hlparen : l.terminal = .leftParen := (advance_eq_ok hadvance').1 ▸ hleft
    cases hright : r₂.lookahead.terminal with
    | rightParen =>
      simp only [hright, bind_eq_ok, spanFrom_bind, pure_eq_ok] at hok
      obtain ⟨close, r₃, hadvance'', rfl, rfl⟩ := hok
      have hall := hl.trans (consumes_advance hadvance'' (by simp [hright]))
      have hclose : close.terminal = .rightParen := (advance_eq_ok hadvance'').1 ▸ hright
      refine ⟨_, hall, closedBefore_snoc [t, l] (by simp [hclose, Terminal.isName]), 0, by omega,
        .inl ?_⟩
      rw [hall.span_eq]
      exact .call hterminal hlparen hclose .noArgument
    | _ =>
      simp only [hright, bind_eq_ok, spanFrom_bind, pure_eq_ok, bounded_eq] at hok
      obtain ⟨es, r₃, hargs, rfl, rfl⟩ := hok
      obtain ⟨ts, close, hts, hclose, _, d, hd, hderives⟩ := derives_arguments h (by omega) hargs
      have hall := hl.trans hts
      refine ⟨t :: l :: (ts ++ [close]), hall,
        closedBefore_snoc (t :: l :: ts) (by simp [hclose, Terminal.isName]), d, hd, .inl ?_⟩
      rw [hall.span_eq]
      exact .call hterminal hlparen hclose hderives
  | _ =>
    simp only [hleft, pure_eq_ok] at hok
    obtain ⟨rfl, rfl⟩ := hok
    exact ⟨[t], ht, fun _ => by simp [hleft], 0, by omega, .inl (.reference hterminal)⟩

theorem operandOf_grouping (h : ReadsExpressions levels inner)
    (hleft : r.lookahead.terminal = .leftParen) (hok : grouping inner r = .ok e r') :
    ∃ ts, Consumes r ts r' ∧ OperandOf levels e ts r'.lookahead := by
  simp only [grouping, bind_eq_ok, expect_eq_ok, pure_eq_ok] at hok
  obtain ⟨l, r₁, hadvance, e, r₂, hinner, close, r₃, ⟨hright, hadvance'⟩, rfl, rfl⟩ := hok
  obtain ⟨ts, hts, _, d, hd, hderives⟩ := h _ _ _ hinner
  have hl := consumes_advance hadvance (by simp [hleft])
  have hright := Token.kind_eq_rightParen.1 hright
  have hc := consumes_advance hadvance' (by simp [hright])
  have hclose : close.terminal = .rightParen := (advance_eq_ok hadvance').1 ▸ hright
  refine ⟨l :: (ts ++ [close]), (hl.trans (hts.trans hc)),
    closedBefore_snoc (l :: ts) (by simp [hclose, Terminal.isName]), d, hd, .inl ?_⟩
  exact .group ((advance_eq_ok hadvance).1 ▸ hleft) hclose hderives

theorem operandOf_conditional (h : ReadsExpressions levels inner)
    (hif : r.lookahead.terminal = .keyword .ifWord) (hok : conditional inner r = .ok e r') :
    ∃ ts, Consumes r ts r' ∧ OperandOf levels e ts r'.lookahead := by
  simp only [conditional, bind_eq_ok, branchWord_eq_ok, spanFrom_bind, pure_eq_ok] at hok
  obtain ⟨i, r₁, hi, p, r₂, hp, _, r₃, ⟨hthen, t, ht⟩, a, r₄, ha, _, r₅, ⟨helse, k, hk⟩, b, r₆, hb,
    rfl, rfl⟩ := hok
  obtain ⟨ps, hps, _, dp, hdp, hderivesp⟩ := h _ _ _ hp
  obtain ⟨as, has, _, da, hda, hderivesa⟩ := h _ _ _ ha
  obtain ⟨bs, hbs, hend, db, hdb, hderivesb⟩ := h _ _ _ hb
  have hi' := consumes_advance hi (by simp [hif])
  have ht' := consumes_advance ht (by simp [hthen])
  have hk' := consumes_advance hk (by simp [helse])
  have hall : Consumes r (i :: (ps ++ t :: (as ++ k :: bs))) r₆ := by
    simpa using hi'.trans (hps.trans (ht'.trans (has.trans (hk'.trans hbs))))
  have hclosed : ClosedBefore r₆.lookahead (i :: (ps ++ t :: (as ++ k :: bs))) := by
    simpa using hend.2.append (i :: (ps ++ t :: (as ++ [k]))) hderivesb.depth_le.2
  refine ⟨_, hall, hclosed, max dp (max da db), by omega, .inr ⟨?_, hend.1⟩⟩
  rw [hall.span_eq]
  exact .conditional ((advance_eq_ok hi).1 ▸ hif) ((advance_eq_ok ht).1 ▸ hthen)
    ((advance_eq_ok hk).1 ▸ helse) hderivesp hderivesa hderivesb

theorem readsOperands_primary (h : ReadsExpressions levels inner) :
    ReadsOperands levels (primary inner) := by
  intro r e r' hok
  simp only [primary, bind_apply, peek_apply] at hok
  cases hnext : r.lookahead.terminal with
  | number value =>
    simp only [hnext, bind_eq_ok, pure_eq_ok] at hok
    obtain ⟨t, r₁, hadvance, rfl, rfl⟩ := hok
    have hterminal : t.terminal = .number value := (advance_eq_ok hadvance).1 ▸ hnext
    exact ⟨[t], consumes_advance hadvance (by simp [hnext]),
      closedBefore_snoc [] (by simp [hterminal, Terminal.isName]), 0, by omega,
      .inl (.number hterminal)⟩
  | leftParen => exact operandOf_grouping h hnext (by simpa only [hnext] using hok)
  | identifier name => exact operandOf_nameOrCall h hnext (by simpa only [hnext] using hok)
  | keyword word =>
    cases word with
    | ifWord => exact operandOf_conditional h hnext (by simpa only [hnext] using hok)
    | _ => simp [hnext, fail_ne_ok] at hok
  | _ => simp [hnext, fail_ne_ok] at hok

theorem derives_chain (h : ReadsOperands levels operand) {first : Expr} {ts : List Token}
    {rest : List (Operator × Expr)} (hlinks : Links operand r rest r')
    (hfirst : OperandOf levels first ts r.lookahead) :
    ∃ us, Consumes r us r' ∧ ClosedBefore r'.lookahead (ts ++ us) ∧
      ∃ d ≤ levels, Derives (.chain first rest) d (ts ++ us) := by
  induction hlinks generalizing first ts with
  | nil r =>
    obtain ⟨hclosed, d, hd, hoperand | ⟨hconditional, _⟩⟩ := hfirst
    · exact ⟨[], .nil r, by simpa using hclosed, d, hd, by simpa using hoperand.lastOperand⟩
    · exact ⟨[], .nil r, by simpa using hclosed, d, hd, by simpa using hconditional.lastConditional⟩
  | @cons r r₁ r₂ r' o op x rest hop binary hadvance hx _ ih =>
    obtain ⟨_, d, hd, hoperand | ⟨_, hnone⟩⟩ := hfirst
    · obtain ⟨xs, hxs, hoperand'⟩ := h _ _ _ hx
      obtain ⟨us, hus, hclosed, d', hd', hchain⟩ := ih hoperand'
      have hterminal := Token.operator?_eq_some.1 hop
      have ho := consumes_advance hadvance (by simp [hterminal])
      have hne : xs ++ us ≠ [] := List.ne_nil_of_length_pos (Nat.zero_lt_of_lt hchain.depth_le)
      refine ⟨o :: (xs ++ us), ho.trans (hxs.trans hus), ?_, max d d', by omega, ?_⟩
      · simpa using hclosed.append (ts ++ [o]) hne
      · exact .link ((advance_eq_ok hadvance).1 ▸ hterminal) binary hoperand hchain
    · rw [hop] at hnone
      contradiction

theorem readsExpressions_expression (limit levels : Nat) :
    ReadsExpressions levels (expression limit levels : Reading σ Expr) := by
  induction levels with
  | zero =>
    intro r e r' hok
    exact absurd hok fail_ne_ok
  | succ levels ih =>
    intro r e r' hok
    have hoperands := readsOperands_primary ih
    simp only [expression, bind_eq_ok, bounded_eq] at hok
    obtain ⟨first, r₁, hfirst, htail⟩ := hok
    obtain ⟨ts, hts, hoperand⟩ := hoperands _ _ _ hfirst
    obtain ⟨rest, hlinks, htree, hend⟩ := links_of_operatorTail
      (shrinks_primary (shrinks_expression limit levels).keeps) (Nat.le_succ _) htail
    obtain ⟨us, hus, hclosed, d, hd, hchain⟩ := derives_chain hoperands hlinks hoperand
    exact ⟨ts ++ us, hts.trans hus, ⟨hend, hclosed⟩, d + 1, by omega, .expression hchain htree⟩

theorem derivesParameters_parameters {name : String} {rounds : Nat} {params : List String}
    (hr : r.remaining < rounds) (hok : parameters name rounds r = .ok params r') :
    ∃ ts close, Consumes r (ts ++ [close]) r' ∧ close.terminal = .rightParen ∧
      DerivesParameters params ts := by
  induction rounds generalizing r params with
  | zero => omega
  | succ rounds ih =>
    simp only [parameters, peek_bind] at hok
    cases hnext : r.lookahead.terminal with
    | comma =>
      simp only [hnext, bind_eq_ok] at hok
      obtain ⟨c, r₁, hadvance, hok⟩ := hok
      have hc := consumes_advance hadvance (by simp [hnext])
      have hlt := hc.remaining_le
      simp only [List.length_singleton] at hlt
      obtain ⟨ts, close, hts, hclose, hparams⟩ := ih (by omega) hok
      exact ⟨c :: ts, close, hc.trans hts, hclose,
        .comma ((advance_eq_ok hadvance).1 ▸ hnext) hparams⟩
    | identifier param =>
      simp only [hnext, bind_eq_ok, pure_eq_ok] at hok
      obtain ⟨n, r₁, hadvance, others, r₂, hok, rfl, rfl⟩ := hok
      have hn := consumes_advance hadvance (by simp [hnext])
      have hlt := hn.remaining_le
      simp only [List.length_singleton] at hlt
      obtain ⟨ts, close, hts, hclose, hparams⟩ := ih (by omega) hok
      exact ⟨n :: ts, close, hn.trans hts, hclose,
        .name ((advance_eq_ok hadvance).1 ▸ hnext) hparams⟩
    | rightParen =>
      simp only [hnext, bind_eq_ok, pure_eq_ok] at hok
      obtain ⟨close, r₁, hadvance, rfl, rfl⟩ := hok
      exact ⟨[], close, consumes_advance hadvance (by simp [hnext]),
        (advance_eq_ok hadvance).1 ▸ hnext, .nil⟩
    | _ => simp [hnext, fail_ne_ok] at hok

theorem derivesPrototype_prototype {p : Prototype} (hok : prototype r = .ok p r') :
    ∃ ts, Consumes r ts r' ∧ DerivesPrototype p ts := by
  simp only [prototype, peek_bind] at hok
  cases hname : r.lookahead.terminal with
  | identifier name =>
    simp only [hname, bind_eq_ok, peek_bind] at hok
    obtain ⟨n, r₁, hadvance, hok⟩ := hok
    have hn := consumes_advance hadvance (by simp [hname])
    cases hleft : r₁.lookahead.terminal with
    | leftParen =>
      simp only [hleft, bind_eq_ok, spanFrom_bind, pure_eq_ok, bounded_eq] at hok
      obtain ⟨l, r₂, hadvance', params, r₃, hparams, rfl, rfl⟩ := hok
      obtain ⟨ts, close, hts, hclose, hderives⟩ := derivesParameters_parameters (by omega) hparams
      have hall := (hn.trans (consumes_advance hadvance' (by simp [hleft]))).trans hts
      refine ⟨n :: l :: (ts ++ [close]), hall, ?_⟩
      rw [hall.span_eq]
      exact .intro ((advance_eq_ok hadvance).1 ▸ hname) ((advance_eq_ok hadvance').1 ▸ hleft)
        hclose hderives
    | _ => simp [hleft, fail_ne_ok] at hok
  | _ => simp [hname, fail_ne_ok] at hok

/-- What holds of a statement that is read: its tokens derive its function, and if it ends in an
expression, the next token cannot go on with that. -/
def ReadsStatement (maxDepth : Nat) (f : Function) (r r' : Reader σ) : Prop :=
  ∃ ts, Consumes r ts r' ∧ (f.body?.isSome = true → EndsBefore r'.lookahead ts) ∧
    ∃ d ≤ maxDepth, DerivesStatement f d ts

variable {maxDepth : Nat} {f : Function}

theorem readsStatement_definition (hnext : r.lookahead.terminal = .keyword .define)
    (hok : definition maxDepth r = .ok f r') : ReadsStatement maxDepth f r r' := by
  simp only [definition, bind_eq_ok, spanFrom_bind, pure_eq_ok] at hok
  obtain ⟨k, r₁, hadvance, p, r₂, hp, b, r₃, hb, rfl, rfl⟩ := hok
  obtain ⟨ps, hps, hprototype⟩ := derivesPrototype_prototype hp
  obtain ⟨bs, hbs, hend, d, hd, hbody⟩ := readsExpressions_expression maxDepth maxDepth _ _ _ hb
  have hall : Consumes r (k :: (ps ++ bs)) r₃ :=
    (consumes_advance hadvance (by simp [hnext])).trans (hps.trans hbs)
  have hclosed : ClosedBefore r₃.lookahead (k :: (ps ++ bs)) := by
    simpa using hend.2.append (k :: ps) hbody.depth_le.2
  refine ⟨_, hall, fun _ => ⟨hend.1, hclosed⟩, d, hd, ?_⟩
  rw [hall.span_eq]
  exact .definition ((advance_eq_ok hadvance).1 ▸ hnext) hprototype hbody

theorem readsStatement_external (hnext : r.lookahead.terminal = .keyword .external)
    (hok : externalDeclaration r = .ok f r') : ReadsStatement maxDepth f r r' := by
  simp only [externalDeclaration, bind_eq_ok, spanFrom_bind, pure_eq_ok] at hok
  obtain ⟨k, r₁, hadvance, p, r₂, hp, rfl, rfl⟩ := hok
  obtain ⟨ps, hps, hprototype⟩ := derivesPrototype_prototype hp
  have hall := (consumes_advance hadvance (by simp [hnext])).trans hps
  refine ⟨k :: ps, hall, by simp [Function.body?], 0, by omega, ?_⟩
  rw [hall.span_eq]
  exact .external ((advance_eq_ok hadvance).1 ▸ hnext) hprototype

theorem readsStatement_topLevelExpression (hok : topLevelExpression maxDepth r = .ok f r') :
    ReadsStatement maxDepth f r r' := by
  simp only [topLevelExpression, bind_eq_ok, spanFrom_bind, pure_eq_ok, peek_bind] at hok
  obtain ⟨b, r₁, hb, rfl, rfl⟩ := hok
  obtain ⟨bs, hbs, hend, d, hd, hbody⟩ := readsExpressions_expression maxDepth maxDepth _ _ _ hb
  refine ⟨bs, hbs, fun _ => hend, d, hd, ?_⟩
  cases bs with
  | nil => exact absurd rfl hbody.depth_le.2
  | cons t bs =>
    rw [hbs.lookahead_eq, hbs.span_eq]
    exact .anonymous hbody

theorem readsStatement_statement (hok : statement maxDepth r = .ok (some f) r') :
    ReadsStatement maxDepth f r r' := by
  simp only [statement, peek_bind] at hok
  cases hnext : r.lookahead.terminal with
  | endOfInput => simp [hnext, pure_eq_ok] at hok
  | keyword word =>
    cases word with
    | define => exact readsStatement_definition hnext (by simpa [hnext, map_some_eq_ok] using hok)
    | external => exact readsStatement_external hnext (by simpa [hnext, map_some_eq_ok] using hok)
    | _ => exact readsStatement_topLevelExpression (by simpa [hnext, map_some_eq_ok] using hok)
  | _ => exact readsStatement_topLevelExpression (by simpa [hnext, map_some_eq_ok] using hok)

end Reader
end ExprLang
