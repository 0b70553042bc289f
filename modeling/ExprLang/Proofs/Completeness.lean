import ExprLang.Proofs.Recognizer
import ExprLang.Proofs.Soundness

/-!
# What is derivable is read

Tokens that derive a tree are read as that tree, when there are enough levels of nesting for the
derivation and the token behind them does not go on with it. Nothing is ever tried and given up,
so reading ends at the place where the derivation does.
-/
namespace ExprLang.Reader

variable {σ : Type} [TokenSource σ] {limit levels : Nat} {r r' : Reader σ}

/-- An operand may start with the first token of an expression. -/
theorem exists_beginOperand {e : Expr} {d : Nat} {t : Token} {ts : List Token}
    (h : Derives (.expression e) d (t :: ts)) :
    ∃ s, Recognizer.beginOperand [] t.terminal = some s := by
  have hreads : Recognizer.Reads true (terminals (t :: ts)) .expression :=
    Recognizer.reads_of_generates true h.generates
  have hrun := hreads.2 []
  rw [terminals_cons, Recognizer.run_cons, Option.bind_eq_some_iff] at hrun
  obtain ⟨s, hstep, _⟩ := hrun
  exact ⟨s, hstep⟩

theorem beginOperand_of_derives {e : Expr} {d : Nat} {ts : List Token}
    (h : Derives (.expression e) d ts) (hts : Consumes r ts r') :
    ∃ s, Recognizer.beginOperand [] r.lookahead.terminal = some s := by
  cases ts with
  | nil => exact absurd rfl h.depth_le.2
  | cons t ts => exact hts.lookahead_eq ▸ exists_beginOperand h

/-- What is read from `r` to `r'` where tokens derive a phrase. Arguments are read together with
the parenthesis that closes them. -/
def Delivers (limit levels : Nat) (r r' : Reader σ) (ts : List Token) : Phrase → Prop
  | .operand e => ClosedBefore r'.lookahead ts → primary (expression limit levels) r = .ok e r'
  | .conditional e => EndsBefore r'.lookahead ts → primary (expression limit levels) r = .ok e r'
  | .chain first rest => EndsBefore r'.lookahead ts →
      ∃ r₁, primary (expression limit levels) r = .ok first r₁ ∧
        Links (primary (expression limit levels)) r₁ rest r'
  | .expression e => EndsBefore r'.lookahead ts → expression limit levels r = .ok e r'
  | .arguments es => es ≠ [] → ∀ callee rounds close r'', r.remaining < rounds →
      r'.lookahead.terminal = .rightParen → advance r' = .ok close r'' →
      arguments (expression limit levels) callee rounds r = .ok es r''

theorem primary_number {t : Token} {value : Int} (ht : t.terminal = .number value)
    (hts : Consumes r [t] r') :
    primary (expression limit levels) r = .ok (.number value (Span.over [t])) r' := by
  obtain ⟨_, r₁, hadvance, hrest⟩ := Consumes.cons_iff.1 hts
  obtain rfl := hrest.eq_of_nil
  have hnext : r.lookahead.terminal = .number value := hts.lookahead_eq ▸ ht
  simp only [primary, bind_apply, peek_apply, hnext, hadvance]
  rfl

theorem primary_reference {t : Token} {name : String} (ht : t.terminal = .identifier name)
    (hts : Consumes r [t] r') (hclosed : r'.lookahead.terminal ≠ .leftParen) :
    primary (expression limit levels) r = .ok (.reference name (Span.over [t])) r' := by
  obtain ⟨_, r₁, hadvance, hrest⟩ := Consumes.cons_iff.1 hts
  obtain rfl := hrest.eq_of_nil
  have hnext : r.lookahead.terminal = .identifier name := hts.lookahead_eq ▸ ht
  simp only [primary, nameOrCall, bind_apply, peek_apply, hnext, hadvance]
  cases h : r₁.lookahead.terminal with
  | leftParen => contradiction
  | _ => rfl

theorem primary_group {l close : Token} {e : Expr} {ts : List Token}
    (hl : l.terminal = .leftParen) (hclose : close.terminal = .rightParen)
    (hts : Consumes r (l :: (ts ++ [close])) r')
    (ih : ∀ r r' : Reader σ, Consumes r ts r' → Delivers limit levels r r' ts (.expression e)) :
    primary (expression limit levels) r = .ok e r' := by
  have hnext : r.lookahead.terminal = .leftParen := hts.lookahead_eq ▸ hl
  obtain ⟨_, r₁, hadvance, hrest⟩ := Consumes.cons_iff.1 hts
  obtain ⟨r₂, hinner, hlast⟩ := Consumes.append_iff.1 hrest
  obtain ⟨_, r₃, hadvance', hrest⟩ := Consumes.cons_iff.1 hlast
  obtain rfl := hrest.eq_of_nil
  have hparen : r₂.lookahead.terminal = .rightParen := hlast.lookahead_eq ▸ hclose
  have he : expression limit levels r₁ = .ok e r₂ :=
    ih r₁ r₂ hinner (endsBefore_of_ne ts (by simp [hparen]) (by simp [hparen]))
  simp only [primary, bind_apply, peek_apply, hnext, grouping, hadvance, he]
  simp only [expect, bind_apply, peek_apply, Token.kind_eq_rightParen.2 hparen, if_true, hadvance']
  rfl

/-- No parenthesis closes a call in front of its arguments. -/
theorem ne_rightParen_of_derives {es : List Expr} {d : Nat} {ts : List Token}
    (h : Derives (.arguments es) d ts) (hne : es ≠ []) (hts : Consumes r ts r') :
    r.lookahead.terminal ≠ .rightParen := by
  obtain ⟨s, hs⟩ : ∃ s, Recognizer.beginOperand [] r.lookahead.terminal = some s := by
    cases h with
    | noArgument => contradiction
    | lastArgument last => exact beginOperand_of_derives last hts
    | nextArgument _ next _ =>
      obtain ⟨_, hfirst, _⟩ := Consumes.append_iff.1 hts
      exact beginOperand_of_derives next hfirst
  intro heq
  simp [heq, Recognizer.beginOperand] at hs

theorem primary_call {t l close : Token} {callee : String} {es : List Expr} {d : Nat}
    {ts : List Token} (ht : t.terminal = .identifier callee) (hl : l.terminal = .leftParen)
    (hclose : close.terminal = .rightParen) (hargs : Derives (.arguments es) d ts)
    (hts : Consumes r (t :: l :: (ts ++ [close])) r')
    (ih : ∀ r r' : Reader σ, Consumes r ts r' → Delivers limit levels r r' ts (.arguments es)) :
    primary (expression limit levels) r =
      .ok (.call callee es (Span.over (t :: l :: (ts ++ [close])))) r' := by
  have hspan := hts.span_eq
  have hnext : r.lookahead.terminal = .identifier callee := hts.lookahead_eq ▸ ht
  obtain ⟨_, r₁, hadvance, hrest⟩ := Consumes.cons_iff.1 hts
  have hleft : r₁.lookahead.terminal = .leftParen := hrest.lookahead_eq ▸ hl
  obtain ⟨_, r₂, hadvance', hrest⟩ := Consumes.cons_iff.1 hrest
  obtain ⟨r₃, hinner, hlast⟩ := Consumes.append_iff.1 hrest
  have hparen : r₃.lookahead.terminal = .rightParen := hlast.lookahead_eq ▸ hclose
  obtain ⟨_, r₄, hadvance'', hrest⟩ := Consumes.cons_iff.1 hlast
  obtain rfl := hrest.eq_of_nil
  simp only [primary, nameOrCall, bind_apply, peek_apply, hnext, hadvance, hleft, hadvance']
  by_cases hnil : es = []
  · subst hnil
    cases hargs
    obtain rfl := hinner.eq_of_nil
    simp only [hparen, bind_apply, hadvance'', spanFrom, hspan]
    rfl
  · have hread := ih r₂ r₃ hinner hnil callee (r₂.remaining + 1) close r₄ (by omega) hparen
      hadvance''
    have hne := ne_rightParen_of_derives hargs hnil hinner
    cases h : r₂.lookahead.terminal with
    | rightParen => contradiction
    | _ => simp only [bind_apply, bounded_eq, hread, spanFrom, hspan]; rfl

theorem branchWord_of_lookahead {word : Keyword} {t : Token}
    (h : r.lookahead.terminal = .keyword word) (hadvance : advance r = .ok t r') :
    (branchWord word : Reading σ Unit) r = .ok () r' :=
  branchWord_eq_ok.2 ⟨h, t, hadvance⟩

theorem primary_conditional {i t e : Token} {p a b : Expr} {ps as bs : List Token}
    (hi : i.terminal = .keyword .ifWord) (ht : t.terminal = .keyword .thenWord)
    (he : e.terminal = .keyword .elseWord)
    (hts : Consumes r (i :: (ps ++ t :: (as ++ e :: bs))) r')
    (hend : EndsBefore r'.lookahead bs)
    (ihp : ∀ r r' : Reader σ, Consumes r ps r' → Delivers limit levels r r' ps (.expression p))
    (iha : ∀ r r' : Reader σ, Consumes r as r' → Delivers limit levels r r' as (.expression a))
    (ihb : ∀ r r' : Reader σ, Consumes r bs r' → Delivers limit levels r r' bs (.expression b)) :
    primary (expression limit levels) r =
      .ok (.conditional p a b (Span.over (i :: (ps ++ t :: (as ++ e :: bs))))) r' := by
  have hspan := hts.span_eq
  have hif : r.lookahead.terminal = .keyword .ifWord := hts.lookahead_eq ▸ hi
  obtain ⟨_, r₁, hadvance, hrest⟩ := Consumes.cons_iff.1 hts
  obtain ⟨r₂, hps, hrest⟩ := Consumes.append_iff.1 hrest
  have hthen : r₂.lookahead.terminal = .keyword .thenWord := hrest.lookahead_eq ▸ ht
  obtain ⟨_, r₃, hadvance', hrest⟩ := Consumes.cons_iff.1 hrest
  obtain ⟨r₄, has, hrest⟩ := Consumes.append_iff.1 hrest
  have helse : r₄.lookahead.terminal = .keyword .elseWord := hrest.lookahead_eq ▸ he
  obtain ⟨_, r₅, hadvance'', hbs⟩ := Consumes.cons_iff.1 hrest
  have hp : expression limit levels r₁ = .ok p r₂ :=
    ihp r₁ r₂ hps (endsBefore_of_ne ps (by simp [hthen]) (by simp [hthen]))
  have ha : expression limit levels r₃ = .ok a r₄ :=
    iha r₃ r₄ has (endsBefore_of_ne as (by simp [helse]) (by simp [helse]))
  have hb : expression limit levels r₅ = .ok b r' := ihb r₅ r' hbs hend
  simp only [primary, bind_apply, peek_apply, hif, conditional, hadvance, hp,
    branchWord_of_lookahead hthen hadvance', ha, branchWord_of_lookahead helse hadvance'', hb,
    spanFrom, hspan]
  rfl

theorem delivers_link {o : Token} {op : Operator} {e x : Expr} {rest : List (Operator × Expr)}
    {d : Nat} {ts us : List Token} (ho : o.terminal = .operator op) (binary : op.isBinary = true)
    (others : Derives (.chain x rest) d us) (hts : Consumes r (ts ++ o :: us) r')
    (ih : ∀ r r' : Reader σ, Consumes r ts r' → Delivers limit levels r r' ts (.operand e))
    (ihs : ∀ r r' : Reader σ, Consumes r us r' → Delivers limit levels r r' us (.chain x rest)) :
    Delivers limit levels r r' (ts ++ o :: us) (.chain e ((op, x) :: rest)) := by
  intro hend
  have hne : us ≠ [] := List.ne_nil_of_length_pos (Nat.zero_lt_of_lt others.depth_le)
  obtain ⟨r₁, hfirst, hrest⟩ := Consumes.append_iff.1 hts
  have hop : r₁.lookahead.terminal = .operator op := hrest.lookahead_eq ▸ ho
  obtain ⟨_, r₂, hadvance, hus⟩ := Consumes.cons_iff.1 hrest
  have hlast : EndsBefore r'.lookahead us :=
    EndsBefore.of_append (ts ++ [o]) (by simpa using hend) hne
  obtain ⟨r₃, hx, hlinks⟩ := ihs r₂ r' hus hlast
  exact ⟨r₁, ih r r₁ hfirst (fun _ => by simp [hop]),
    .cons (Token.operator?_eq_some.2 hop) binary hadvance hx hlinks⟩

theorem delivers_expression {first e : Expr} {rest : List (Operator × Expr)} {ts : List Token}
    (tree : ChainTree first rest e) (h : Delivers limit levels r r' ts (.chain first rest)) :
    Delivers limit (levels + 1) r r' ts (.expression e) := by
  intro hend
  obtain ⟨r₁, hfirst, hlinks⟩ := h hend
  have htail : operatorTail (primary (expression limit levels)) (r₁.remaining + 1) first 0 r₁ =
      .ok e r' :=
    operatorTail_of_links (shrinks_primary (shrinks_expression limit levels).keeps)
      (Nat.le_succ _) hlinks hend.1 tree
  simp only [expression, bind_apply, hfirst, bounded_eq, htail]

theorem delivers_nextArgument {c : Token} {e x : Expr} {es : List Expr} {ts us : List Token}
    (hc : c.terminal = .comma) (hts : Consumes r (ts ++ c :: us) r')
    (ih : ∀ r r' : Reader σ, Consumes r ts r' → Delivers limit levels r r' ts (.expression e))
    (ihs : ∀ r r' : Reader σ, Consumes r us r' →
      Delivers limit levels r r' us (.arguments (x :: es))) :
    Delivers limit levels r r' (ts ++ c :: us) (.arguments (e :: x :: es)) := by
  intro _ callee rounds close r'' hrounds hparen hclose
  obtain ⟨r₁, hfirst, hrest⟩ := Consumes.append_iff.1 hts
  have hcomma : r₁.lookahead.terminal = .comma := hrest.lookahead_eq ▸ hc
  obtain ⟨_, r₂, hadvance, hus⟩ := Consumes.cons_iff.1 hrest
  have he : expression limit levels r = .ok e r₁ :=
    ih r r₁ hfirst (endsBefore_of_ne ts (by simp [hcomma]) (by simp [hcomma]))
  have hle := hfirst.remaining_le
  have hlt := remaining_advance hadvance (isEnd_eq_false (by simp [hcomma]))
  cases rounds with
  | zero => omega
  | succ rounds =>
    have hothers := ihs r₂ r' hus (by simp) callee rounds close r'' (by omega) hparen hclose
    simp only [arguments, bind_apply, peek_apply, he, hcomma, hadvance, hothers]
    rfl

theorem delivers_lastArgument {e : Expr} {ts : List Token}
    (h : Delivers limit levels r r' ts (.expression e)) :
    Delivers limit levels r r' ts (.arguments [e]) := by
  intro _ callee rounds close r'' hrounds hparen hclose
  have he : expression limit levels r = .ok e r' :=
    h (endsBefore_of_ne ts (by simp [hparen]) (by simp [hparen]))
  cases rounds with
  | zero => omega
  | succ rounds =>
    simp only [arguments, bind_apply, peek_apply, he, hparen, hclose]
    rfl

theorem delivers_of_derives {phrase : Phrase} {d : Nat} {ts : List Token}
    (h : Derives phrase d ts) (hd : d ≤ levels) (hts : Consumes r ts r') :
    Delivers limit levels r r' ts phrase := by
  induction h generalizing levels r r' with
  | number ht => exact fun _ => primary_number ht hts
  | reference ht =>
    exact fun hclosed => primary_reference ht hts (hclosed (by simp [ht, Terminal.isName]))
  | call ht hl hr args ih => exact fun _ => primary_call ht hl hr args hts fun _ _ => ih hd
  | group hl hr _ ih => exact fun _ => primary_group hl hr hts fun _ _ => ih hd
  | @conditional i t e p a b dp da db ps as bs hi ht he _ _ elseBranch ihp iha ihb =>
    intro hend
    have hlast : EndsBefore r'.lookahead bs :=
      EndsBefore.of_append (i :: (ps ++ t :: (as ++ [e]))) (by simpa using hend)
        elseBranch.depth_le.2
    exact primary_conditional hi ht he hts hlast (fun _ _ => ihp (by omega))
      (fun _ _ => iha (by omega)) fun _ _ => ihb (by omega)
  | lastOperand _ ih => exact fun hend => ⟨r', ih hd hts hend.2, .nil r'⟩
  | lastConditional _ ih => exact fun hend => ⟨r', ih hd hts hend, .nil r'⟩
  | link ho binary _ others ih ihs =>
    exact delivers_link ho binary others hts (fun _ _ => ih (by omega)) fun _ _ => ihs (by omega)
  | expression _ tree ih =>
    cases levels with
    | zero => omega
    | succ levels => exact delivers_expression tree (ih (by omega) hts)
  | noArgument => exact fun h => absurd rfl h
  | lastArgument _ ih => exact delivers_lastArgument (ih hd hts)
  | nextArgument hc _ _ ih ihs =>
    exact delivers_nextArgument hc hts (fun _ _ => ih (by omega)) fun _ _ => ihs (by omega)

theorem expression_of_derives {e : Expr} {d : Nat} {ts : List Token}
    (h : Derives (.expression e) d ts) (hd : d ≤ levels) (hts : Consumes r ts r')
    (hend : EndsBefore r'.lookahead ts) : expression limit levels r = .ok e r' :=
  delivers_of_derives h hd hts hend

theorem parameters_of_derives {params : List String} {ts : List Token} {close : Token}
    {r'' : Reader σ} (h : DerivesParameters params ts) (hts : Consumes r ts r')
    (hparen : r'.lookahead.terminal = .rightParen) (hclose : advance r' = .ok close r'')
    (name : String) {rounds : Nat} (hr : r.remaining < rounds) :
    parameters name rounds r = .ok params r'' := by
  induction h generalizing r rounds with
  | nil =>
    obtain rfl := hts.eq_of_nil
    cases rounds with
    | zero => omega
    | succ rounds =>
      simp only [parameters, bind_apply, peek_apply, hparen, hclose]
      rfl
  | @comma c params _ hc _ ih =>
    have hnext : r.lookahead.terminal = .comma := hts.lookahead_eq ▸ hc
    obtain ⟨_, r₁, hadvance, hrest⟩ := Consumes.cons_iff.1 hts
    have hlt := remaining_advance hadvance (isEnd_eq_false (by simp [hnext]))
    cases rounds with
    | zero => omega
    | succ rounds =>
      have hparams : parameters name rounds r₁ = .ok params r'' := ih hrest (by omega)
      simp only [parameters, bind_apply, peek_apply, hnext, hadvance, hparams]
  | @name n param params _ hn _ ih =>
    have hnext : r.lookahead.terminal = .identifier param := hts.lookahead_eq ▸ hn
    obtain ⟨_, r₁, hadvance, hrest⟩ := Consumes.cons_iff.1 hts
    have hlt := remaining_advance hadvance (isEnd_eq_false (by simp [hnext]))
    cases rounds with
    | zero => omega
    | succ rounds =>
      have hparams : parameters name rounds r₁ = .ok params r'' := ih hrest (by omega)
      simp only [parameters, bind_apply, peek_apply, hnext, hadvance, hparams]
      rfl

theorem prototype_of_derives {p : Prototype} {ts : List Token} (h : DerivesPrototype p ts)
    (hts : Consumes r ts r') : prototype r = .ok p r' := by
  cases h with
  | @intro n l close name params ts hn hl hclose hparams =>
    have hspan := hts.span_eq
    have hname : r.lookahead.terminal = .identifier name := hts.lookahead_eq ▸ hn
    obtain ⟨_, r₁, hadvance, hrest⟩ := Consumes.cons_iff.1 hts
    have hleft : r₁.lookahead.terminal = .leftParen := hrest.lookahead_eq ▸ hl
    obtain ⟨_, r₂, hadvance', hrest⟩ := Consumes.cons_iff.1 hrest
    obtain ⟨r₃, hinner, hlast⟩ := Consumes.append_iff.1 hrest
    have hparen : r₃.lookahead.terminal = .rightParen := hlast.lookahead_eq ▸ hclose
    obtain ⟨_, r₄, hadvance'', hrest⟩ := Consumes.cons_iff.1 hlast
    obtain rfl := hrest.eq_of_nil
    have hread := parameters_of_derives hparams hinner hparen hadvance'' name (Nat.lt_succ_self _)
    simp only [prototype, bind_apply, peek_apply, hname, hadvance, hleft, hadvance', bounded_eq,
      hread, spanFrom, hspan]
    rfl

theorem statement_eq_topLevelExpression {maxDepth : Nat} {s : Recognizer.State}
    (h : Recognizer.beginOperand [] r.lookahead.terminal = some s) :
    statement maxDepth r = (some <$> topLevelExpression maxDepth) r := by
  simp only [statement, peek_bind]
  cases hnext : r.lookahead.terminal with
  | endOfInput => simp [hnext, Recognizer.beginOperand] at h
  | keyword word =>
    cases word with
    | define | external => simp [hnext, Recognizer.beginOperand] at h
    | _ => rfl
  | _ => rfl

/-- A statement that ends in an expression is read whole if the next token cannot go on with
it. -/
theorem statement_of_derives {maxDepth d : Nat} {f : Function} {ts : List Token}
    (h : DerivesStatement f d ts) (hd : d ≤ maxDepth) (hts : Consumes r ts r')
    (hend : f.body?.isSome = true → EndsBefore r'.lookahead ts) :
    statement maxDepth r = .ok (some f) r' := by
  cases h with
  | @definition k p e _ ts us hk signature body =>
    have hspan := hts.span_eq
    have hnext : r.lookahead.terminal = .keyword .define := hts.lookahead_eq ▸ hk
    obtain ⟨_, r₁, hadvance, hrest⟩ := Consumes.cons_iff.1 hts
    obtain ⟨r₂, hps, hbs⟩ := Consumes.append_iff.1 hrest
    have hp := prototype_of_derives signature hps
    have hb : expression maxDepth maxDepth r₂ = .ok e r' :=
      expression_of_derives body hd hbs
        (EndsBefore.of_append (k :: ts) (by simpa using hend rfl) body.depth_le.2)
    simp only [statement, bind_apply, peek_apply, hnext]
    rw [map_some_eq_ok]
    simp only [definition, bind_apply, hadvance, hp, hb, spanFrom, hspan]
    rfl
  | @external k p ts hk signature =>
    have hspan := hts.span_eq
    have hnext : r.lookahead.terminal = .keyword .external := hts.lookahead_eq ▸ hk
    obtain ⟨_, r₁, hadvance, hps⟩ := Consumes.cons_iff.1 hts
    have hp := prototype_of_derives signature hps
    simp only [statement, bind_apply, peek_apply, hnext]
    rw [map_some_eq_ok]
    simp only [externalDeclaration, bind_apply, hadvance, hp, spanFrom, hspan]
    rfl
  | @anonymous e _ _ body =>
    obtain ⟨s, hbegin⟩ := beginOperand_of_derives body hts
    have hb : expression maxDepth maxDepth r = .ok e r' :=
      expression_of_derives body hd hts (hend rfl)
    have htop : topLevelExpression maxDepth r = .ok (.anonymous e (Span.over ts)) r' := by
      cases ts with
      | nil => exact absurd rfl body.depth_le.2
      | cons t ts =>
        have hspan := hts.span_eq
        rw [← hts.lookahead_eq] at hspan ⊢
        simp only [topLevelExpression, bind_apply, peek_apply, hb, spanFrom, hspan]
        rfl
    rw [statement_eq_topLevelExpression hbegin, map_some_eq_ok]
    exact htop

end ExprLang.Reader
