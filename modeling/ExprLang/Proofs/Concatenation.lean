import ExprLang.Proofs.Programs

/-!
# Programs one after another

Two programs put together are a program. Its statements are those of the first and then those of
the second, unless the first ends in a name and the second begins with a parenthesis: then the last
statement of the first and the first one of the second are one statement, in which that name is
called.
-/
namespace ExprLang

/-- Together these tokens contain a call that neither of them does. -/
def Fuses (ts us : List Token) : Prop :=
  (∃ t ∈ ts.getLast?, t.isIdentifier = true) ∧ ∃ t ∈ us.head?, t.terminal = .leftParen

theorem isIdentifier_eq (t : Token) : t.isIdentifier = t.terminal.isName := by
  unfold Token.isIdentifier Terminal.isName
  cases t.terminal <;> rfl

theorem endsInName_iff {ts : List Token} :
    endsInName false (terminals ts) = true ↔ ∃ t ∈ ts.getLast?, t.isIdentifier = true := by
  rcases List.eq_nil_or_concat ts with rfl | ⟨us, t, rfl⟩
  · simp
  · simp [isIdentifier_eq]

/-- What stands in front of some tokens does not matter for how they end. -/
theorem endsInName_append_of_ne_nil (ts : List Token) {us : List Token} (hne : us ≠ []) :
    endsInName false (terminals (ts ++ us)) = endsInName false (terminals us) := by
  cases us with
  | nil => contradiction
  | cons u us => simp

theorem fuses_append_iff (ts : List Token) {us vs : List Token} (hne : us ≠ []) :
    Fuses (ts ++ us) vs ↔ Fuses us vs := by
  rw [Fuses, Fuses, ← endsInName_iff, ← endsInName_iff, endsInName_append_of_ne_nil ts hne]

/-- One of the loosest operators is the rightmost. -/
theorem exists_split {rest : List (Operator × Expr)} (hne : rest ≠ []) :
    ∃ left op x right, rest = left ++ (op, x) :: right ∧ (∀ link ∈ left, op ≤ link.1) ∧
      ∀ link ∈ right, op < link.1 := by
  induction rest with
  | nil => contradiction
  | cons link rest ih =>
    obtain ⟨op, x⟩ := link
    by_cases hnil : rest = []
    · exact ⟨[], op, x, [], by simp [hnil], by simp, by simp⟩
    obtain ⟨left, op', x', right, rfl, hleft, hright⟩ := ih hnil
    by_cases hle : op' ≤ op
    · exact ⟨(op, x) :: left, op', x', right, rfl,
        List.forall_mem_cons.2 ⟨hle, hleft⟩, hright⟩
    · have hlt : op < op' := Nat.not_le.1 hle
      refine ⟨[], op, x, _, rfl, by simp, fun link hlink => ?_⟩
      rcases List.mem_append.1 hlink with hlink | hlink
      · exact Nat.lt_of_lt_of_le hlt (hleft link hlink)
      · rcases List.mem_cons.1 hlink with rfl | hlink
        · exact hlt
        · exact Nat.lt_trans hlt (hright link hlink)

theorem exists_chainTree (first : Expr) (rest : List (Operator × Expr)) :
    ∃ e, ChainTree first rest e := by
  generalize hn : rest.length = n
  induction n using Nat.strongRecOn generalizing first rest with
  | ind n ih =>
    by_cases hnil : rest = []
    · exact ⟨first, hnil ▸ .operand first⟩
    obtain ⟨left, op, x, right, rfl, hleft, hright⟩ := exists_split hnil
    simp only [List.length_append, List.length_cons] at hn
    obtain ⟨a, ha⟩ := ih left.length (by omega) first left rfl
    obtain ⟨b, hb⟩ := ih right.length (by omega) x right rfl
    exact ⟨_, .split ha hb hleft hright⟩

section Fuse

variable {d d' : Nat} {t l : Token} {ts us : List Token} {callee : String} {f g : Function}

theorem Derives.call_of_operand {e : Expr} (h : Derives (.operand e) d (l :: us))
    (hl : l.terminal = .leftParen) (ht : t.terminal = .identifier callee) :
    ∃ call d, Derives (.operand call) d (t :: l :: us) := by
  cases h with
  | number h | reference h | call h => simp [hl] at h
  | group _ hr inner => exact ⟨_, _, .call ht hl hr (.lastArgument inner)⟩

/-- A name turns the group that a chain begins with into the argument of a call. -/
theorem Derives.call_of_chain {first : Expr} {rest : List (Operator × Expr)}
    (h : Derives (.chain first rest) d (l :: us)) (hl : l.terminal = .leftParen)
    (ht : t.terminal = .identifier callee) :
    ∃ first rest d, Derives (.chain first rest) d (t :: l :: us) := by
  generalize hvs : l :: us = vs at h
  cases h with
  | lastOperand last =>
    obtain ⟨call, d, hcall⟩ := (hvs ▸ last).call_of_operand hl ht
    exact ⟨call, [], d, hvs ▸ .lastOperand hcall⟩
  | lastConditional last =>
    cases last with
    | conditional hi =>
      obtain rfl := (List.cons.inj hvs).1
      simp [hl] at hi
  | @link o op e x rest d₁ d₂ ts us' ho binary first others =>
    cases ts with
    | nil => simpa using first.depth_le
    | cons t' ts =>
      obtain ⟨rfl, rfl⟩ := List.cons.inj hvs
      obtain ⟨call, d, hcall⟩ := first.call_of_operand hl ht
      exact ⟨call, _, _, .link ho binary hcall others⟩

/-- What the tokens of a phrase are together with those of a chain behind them, which begins with
a group. -/
def FusedWith (us ts : List Token) : Phrase → Prop
  | .operand _ | .chain _ _ => ∃ first rest d, Derives (.chain first rest) d (ts ++ us)
  | .conditional _ => ∃ e d, Derives (.conditional e) d (ts ++ us)
  | .expression _ => ∃ e d, Derives (.expression e) d (ts ++ us)
  | .arguments _ => True

theorem Derives.fuse {phrase : Phrase} {first : Expr} {rest : List (Operator × Expr)}
    (h : Derives phrase d ts) (hname : endsInName false (terminals ts) = true)
    (chain : Derives (.chain first rest) d' (l :: us)) (hl : l.terminal = .leftParen) :
    FusedWith (l :: us) ts phrase := by
  induction h with
  | number ht => simp [ht, Terminal.isName] at hname
  | reference ht => exact chain.call_of_chain hl ht
  | call _ _ hr => simp [hr, Terminal.isName] at hname
  | group _ hr => simp [hr, Terminal.isName] at hname
  | conditional hi ht he predicate thenBranch _ _ _ ihb =>
    obtain ⟨e, d, helse⟩ := ihb (by simpa [he, Terminal.isName] using hname)
    exact ⟨_, _, by simpa using Derives.conditional hi ht he predicate thenBranch helse⟩
  | lastOperand _ ih => exact ih hname
  | lastConditional _ ih =>
    obtain ⟨e, d, hlast⟩ := ih hname
    exact ⟨e, [], d, .lastConditional hlast⟩
  | link ho binary first _ _ ihs =>
    obtain ⟨x, rest, d, hothers⟩ := ihs (by simpa [ho, Terminal.isName] using hname)
    exact ⟨_, _, _, by simpa using Derives.link ho binary first hothers⟩
  | expression _ _ ih =>
    obtain ⟨first, rest, d, hchain⟩ := ih hname
    obtain ⟨e, htree⟩ := exists_chainTree first rest
    exact ⟨e, _, .expression hchain htree⟩
  | _ => trivial

theorem DerivesStatement.fuse (h : DerivesStatement f d ts)
    (hname : endsInName false (terminals ts) = true) (g : DerivesStatement g d' (l :: us))
    (hl : l.terminal = .leftParen) : ∃ f d, DerivesStatement f d (ts ++ l :: us) := by
  cases g with
  | definition hk | external hk => simp [hl] at hk
  | anonymous body =>
    cases body with
    | expression chain _ =>
      cases h with
      | @definition k p _ _ ts us' hk signature body =>
        rw [← List.cons_append, endsInName_append_of_ne_nil _ body.depth_le.2] at hname
        obtain ⟨e, d, hbody⟩ := body.fuse hname chain hl
        exact ⟨_, _, by simpa using DerivesStatement.definition hk signature hbody⟩
      | external _ signature =>
        cases signature with
        | intro _ _ hr => simp [hr, Terminal.isName] at hname
      | anonymous body =>
        obtain ⟨e, d, hbody⟩ := body.fuse hname chain hl
        exact ⟨_, _, .anonymous hbody⟩

end Fuse

variable {fs gs : List Function} {ks ls : List Nat} {ts us : List Token}

theorem DerivesStatement.operator?_eq_none {f : Function} {d : Nat} {t : Token}
    (h : DerivesStatement f d (t :: ts)) : t.operator? = none := by
  obtain ⟨s, hs, _⟩ := Recognizer.run_statement true h.generates
  cases hop : t.operator? with
  | none => rfl
  | some op =>
    have hterminal := Token.operator?_eq_some.1 hop
    simp [hterminal, Recognizer.step, Recognizer.beginStatement, Recognizer.beginOperand] at hs

theorem ReadsProgram.deepest_le_length (h : ReadsProgram fs ks ts) : deepest ks ≤ ts.length := by
  induction h with
  | nil => simp
  | cons first _ _ ih =>
    have hle := first.derives.depth_le
    rw [deepest_append, List.length_append]
    omega

/-- No operator begins a program, so only a parenthesis can go on with what is in front of it. -/
theorem ReadsProgram.endsBefore_head (h : ReadsProgram gs ls us) (hfuses : ¬ Fuses ts us) :
    ∀ next ∈ us.head?, EndsBefore next ts := by
  intro next hnext
  refine ⟨?_, fun hname hparen => hfuses ⟨endsInName_iff.1 hname, next, hnext, hparen⟩⟩
  cases h with
  | nil => simp at hnext
  | @cons g _ _ _ ts' us' first _ _ =>
    cases ts' with
    | nil => exact absurd rfl first.derives.ne_nil
    | cons t ts' =>
      obtain rfl : t = next := by simpa using hnext
      exact first.derives.operator?_eq_none

theorem ReadsProgram.append (h : ReadsProgram fs ks ts) (g : ReadsProgram gs ls us)
    (hfuses : ¬ Fuses ts us) : ReadsProgram (fs ++ gs) (ks ++ ls) (ts ++ us) := by
  induction h with
  | nil => exact g
  | @cons f fs ks₁ ks₂ ts₁ ts₂ first ends others ih =>
    have hlater : ¬ Fuses ts₂ us := by
      by_cases hnil : ts₂ = []
      · simp [hnil, Fuses]
      · rwa [fuses_append_iff _ hnil] at hfuses
    rw [List.append_assoc, List.append_assoc]
    refine .cons first (fun hbody next hnext => ?_) (ih hlater)
    cases ts₂ with
    | nil => exact g.endsBefore_head (by simpa using hfuses) next (by simpa using hnext)
    | cons t ts₂ => exact ends hbody next (by simpa using hnext)

theorem ReadsProgram.eq_nil (h : ReadsProgram fs ks []) : fs = [] := by
  generalize hts : [] = ts at h
  cases h with
  | nil => rfl
  | cons first _ _ =>
    have hnil := (List.append_eq_nil_iff.1 hts.symm).1
    exact absurd hnil first.derives.ne_nil

/-- Where two programs fuse, one statement takes the place of two. -/
theorem ReadsProgram.fuse (h : ReadsProgram fs ks ts) (g : ReadsProgram gs ls us)
    (hfuses : Fuses ts us) :
    ∃ hs ms, ReadsProgram hs ms (ts ++ us) ∧ hs.length + 1 = fs.length + gs.length := by
  induction h with
  | nil => simp [Fuses] at hfuses
  | @cons f fs ks₁ ks₂ ts₁ ts₂ first ends others ih =>
    by_cases hnil : ts₂ = []
    · subst hnil
      obtain rfl := others.eq_nil
      rw [List.append_nil] at hfuses ⊢
      obtain ⟨hname, t, ht, hparen⟩ := hfuses
      cases g with
      | nil => simp at ht
      | @cons g gs ls₁ ls₂ us₁ us₂ first' ends' others' =>
        cases us₁ with
        | nil => exact absurd rfl first'.derives.ne_nil
        | cons l us₁ =>
          obtain rfl : l = t := by simpa using ht
          have hbody : g.body?.isSome = true := by
            cases first' with
            | definition hk | external hk => simp [hparen] at hk
            | anonymous => rfl
          obtain ⟨k, d, hk⟩ := first.derives.fuse (endsInName_iff.2 hname) first'.derives hparen
          obtain ⟨ms, hms⟩ := hk.nests
          refine ⟨k :: gs, ms ++ ls₂, ?_, by simp; omega⟩
          rw [← List.append_assoc]
          refine .cons hms (fun _ next hnext => ?_) others'
          obtain ⟨hop, hclosed⟩ := ends' hbody next hnext
          exact ⟨hop, hclosed.append ts₁ (by simp)⟩
    · obtain ⟨hs, ms, hreads, hlength⟩ := ih ((fuses_append_iff _ hnil).1 hfuses)
      refine ⟨f :: hs, ks₁ ++ ms, ?_, by simp; omega⟩
      rw [List.append_assoc]
      refine .cons first (fun hbody next hnext => ends hbody next ?_) hreads
      rwa [List.head?_append_of_ne_nil _ hnil] at hnext

namespace Parser

def Parses (maxDepth : Int) (ts : List Token) (fs : List Function) : Prop :=
  ∃ source p q, TokenList.ofList? ts = some source ∧ start maxDepth source = .ok p ∧
    p.all = (.ok fs, q)

variable {maxDepth : Int} {last : Token}

theorem throughEnd_append_last (hts : ∀ t ∈ ts, t.isEnd = false) (hlast : last.isEnd = true) :
    throughEnd (ts ++ [last]) = ts ++ [last] := by
  obtain ⟨ending, rest, _, hthrough, hsplit⟩ := throughEnd_append hlast ts
  rw [beforeEnd_append hts hlast] at hthrough hsplit
  rw [hthrough, (List.cons.inj (List.append_cancel_left hsplit)).1]

theorem reads_of_parses (h : Parses maxDepth (ts ++ [last]) fs) (hdepth : 0 < maxDepth)
    (hts : ∀ t ∈ ts, t.isEnd = false) (hlast : last.isEnd = true) :
    ∃ ks, ReadsProgram fs ks ts := by
  obtain ⟨source, p, q, hsource, hstart, hall⟩ := h
  obtain ⟨p', hstart', _, _, hahead⟩ := start_ahead hsource hdepth
  rw [hstart, Except.ok.injEq] at hstart'
  subst hstart'
  exact reads_of_yields (all_eq_ok.1 hall) (hahead.trans (throughEnd_append_last hts hlast))

theorem parses_of_reads (h : ReadsProgram fs ks ts) (hdepth : (ts.length : Int) < maxDepth)
    (hts : ∀ t ∈ ts, t.isEnd = false) (hlast : last.isEnd = true) :
    Parses maxDepth (ts ++ [last]) fs := by
  have hsource : TokenList.ofList? (ts ++ [last]) = some ⟨ts, last, 0, hlast⟩ := by
    simp [TokenList.ofList?, hlast]
  have hpositive : 0 < maxDepth := by omega
  obtain ⟨p, hstart, hnone, hmax, hahead⟩ := start_ahead hsource hpositive
  have hle := h.deepest_le_length
  obtain ⟨q, hq⟩ := yields_of_reads h hnone (hahead.trans (throughEnd_append_last hts hlast)) hlast
    (by omega)
  exact ⟨_, p, q, hsource, hstart, all_eq_ok.2 hq⟩

end Parser
end ExprLang
