import ExprLang.Proofs.Concatenation
import ExprLang.Proofs.OnDemand
import ExprLang.Proofs.Rendering

/-!
# Round trip

A scanner delivers the terminals that a program's text is written from, and tokens for them read as
that program in the grammar with trees. So every program is read back from its text.
-/
namespace ExprLang

section Reads

variable {ts : List Token}

theorem terminals_eq_append {us vs : List Terminal} (h : terminals ts = us ++ vs) :
    ∃ ts₁ ts₂, ts = ts₁ ++ ts₂ ∧ terminals ts₁ = us ∧ terminals ts₂ = vs :=
  List.map_eq_append_iff.1 h

theorem terminals_eq_cons {u : Terminal} {vs : List Terminal} (h : terminals ts = u :: vs) :
    ∃ t ts', ts = t :: ts' ∧ t.terminal = u ∧ terminals ts' = vs :=
  List.map_eq_cons_iff.1 h

theorem terminals_eq_singleton {u : Terminal} (h : terminals ts = [u]) :
    ∃ t, ts = [t] ∧ t.terminal = u :=
  List.map_eq_singleton_iff.1 h

theorem terminals_eq_grouped {us : List Terminal} (h : terminals ts = Terminal.grouped us) :
    ∃ l inner r, ts = l :: (inner ++ [r]) ∧ l.terminal = .leftParen ∧ r.terminal = .rightParen ∧
      terminals inner = us := by
  obtain ⟨l, rest, rfl, hl, hrest⟩ := terminals_eq_cons h
  obtain ⟨inner, last, rfl, hinner, hlast⟩ := terminals_eq_append hrest
  obtain ⟨r, rfl, hr⟩ := terminals_eq_singleton hlast
  exact ⟨l, inner, r, rfl, hl, hr, hinner⟩

/-- The tokens `ts` read as an operand that is `e` but for spans. -/
def ReadsOperand (e : Expr) (ts : List Token) : Prop :=
  ∃ e' d, Derives (.operand e') d ts ∧ e'.erase = e.erase

def ReadsExpr (e : Expr) (ts : List Token) : Prop :=
  ∃ e' d, Derives (.expression e') d ts ∧ e'.erase = e.erase

theorem ReadsOperand.expr {e : Expr} (h : ReadsOperand e ts) : ReadsExpr e ts := by
  obtain ⟨e', d, hderives, he⟩ := h
  exact ⟨e', d + 1, .expression (.lastOperand hderives) (.operand e'), he⟩

/-- What an expression's sentence in parentheses reads as. -/
theorem readsOperand_grouped {e : Expr} (h : ∀ {us}, terminals us = e.sentence → ReadsExpr e us)
    (hts : terminals ts = Terminal.grouped e.sentence) : ReadsOperand e ts := by
  obtain ⟨l, inner, r, rfl, hl, hr, hinner⟩ := terminals_eq_grouped hts
  obtain ⟨e', d, hderives, he⟩ := h hinner
  exact ⟨e', d, .group hl hr hderives, he⟩

theorem ReadsOperand.binary {op : Operator} {lhs rhs : Expr} {us : List Token} {o : Token}
    {span : Option Span} (hl : ReadsOperand lhs ts) (hr : ReadsOperand rhs us)
    (ho : o.terminal = .operator op) (binary : op.isBinary = true) :
    ReadsExpr (.binary op lhs rhs span) (ts ++ o :: us) := by
  obtain ⟨l, dl, hl, hlhs⟩ := hl
  obtain ⟨r, dr, hr, hrhs⟩ := hr
  have htree : ChainTree l ([] ++ (op, r) :: []) _ :=
    .split (.operand l) (.operand r) (by simp) (by simp)
  exact ⟨_, _, .expression (.link ho binary hl (.lastOperand hr)) htree,
    by simp [Expr.erase, hlhs, hrhs]⟩

theorem ReadsExpr.conditional {p t e : Expr} {us vs : List Token} {i th el : Token}
    {span : Option Span} (hi : i.terminal = .keyword .ifWord)
    (hth : th.terminal = .keyword .thenWord) (hel : el.terminal = .keyword .elseWord)
    (hp : ReadsExpr p ts) (ht : ReadsExpr t us) (he : ReadsExpr e vs) :
    ReadsExpr (.conditional p t e span) (i :: (ts ++ th :: (us ++ el :: vs))) := by
  obtain ⟨p', dp, hp, hpe⟩ := hp
  obtain ⟨t', dt, ht, hte⟩ := ht
  obtain ⟨e', de, he, hee⟩ := he
  exact ⟨_, _, .expression (.lastConditional (.conditional hi hth hel hp ht he)) (.operand _),
    by simp [Expr.erase, hpe, hte, hee]⟩

end Reads

mutual

theorem Expr.readsExpr {bits : Nat} (e : Expr) (hw : e.Writable bits)
    {ts : List Token} (hts : terminals ts = e.sentence) : ReadsExpr e ts := by
  cases e with
  | number value span =>
    obtain ⟨t, rfl, ht⟩ := terminals_eq_singleton hts
    apply ReadsOperand.expr
    exact ⟨_, _, .number ht, rfl⟩
  | reference name span =>
    obtain ⟨t, rfl, ht⟩ := terminals_eq_singleton hts
    apply ReadsOperand.expr
    exact ⟨_, _, .reference ht, rfl⟩
  | binary op lhs rhs span =>
    obtain ⟨binary, hlw, hrw⟩ := hw
    obtain ⟨ls, rest, rfl, hls, hrest⟩ := terminals_eq_append hts
    obtain ⟨o, rs, rfl, ho, hrs⟩ := terminals_eq_cons hrest
    apply ReadsOperand.binary _ _ ho binary
    · exact readsOperand_grouped (lhs.readsExpr hlw) hls
    · exact readsOperand_grouped (rhs.readsExpr hrw) hrs
  | call callee args span =>
    obtain ⟨t, rest, rfl, ht, hrest⟩ := terminals_eq_cons hts
    obtain ⟨l, inner, r, rfl, hl, hr, hinner⟩ := terminals_eq_grouped hrest
    obtain ⟨es, d, hderives, hes⟩ := Expr.readsArguments args hw.2 hinner
    apply ReadsOperand.expr
    exact ⟨_, _, .call ht hl hr hderives, by simp [Expr.erase, hes]⟩
  | conditional p t e span =>
    obtain ⟨hpw, htw, hew⟩ := hw
    obtain ⟨i, rest, rfl, hi, hrest⟩ := terminals_eq_cons hts
    obtain ⟨ps, rest, rfl, hps, hrest⟩ := terminals_eq_append hrest
    obtain ⟨th, rest, rfl, hth, hrest⟩ := terminals_eq_cons hrest
    obtain ⟨as, rest, rfl, has, hrest⟩ := terminals_eq_append hrest
    obtain ⟨el, bs, rfl, hel, hbs⟩ := terminals_eq_cons hrest
    apply ReadsExpr.conditional hi hth hel
    · exact (readsOperand_grouped (p.readsExpr hpw) hps).expr
    · exact (readsOperand_grouped (t.readsExpr htw) has).expr
    · exact (readsOperand_grouped (e.readsExpr hew) hbs).expr

theorem Expr.readsArguments {bits : Nat} (es : List Expr) (hw : Expr.WritableAll bits es)
    {ts : List Token} (hts : terminals ts = Terminal.separated (Expr.sentences es)) :
    ∃ es' d, Derives (.arguments es') d ts ∧ Expr.eraseAll es' = Expr.eraseAll es := by
  cases es with
  | nil =>
    obtain rfl := List.map_eq_nil_iff.1 hts
    exact ⟨[], 0, .noArgument, rfl⟩
  | cons e es =>
    cases es with
    | nil =>
      have hgroup : terminals ts = Terminal.grouped e.sentence := by
        simpa [Terminal.separated, Expr.sentences] using hts
      obtain ⟨e', d, hderives, he⟩ := (readsOperand_grouped (e.readsExpr hw.1) hgroup).expr
      exact ⟨[e'], d, .lastArgument hderives, by simp [Expr.eraseAll, he]⟩
    | cons x es =>
      rw [Terminal.separated, Expr.sentences, Expr.sentences, List.intercalate_cons_cons,
        List.append_assoc] at hts
      obtain ⟨next, rest, rfl, hnext, hrest⟩ := terminals_eq_append hts
      obtain ⟨c, others, rfl, hc, hothers⟩ := terminals_eq_cons hrest
      obtain ⟨e', d, hderives, he⟩ := (readsOperand_grouped (e.readsExpr hw.1) hnext).expr
      obtain ⟨es', d', hmore, hes⟩ := Expr.readsArguments (x :: es) hw.2 hothers
      cases es' with
      | nil => simp [Expr.eraseAll] at hes
      | cons x' es' =>
        exact ⟨_, _, .nextArgument hc hderives hmore, congrArg₂ List.cons he hes⟩

end

theorem derivesParameters_of_terminals {params : List String} {ts : List Token}
    (hts : terminals ts = Terminal.separated (params.map ([.identifier ·]))) :
    DerivesParameters params ts := by
  induction params generalizing ts with
  | nil =>
    obtain rfl := List.map_eq_nil_iff.1 hts
    exact .nil
  | cons param params ih =>
    cases params with
    | nil =>
      obtain ⟨n, rfl, hn⟩ := terminals_eq_singleton hts
      exact .name hn .nil
    | cons next params =>
      rw [Terminal.separated, List.map_cons, List.map_cons, List.intercalate_cons_cons,
        List.append_assoc] at hts
      obtain ⟨n, rest, rfl, hn, hrest⟩ := terminals_eq_cons hts
      obtain ⟨c, others, rfl, hc, hothers⟩ := terminals_eq_cons hrest
      exact .name hn (.comma hc (ih hothers))

theorem Prototype.derives {p : Prototype} {ts : List Token} (hts : terminals ts = p.sentence) :
    ∃ p', DerivesPrototype p' ts ∧ p'.erase = p.erase := by
  obtain ⟨n, rest, rfl, hn, hrest⟩ := terminals_eq_cons hts
  obtain ⟨l, inner, r, rfl, hl, hr, hinner⟩ := terminals_eq_grouped hrest
  exact ⟨_, .intro hn hl hr (derivesParameters_of_terminals hinner), rfl⟩

theorem Function.derives {bits : Nat} {f : Function} (hw : f.Writable bits) {ts : List Token}
    (hts : terminals ts = f.sentence) :
    ∃ f' d, DerivesStatement f' d ts ∧ f'.erase = f.erase := by
  cases f with
  | definition p body span =>
    obtain ⟨k, rest, rfl, hk, hrest⟩ := terminals_eq_cons hts
    obtain ⟨ps, bs, rfl, hps, hbs⟩ := terminals_eq_append hrest
    obtain ⟨p', hprototype, hp⟩ := Prototype.derives hps
    obtain ⟨e, d, hbody, he⟩ := (readsOperand_grouped (body.readsExpr hw.2) hbs).expr
    exact ⟨_, d, .definition hk hprototype hbody, by rw [erase, erase, hp, he]⟩
  | external p span =>
    obtain ⟨k, ps, rfl, hk, hps⟩ := terminals_eq_cons hts
    obtain ⟨p', hprototype, hp⟩ := Prototype.derives hps
    exact ⟨_, 0, .external hk hprototype, by rw [erase, erase, hp]⟩
  | anonymous body span =>
    obtain ⟨e, d, hbody, he⟩ := (readsOperand_grouped (body.readsExpr hw) hts).expr
    exact ⟨_, d, .anonymous hbody, by rw [erase, erase, he]⟩

/-- Every statement ends in a parenthesis, so no other one behind it turns it into a call. -/
theorem Function.not_fuses {f : Function} {ts us : List Token} (hts : terminals ts = f.sentence) :
    ¬ Fuses ts us := by
  rintro ⟨hname, _⟩
  rw [← endsInName_iff, hts] at hname
  cases f <;>
    simp [sentence, Prototype.sentence, Terminal.grouped, Terminal.isName] at hname

theorem exists_readsProgram {bits : Nat} {fs : List Function} (hw : ∀ f ∈ fs, f.Writable bits)
    {ts : List Token} (hts : terminals ts = fs.flatMap Function.sentence) :
    ∃ gs ks, ReadsProgram gs ks ts ∧ List.Forall₂ (fun g f => g.same f = true) gs fs := by
  induction fs generalizing ts with
  | nil =>
    obtain rfl := List.map_eq_nil_iff.1 hts
    exact ⟨[], [], .nil, .nil⟩
  | cons f fs ih =>
    rw [List.flatMap_cons] at hts
    obtain ⟨ts, us, rfl, hf, hfs⟩ := terminals_eq_append hts
    obtain ⟨g, d, hderives, hg⟩ := Function.derives (hw f (by simp)) hf
    obtain ⟨ks, hnests⟩ := hderives.nests
    obtain ⟨gs, ls, hreads, hgs⟩ := ih (fun f hf => hw f (by simp [hf])) hfs
    refine ⟨g :: gs, ks ++ ls, .cons hnests (fun _ => ?_) hreads,
      .cons ((Function.same_iff g f).2 hg) hgs⟩
    exact hreads.endsBefore_head (Function.not_fuses hf)

namespace Parser

/-- Where all calls answer the same, the same functions are delivered. -/
theorem all_eq_of_answers {σ τ : Type} [TokenSource σ] [TokenSource τ] {p p' : Parser σ}
    {q : Parser τ} {fs : List Function} (hall : p.all = (.ok fs, p'))
    (hanswers : ∀ n, (p.after n).answer = (q.after n).answer) : ∃ q', q.all = (.ok fs, q') := by
  have halike (n : Nat) : Alike Eq Eq (p.after n).next.1 (q.after n).next.1 :=
    alike_of_eq (congrArg Answer.result (hanswers n))
  obtain ⟨gs, failure, q', hyields, hgs, hfailure⟩ := (all_eq_ok.1 hall).transfer halike
  obtain rfl : fs = gs := by rwa [List.forall₂_eq_eq_eq] at hgs
  cases hfailure
  exact ⟨q', all_eq_ok.2 hyields⟩

theorem all_eq_of_parses {s : Scanner} {ts : List Token} {maxDepth : Int} {fs : List Function}
    (h : s.Yields ts none) (hparses : Parses maxDepth ts fs) :
    ∃ p q, start maxDepth s = .ok p ∧ p.all = (.ok fs, q) := by
  obtain ⟨source, p, p', hsource, hp, hall⟩ := hparses
  obtain ⟨q, hq⟩ := exists_start h (pos_of_start hp)
  obtain ⟨source', p₁, hsource', hp₁, hanswers⟩ := exists_list h hq
  obtain rfl : source = source' := Option.some.inj (hsource.symm.trans hsource')
  obtain rfl : p = p₁ := Except.ok.inj (hp.symm.trans hp₁)
  obtain ⟨q', hq'⟩ := all_eq_of_answers hall fun n => (hanswers n).symm
  exact ⟨q, q', hq, hq'⟩

/-- What a scanner is parsed as, its tokens are parsed as. -/
theorem parses_of_all_eq {s : Scanner} {ts : List Token} {maxDepth : Int} {p q : Parser Scanner}
    {fs : List Function} (h : s.Yields ts none) (hp : start maxDepth s = .ok p)
    (hall : p.all = (.ok fs, q)) : Parses maxDepth ts fs := by
  obtain ⟨source, p', hsource, hp', hanswers⟩ := exists_list h hp
  obtain ⟨q', hq'⟩ := all_eq_of_answers hall hanswers
  exact ⟨source, p', q', hsource, hp', hq'⟩

/-- The text of a program of any shape is parsed as that program. -/
theorem parses_source (file : String) (bits : Int) (hbits : 0 < bits) (fs : List Function)
    (hfs : ∀ f ∈ fs, f.Writable bits.toNat) :
    ∃ s p gs q, Scanner.start file bits (Byte.ofText (sourceOf fs)) = .ok s ∧
      start ((sourceOf fs).length + 1) s = .ok p ∧ p.all = (.ok gs, q) ∧
      Function.sameAll gs fs = true := by
  have hwritten := written_sourceOf fs hfs
  have hstart := Scanner.start_eq_ofBytes hbits file (Byte.ofText (sourceOf fs))
  obtain ⟨ts, last, hyields, hts, hends, hlast⟩ :=
    hwritten.scans (Scanner.ofBytes file bits.toNat _) rfl rfl rfl
  obtain ⟨gs, ks, hreads, hgs⟩ := exists_readsProgram hfs hts
  -- every level of nesting costs a token, and every token a character
  have hdepth : (ts.length : Int) < (sourceOf fs).length + 1 := by
    have hlength := hwritten.length_le
    rw [← hts, terminals, List.length_map] at hlength
    omega
  obtain ⟨p, q, hp, hall⟩ := all_eq_of_parses hyields (parses_of_reads hreads hdepth hends hlast)
  exact ⟨_, p, gs, q, hstart, hp, hall, Function.sameAll_of_forall₂ hgs⟩

/-- A declaration, and a call behind it with two arguments. -/
theorem parses_source_call :
    let fs : List Function := [.external ⟨"f", ["x", "y"], none⟩ none,
      .anonymous (.call "f" [.number 1 none, .binary .add (.reference "x" none) (.number 0 none) none]
        none) none]
    sourceOf fs = "extern f(x,y)\n(f((1),((x)+(0))))" ∧ (0 : Int) < 1 ∧
      (∀ f ∈ fs, f.Writable (1 : Int).toNat) ∧
      ∃ s p gs q, Scanner.start "f" 1 (Byte.ofText (sourceOf fs)) = .ok s ∧
        start ((sourceOf fs).length + 1) s = .ok p ∧ p.all = (.ok gs, q) ∧
        Function.sameAll gs fs = true := by
  intro fs
  have hf : IsName "f" := by decide
  have hx : IsName "x" := by decide
  have hy : IsName "y" := by decide
  have hfs : ∀ f ∈ fs, f.Writable (1 : Int).toNat := by
    simp [fs, Function.Writable, Prototype.Writable, Expr.Writable, Expr.WritableAll, hf, hx, hy,
      Operator.isBinary]
  exact ⟨by decide +kernel, by decide, hfs, parses_source "f" 1 (by decide) fs hfs⟩

end Parser
end ExprLang
