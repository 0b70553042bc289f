import ExprLang.Proofs.Answers
import ExprLang.Proofs.TokenSequence

/-!
# Scanning on demand

A parser that pulls its tokens from a scanner does what it would do with the list of the tokens
that the scanner yields, as long as it needs no more than those. If it needs one more, it fails
with the error that ended them. So the scanner's error surfaces unchanged, and a syntax error
that comes before it is about one of the tokens in front of it.
-/
namespace ExprLang

namespace Reader

variable {r r' : Reader Scanner} {ts us : List Token} {failure : Option ScanError}

/-- `Faces failure r ts`: the lookahead of `r` and what its scanner yields behind it are `ts`,
through the end of input or up to the error `failure`. -/
inductive Faces (failure : Option ScanError) : Reader Scanner → List Token → Prop
  | last {r : Reader Scanner} (hend : r.lookahead.isEnd = true) (hnone : failure = none) :
      Faces failure r [r.lookahead]
  | more {r : Reader Scanner} {ts : List Token} (hend : r.lookahead.isEnd = false)
      (rest : r.source.Yields ts failure) : Faces failure r (r.lookahead :: ts)

namespace Faces

theorem eq_cons (h : Faces failure r ts) : ∃ rest, ts = r.lookahead :: rest := by
  cases h with
  | last => exact ⟨[], rfl⟩
  | more _ _ => exact ⟨_, rfl⟩

/-- Where a scanner yields a token, a reader may look at it. -/
theorem of_yields {s s' : Scanner} {t : Token} {consumed : List Token}
    (h : s.Yields ts failure) (hnext : s.next = (.ok t, s')) :
    Faces failure ⟨s', t, consumed⟩ ts := by
  cases h with
  | fail h => simp [h] at hnext
  | finish h hend =>
    simp only [h, Prod.mk.injEq, Except.ok.injEq] at hnext
    obtain ⟨rfl, rfl⟩ := hnext
    exact .last hend rfl
  | more h hend rest =>
    simp only [h, Prod.mk.injEq, Except.ok.injEq] at hnext
    obtain ⟨rfl, rfl⟩ := hnext
    exact .more hend rest

theorem advance {t : Token} (h : Faces failure r ts) (hend : r.lookahead.isEnd = false)
    (hadvance : advance r = .ok t r') : ∃ us, ts = t :: us ∧ Faces failure r' us := by
  cases h with
  | last hend' => simp [hend] at hend'
  | more _ rest =>
    simp only [Reader.advance, hend, Bool.false_eq_true, if_false] at hadvance
    split at hadvance
    · next next source hpull =>
      simp only [EStateM.Result.ok.injEq] at hadvance
      obtain ⟨rfl, rfl⟩ := hadvance
      exact ⟨_, rfl, of_yields rest hpull⟩
    · contradiction

theorem consumes (h : Faces failure r ts) (hus : Consumes r us r') :
    ∃ vs, ts = us ++ vs ∧ Faces failure r' vs := by
  induction hus generalizing ts with
  | nil => exact ⟨ts, rfl, h⟩
  | cons hend first _ ih =>
    obtain ⟨rfl, _⟩ := advance_eq_ok first
    obtain ⟨vs, rfl, hvs⟩ := h.advance hend first
    obtain ⟨ws, rfl, hws⟩ := ih hvs
    exact ⟨ws, rfl, hws⟩

/-- The only error that a scanner can raise here is the one that ends its tokens, and it does so
behind the last of them. -/
theorem failure_eq {e : ScanError} {s : Scanner} (h : Faces failure r ts)
    (hend : r.lookahead.isEnd = false) (hpull : TokenSource.pull r.source = (.error e, s)) :
    failure = some e ∧ ts = [r.lookahead] := by
  cases h with
  | last hend' => simp [hend] at hend'
  | more _ rest =>
    have hnext : r.source.next = (.error e, s) := hpull
    cases rest with
    | fail h => simp_all
    | finish h => simp [h] at hnext
    | more h => simp [h] at hnext

end Faces

theorem exists_pull (s : TokenList) :
    ∃ t s', TokenSource.pull s = (.ok t, s') ∧ s'.taken = s.taken + 1 := by
  simp only [TokenSource.pull, TokenList.pull]
  split <;> exact ⟨_, _, rfl, rfl⟩

theorem pull_of_prefix {t : Token} {s : TokenList} (h : t :: ts <+: s.tokens ++ [s.last]) :
    ∃ s', TokenSource.pull s = (.ok t, s') ∧ s'.taken = s.taken + 1 ∧
      t :: ts <+: t :: (s'.tokens ++ [s'.last]) := by
  simp only [TokenSource.pull, TokenList.pull]
  cases htokens : s.tokens with
  | nil =>
    rw [htokens, List.nil_append, List.cons_prefix_cons, List.prefix_nil] at h
    obtain ⟨rfl, rfl⟩ := h
    exact ⟨_, rfl, rfl, by simp⟩
  | cons t' tokens =>
    rw [htokens, List.cons_append, List.cons_prefix_cons] at h
    obtain ⟨rfl, h⟩ := h
    exact ⟨_, rfl, rfl, List.cons_prefix_cons.2 ⟨rfl, h⟩⟩

def Aligned (count : Nat) (failure : Option ScanError) (r : Reader Scanner)
    (r' : Reader TokenList) : Prop :=
  ∃ ts, Faces failure r ts ∧ r.lookahead = r'.lookahead ∧ r.consumed = r'.consumed ∧
    r'.source.taken + ts.length = count + 1 ∧
    ts <+: r'.lookahead :: (r'.source.tokens ++ [r'.source.last])

variable {count : Nat} {q : Reader TokenList}

theorem Aligned.taken_le (h : Aligned count failure r q) : q.source.taken ≤ count := by
  obtain ⟨ts, hfaces, _, _, hcount, _⟩ := h
  obtain ⟨rest, rfl⟩ := hfaces.eq_cons
  simp only [List.length_cons] at hcount
  omega

theorem taken_advance (q : Reader TokenList) :
    q.source.taken ≤ (Outcome.reader (advance q)).source.taken := by
  obtain ⟨t, s', hpull, htaken⟩ := exists_pull q.source
  cases hend : q.lookahead.isEnd with
  | true => simp [advance, hend, Outcome.reader]
  | false => simp [advance, hend, hpull, Outcome.reader, htaken]

/-- Where the scanner's tokens are used up, the list's reader goes on behind them. -/
theorem Aligned.advance (h : Aligned count failure r q) :
    Agree .exact (Aligned count failure) (fun e => ∃ x, failure = some x ∧ e = .scan x)
      (fun _ q => count < q.source.taken) Eq (Reader.advance r) (Reader.advance q) := by
  obtain ⟨ts, hfaces, hlookahead, hconsumed, hcount, hprefix⟩ := h
  cases hend : r.lookahead.isEnd with
  | true =>
    have hend' : q.lookahead.isEnd = true := hlookahead ▸ hend
    obtain ⟨rest, rfl⟩ := hfaces.eq_cons
    cases hfaces with
    | more hend' => simp [hend] at hend'
    | last _ hnone =>
      simp only [Reader.advance, hend', if_true, hlookahead, hconsumed]
      rw [hlookahead] at hprefix
      exact .ok ⟨_, .last hend' hnone, rfl, rfl, hcount, hprefix⟩ rfl
  | false =>
    have hend' : q.lookahead.isEnd = false := hlookahead ▸ hend
    cases hfaces with
    | last hend' => simp [hend] at hend'
    | more _ rest =>
      rw [hlookahead, List.cons_prefix_cons] at hprefix
      cases rest with
      | @fail _ _ e h =>
        have hpull : TokenSource.pull r.source = (.error e, _) := h
        obtain ⟨t, s', hpull', htaken⟩ := exists_pull q.source
        simp only [Reader.advance, hend, hend', hpull, hpull', Bool.false_eq_true, if_false]
        refine .parted ⟨e, rfl, rfl⟩ ?_
        simp only [Outcome.reader, htaken]
        simp only [List.length_singleton] at hcount
        omega
      | @finish _ s t h hlast =>
        have hpull : TokenSource.pull r.source = (.ok t, s) := h
        obtain ⟨s', hpull', htaken, hprefix'⟩ := pull_of_prefix hprefix.2
        simp only [Reader.advance, hend', hpull, hpull', Bool.false_eq_true, if_false,
          hlookahead, hconsumed]
        refine .ok ⟨[t], .last hlast rfl, rfl, rfl, ?_, hprefix'⟩ rfl
        simp only [List.length_cons, htaken] at hcount ⊢
        omega
      | @more _ s t ts _ h hend'' rest =>
        have hpull : TokenSource.pull r.source = (.ok t, s) := h
        obtain ⟨s', hpull', htaken, hprefix'⟩ := pull_of_prefix hprefix.2
        simp only [Reader.advance, hend', hpull, hpull', Bool.false_eq_true, if_false,
          hlookahead, hconsumed]
        refine .ok ⟨t :: ts, .more hend'' rest, rfl, rfl, ?_, hprefix'⟩ rfl
        simp only [List.length_cons, htaken] at hcount ⊢
        omega

/-- The left run parts when it needs a token that the scanner does not yield. -/
def onDemand (count : Nat) (failure : Option ScanError) : Coupling .exact Scanner TokenList where
  matched := Aligned count failure
  parts e := ∃ x, failure = some x ∧ e = .scan x
  beyond _ q := count < q.source.taken
  lookahead_like h := h.choose_spec.2.1
  consumed_like h := h.choose_spec.2.2.1 ▸ List.forall₂_refl _
  advance_agree := Aligned.advance
  advance_beyond h := Nat.lt_of_lt_of_le h (taken_advance _)

theorem follows_statement_onDemand (count : Nat) (failure : Option ScanError) (d : Nat) :
    Follows (onDemand count failure) (Option.Rel (Likeness.exact.UpTo Function.erase))
      (statement d) (statement d) :=
  follows_statement (follows_expression_self d d)

/-- How a statement fails: at its lookahead, or because the token behind it cannot be scanned.
Either way the reader stands behind the tokens it has consumed. -/
theorem stops_of_statement {σ : Type} [TokenSource σ] {d : Nat} {r r' : Reader σ} {e : Failure}
    (h : statement d r = .error e r') :
    ∃ us r₁, Consumes r us r₁ ∧ r'.lookahead = r₁.lookahead ∧ r'.consumed = r₁.consumed ∧
      ((∃ x, e = .grammar x ∧ x.token = r₁.lookahead ∧ r'.source = r₁.source) ∨
        ∃ x, e = .scan x ∧ r₁.lookahead.isEnd = false ∧
          TokenSource.pull r₁.source = (.error x, r'.source)) := by
  cases (fails_statement h).2 with
  | blocked hus | tooDeep hus =>
    exact ⟨_, _, hus, rfl, rfl, .inl ⟨_, rfl, SyntaxError.ofFault_token _ _, rfl⟩⟩
  | unscanned hus hend hpull => exact ⟨_, _, hus, rfl, rfl, .inr ⟨_, rfl, hend, hpull⟩⟩

end Reader

namespace Scanner

theorem eq_ofBytes_of_start {file : String} {bits : Int} {bytes : List UInt8} {s : Scanner}
    (h : start file bits bytes = .ok s) : s = ofBytes file bits.toNat bytes := by
  unfold start Setting.positive at h
  split at h
  · cases h
  · exact (Except.ok.inj h).symm

theorem pos_of_start {file : String} {bits : Int} {bytes : List UInt8} {s : Scanner}
    (h : start file bits bytes = .ok s) : 0 < bits := by
  by_contra hbits
  unfold start Setting.positive at h
  rw [if_pos (Int.not_lt.1 hbits)] at h
  contradiction

theorem start_eq_ofBytes {bits : Int} (h : 0 < bits) (file : String) (bytes : List UInt8) :
    start file bits bytes = .ok (ofBytes file bits.toNat bytes) := by
  unfold start Setting.positive
  rw [if_neg (Int.not_le.2 h)]
  rfl

theorem ofList?_concat (ts : List Token) {last : Token} (h : last.isEnd = true) :
    TokenList.ofList? (ts ++ [last]) = some ⟨ts, last, 0, h⟩ := by
  simp [TokenList.ofList?, h]

/-- The tokens of a source without errors are a list that a parser can read from. -/
theorem Yields.exists_source {s : Scanner} {ts : List Token} (h : s.Yields ts none) :
    ∃ source, TokenList.ofList? ts = some source := by
  generalize hnone : none = failure at h
  induction h with
  | fail => simp at hnone
  | @finish s s' t h hend =>
    exact ⟨_, ofList?_concat [] hend⟩
  | @more s s' t ts failure h hend rest ih =>
    obtain ⟨source, hsource⟩ := ih hnone
    obtain rfl := Parser.append_of_ofList? hsource
    exact ⟨_, ofList?_concat (t :: source.tokens) source.last_isEnd⟩

end Scanner

namespace Parser

open Reader

theorem taken_of_ofList? {ts : List Token} {source : TokenList}
    (h : TokenList.ofList? ts = some source) : source.taken = 0 := by
  unfold TokenList.ofList? at h
  split at h
  · contradiction
  · split at h
    · obtain rfl := Option.some.inj h
      rfl
    · contradiction

variable {ts history : List Token} {failure : Option ScanError} {p : Parser Scanner}

/-- How a parser stands towards the tokens that its scanner yielded from the start, after
`history` has been consumed. -/
structure Serves (ts : List Token) (failure : Option ScanError) (history : List Token)
    (p : Parser Scanner) : Prop where
  split : ∃ rest, ts = history ++ p.reader.lookahead :: rest
  going : p.failure = none → ∃ us, ts = history ++ us ∧ Faces failure p.reader us
  scan : ∀ e, p.failure = some (.scan e) →
    failure = some e ∧ ts = history ++ [p.reader.lookahead]
  grammar : ∀ e, p.failure = some (.grammar e) → e.token = p.reader.lookahead

theorem serves_of_faces (h : Faces failure p.reader ts) (hnone : p.failure = none) :
    Serves ts failure [] p where
  split := h.eq_cons
  going _ := ⟨ts, rfl, h⟩
  scan := by simp [hnone]
  grammar := by simp [hnone]

theorem faces_fresh {r : Reader Scanner} (h : Faces failure r ts) : Faces failure r.fresh ts := by
  cases h with
  | last hend hnone => exact .last hend hnone
  | more hend rest => exact .more hend rest

namespace Serves

/-- Every call keeps it. -/
theorem next (h : Serves ts failure history p) :
    Serves ts failure (history ++ p.taken) p.next.2 := by
  cases hfailure : p.failure with
  | some e => simpa [taken, hfailure, next_of_failure hfailure] using h
  | none =>
    obtain ⟨us, rfl, hfaces⟩ := h.going hfailure
    rcases hnext : p.next with ⟨e | _ | f, q⟩
    · rcases next_eq_error.1 hnext with ⟨hsome, _⟩ | ⟨_, r', hstatement, rfl⟩
      · simp [hfailure] at hsome
      obtain ⟨vs, r₁, hvs, hlookahead, hconsumed, hcause⟩ := stops_of_statement hstatement
      obtain ⟨ws, rfl, hws⟩ := (faces_fresh hfaces).consumes hvs
      obtain ⟨rest, hrest⟩ := hws.eq_cons
      have htaken : p.taken = vs := by
        simp only [taken, hfailure, hnext]
        rw [hconsumed, hvs.reverse_consumed]
      refine ⟨⟨rest, by simp [htaken, hlookahead, hrest]⟩, by simp, fun x hx => ?_, fun x hx => ?_⟩
      · obtain rfl := Option.some.inj hx
        rcases hcause with ⟨_, hgrammar, _⟩ | ⟨x', hscan, hend, hpull⟩
        · cases hgrammar
        · cases hscan
          obtain ⟨hfailed, hws'⟩ := hws.failure_eq hend hpull
          exact ⟨hfailed, by simp [htaken, hlookahead, hws']⟩
      · obtain rfl := Option.some.inj hx
        rcases hcause with ⟨x', hgrammar, htoken, _⟩ | ⟨_, hscan, _⟩
        · cases hgrammar
          exact htoken.trans hlookahead.symm
        · cases hscan
    · obtain ⟨_, _, htaken, rfl⟩ := next_none hnext
      simpa [htaken] using
        (⟨h.split, fun _ => ⟨us, rfl, faces_fresh hfaces⟩, h.scan, h.grammar⟩ :
          Serves _ failure history { p with reader := p.reader.fresh })
    · obtain ⟨_, hnone, _, hvs, _⟩ := next_some hnext
      obtain ⟨ws, rfl, hws⟩ := (faces_fresh hfaces).consumes hvs
      obtain ⟨rest, hrest⟩ := hws.eq_cons
      exact ⟨⟨rest, by simp [hrest]⟩, fun _ => ⟨ws, by simp, hws⟩, by simp [hnone], by simp [hnone]⟩

theorem calls {q : Parser Scanner} {us : List Token} (h : Serves ts failure [] p)
    (hcalls : Calls p us q) : Serves ts failure us q := by
  induction hcalls with
  | none => exact h
  | next _ ih => exact ih.next

/-- A parser that has come to the end of input has consumed all tokens before it. -/
theorem eq_of_isEnd (h : Serves ts failure history p) (hnone : p.failure = none)
    (hend : p.reader.lookahead.isEnd = true) :
    failure = none ∧ ts = history ++ [p.reader.lookahead] := by
  obtain ⟨us, rfl, hus⟩ := h.going hnone
  cases hus with
  | last _ hfailure => exact ⟨hfailure, rfl⟩
  | more hend' => simp [hend] at hend'

theorem of_start {s : Scanner} (h : s.Yields ts failure) {maxDepth : Int}
    (hp : start maxDepth s = .ok p) : Serves ts failure [] p := by
  obtain ⟨t, s', hpull, rfl⟩ := eq_of_start hp
  exact serves_of_faces (.of_yields h hpull) rfl

/-- The tokens that a call consumes for a function are a stretch of all tokens, and they derive the
function within the limit. -/
theorem taken_stretch {s : Scanner} (h : s.Yields ts failure) {maxDepth : Int}
    (hp : start maxDepth s = .ok p) {n : Nat} {f : Function} {q : Parser Scanner}
    (hnext : (p.after n).next = (.ok (some f), q)) :
    ∃ before behind, ts = before ++ ((p.after n).taken ++ behind) ∧
      (∀ t ∈ (p.after n).taken, t.isEnd = false) ∧
      ∃ d ≤ maxDepth.toNat, DerivesStatement f d (p.after n).taken := by
  obtain ⟨history, hcalls, _⟩ := calls_after p n
  obtain ⟨rest, hrest⟩ := ((of_start h hp).calls hcalls).next.split
  obtain ⟨_, _, _, hconsumes, _, d, hd, hderives⟩ := next_some hnext
  have hlimit : (p.after n).maxDepth = maxDepth.toNat := by
    obtain ⟨_, _, _, rfl⟩ := eq_of_start hp
    exact maxDepth_after _ n
  rw [hlimit] at hd
  rw [List.append_assoc] at hrest
  exact ⟨history, _, hrest, hconsumes.isEnd_eq_false, d, hd, hderives⟩

theorem exists_stretch {s : Scanner} (h : s.Yields ts failure) {maxDepth : Int}
    (hp : start maxDepth s = .ok p) {n : Nat} {f : Function} {q : Parser Scanner}
    (hnext : (p.after n).next = (.ok (some f), q)) :
    ∃ before us behind, ts = before ++ (us ++ behind) ∧ (∀ t ∈ us, t.isEnd = false) ∧
      ∃ d ≤ maxDepth.toNat, DerivesStatement f d us :=
  have ⟨before, behind, hstretch⟩ := taken_stretch h hp hnext
  ⟨before, _, behind, hstretch⟩

/-- A syntax error is about a token, so it lies before the error that ends the tokens. -/
theorem grammar_before {s : Scanner} {e : SyntaxError} {x : ScanError}
    (h : Serves ts (some x) history p) (hspells : s.Spells ts (some x))
    (hfailure : p.failure = some (.grammar e)) :
    e.token ∈ ts ∧ e.token.location.offset < x.location.offset := by
  obtain ⟨rest, hrest⟩ := h.split
  have hmem : e.token ∈ ts := by simp [h.grammar e hfailure, hrest]
  have hplaces := hspells.increasing.2
  rw [Scanner.places, List.pairwise_append] at hplaces
  exact ⟨hmem, hplaces.2.2 _ (List.mem_map_of_mem hmem) _ (by simp)⟩

end Serves

/-- How a run on a scanner that yields `ts` and then `failure` goes along with the same run on a
list that begins with `ts`. -/
structure AlongList (ts : List Token) (failure : Option ScanError) (p : Parser Scanner)
    (q : Parser TokenList) : Prop where
  answers_eq : ∀ n, (q.after n).position ≤ ts.length → p.answers n = q.answers n
  error_behind : ∀ n, (q.after n).position ≤ ts.length →
    ts.length < (q.after (n + 1)).position →
    ∃ e, failure = some e ∧ (p.after n).next.1 = .error (.scan e)
  enough : failure = none → ∀ n, (q.after n).position ≤ ts.length

variable {count n : Nat} {q : Parser TokenList}

/-- A list's parser that has gone behind the first `count` tokens stays there. -/
theorem lt_position_next (r : Reader Scanner) (h : count < q.position) :
    count < q.next.2.position := by
  cases hfailure : q.failure with
  | some e => rwa [next_of_failure hfailure]
  | none =>
    have hbeyond := (follows_statement_onDemand count none q.maxDepth).beyond
      (s := r) (r := q.reader.fresh) h
    rwa [← reader_next hfailure] at hbeyond

theorem coupled_after (h : Coupled (onDemand count failure) p q)
    (hn : (q.after n).position ≤ count) :
    p.answers n = q.answers n ∧ Coupled (onDemand count failure) (p.after n) (q.after n) := by
  induction n with
  | zero => exact ⟨rfl, h⟩
  | succ n ih =>
    have hbefore : (q.after n).position ≤ count := by
      apply Nat.le_of_not_lt
      intro hlt
      have hle := lt_position_next p.reader hlt
      exact absurd hn (Nat.not_le.2 hle)
    obtain ⟨hanswers, hcoupled⟩ := ih hbefore
    rcases hcoupled.next with ⟨hanswer, hnext⟩ | ⟨_, _, _, hbeyond⟩
    · exact ⟨by rw [answers, answers, hanswers, eq_of_answersAlike_exact hanswer], hnext⟩
    · exact absurd hn (Nat.not_le.2 hbeyond)

theorem alongList_of_coupled (h : Coupled (onDemand ts.length failure) p q) :
    AlongList ts failure p q where
  answers_eq n hn := (coupled_after h hn).1
  error_behind n hn hlt := by
    rcases (coupled_after h hn).2.next with ⟨_, hnext⟩ | ⟨e, herror, ⟨x, hx, rfl⟩, _⟩
    · exact absurd hnext.matched.taken_le (Nat.not_le.2 hlt)
    · exact ⟨x, hx, herror⟩
  enough hnone n := by
    induction n with
    | zero => exact h.matched.taken_le
    | succ n ih =>
      rcases (coupled_after h ih).2.next with ⟨_, hnext⟩ | ⟨_, _, ⟨x, hx, _⟩, _⟩
      · exact hnext.matched.taken_le
      · simp [hnone] at hx

theorem coupled_of_faces {r : Reader Scanner} {r' : Reader TokenList} (d : Nat)
    (h : Aligned count failure r r') :
    Coupled (onDemand count failure) ⟨d, r, none⟩ ⟨d, r', none⟩ where
  follows := follows_statement_onDemand count failure d
  fresh := fun ⟨ts, hfaces, hlookahead, _, hcount, hprefix⟩ =>
    ⟨ts, faces_fresh hfaces, hlookahead, rfl, hcount, hprefix⟩
  matched := h
  failure_like := .none

theorem exists_alongList {s : Scanner} (h : s.Yields ts failure) {maxDepth : Int}
    (hp : start maxDepth s = .ok p) {source : TokenList} (htaken : source.taken = 0)
    (hfront : ts <+: source.tokens ++ [source.last]) :
    ∃ q, start maxDepth source = .ok q ∧ AlongList ts failure p q := by
  have hdepth := pos_of_start hp
  obtain ⟨t, s₁, hpull, rfl⟩ := eq_of_start hp
  have hfaces : Faces failure ⟨s₁, t, []⟩ ts := .of_yields h hpull
  obtain ⟨rest, rfl⟩ := hfaces.eq_cons
  obtain ⟨source', hpull', htaken', hprefix'⟩ := pull_of_prefix hfront
  refine ⟨_, by rw [start_eq hdepth, hpull'], alongList_of_coupled (coupled_of_faces _ ?_)⟩
  exact ⟨_, hfaces, rfl, rfl, by rw [htaken', htaken, Nat.zero_add, Nat.add_comm], hprefix'⟩

theorem exists_start {s : Scanner} {ts : List Token} (h : s.Yields ts none) {maxDepth : Int}
    (hdepth : 0 < maxDepth) : ∃ p, start maxDepth s = .ok p := by
  cases h with
  | finish hnext | more hnext =>
    have hpull : TokenSource.pull s = _ := hnext
    exact ⟨_, by rw [start_eq hdepth, hpull]⟩

/-- A parser on a scanner that meets no error answers as on the list of its tokens. -/
theorem exists_list {s : Scanner} (h : s.Yields ts none) {maxDepth : Int}
    (hp : start maxDepth s = .ok p) :
    ∃ source q, TokenList.ofList? ts = some source ∧ start maxDepth source = .ok q ∧
      ∀ n, (p.after n).answer = (q.after n).answer := by
  obtain ⟨source, hsource⟩ := h.exists_source
  have hts := append_of_ofList? hsource
  obtain ⟨q, hq, halong⟩ := exists_alongList h hp (taken_of_ofList? hsource) (hts ▸ List.prefix_rfl)
  refine ⟨source, q, hsource, hq, fun n => answer_eq_of_answers_eq ?_⟩
  exact halong.answers_eq (n + 1) (halong.enough rfl (n + 1))

/-- What a parser on a scanner does, by the tokens that the scanner yields and by the error that
ends them: constructing it fails only where there is no first token, its calls go along with those
on a list of the tokens, and what all of its calls end in is told by scanning alone. -/
theorem on_demand_along_list (file : String) (bits : Int) (bytes : List UInt8) {s : Scanner}
    (hs : Scanner.start file bits bytes = .ok s) (maxDepth : Int) (hdepth : 0 < maxDepth) :
    ∃ ts failure, s.Yields ts failure ∧
      (ts = [] → ∃ e s', failure = some e ∧ start maxDepth s = .error (.scan e) ∧
        s.all = (.error e, s')) ∧
      (ts ≠ [] → ∃ p, start maxDepth s = .ok p ∧
        (∀ source : TokenList, source.taken = 0 → ts <+: source.tokens ++ [source.last] →
          ∃ q, start maxDepth source = .ok q ∧ AlongList ts failure p q) ∧
        (∀ fs q, p.all = (.ok fs, q) → ∃ s', s.all = (.ok ts, s')) ∧
        (∀ e, p.Raises (.scan e) → ∃ s', s.all = (.error e, s')) ∧
        ∀ e x, p.Raises (.grammar e) → failure = some x →
          e.token ∈ ts ∧ e.token.location.offset < x.location.offset) := by
  obtain rfl := Scanner.eq_ofBytes_of_start hs
  obtain ⟨ts, failure, hyields⟩ := Scanner.exists_yields (Scanner.ofBytes file bits.toNat bytes)
  have hspells := hyields.spells rfl
  obtain ⟨s', hall⟩ := hyields.all_eq
  generalize Scanner.ofBytes file bits.toNat bytes = s at hyields hspells hall
  refine ⟨ts, failure, hyields, fun hnil => ?_, fun hne => ?_⟩
  · subst hnil
    cases hyields with
    | @fail _ s₁ e hnext =>
      have hpull : TokenSource.pull s = (.error e, s₁) := hnext
      exact ⟨e, s', rfl, by rw [start_eq hdepth, hpull], hall⟩
  rcases hnext : s.next with ⟨e | t, s₁⟩
  · cases hyields <;> simp_all
  have hpull : TokenSource.pull s = (.ok t, s₁) := hnext
  have hfaces : Faces failure ⟨s₁, t, []⟩ ts := .of_yields hyields hnext
  have hserves : Serves ts failure [] ⟨maxDepth.toNat, ⟨s₁, t, []⟩, none⟩ :=
    serves_of_faces hfaces rfl
  refine ⟨_, by rw [start_eq hdepth, hpull], fun source htaken hprefix => ?_, ?_, ?_, ?_⟩
  · obtain ⟨rest, rfl⟩ := hfaces.eq_cons
    obtain ⟨source', hpull', htaken', hprefix'⟩ := pull_of_prefix hprefix
    refine ⟨_, by rw [start_eq hdepth, hpull'], alongList_of_coupled (coupled_of_faces _ ?_)⟩
    exact ⟨_, hfaces, rfl, rfl, by rw [htaken', htaken, Nat.zero_add, Nat.add_comm], hprefix'⟩
  · intro fs q hok
    obtain ⟨us, hcalls, hnone, hend⟩ := (all_eq_ok.1 hok).calls
    obtain ⟨hfailure, _⟩ := (hserves.calls hcalls).eq_of_isEnd hnone (hend rfl)
    exact ⟨s', by rw [hall, hfailure]; rfl⟩
  · intro e herror
    obtain ⟨us, q, hcalls, hfailure⟩ := herror.calls
    exact ⟨s', by rw [hall, ((hserves.calls hcalls).scan e hfailure).1]; rfl⟩
  · intro e x herror hx
    subst hx
    obtain ⟨us, q, hcalls, hfailure⟩ := herror.calls
    exact (hserves.calls hcalls).grammar_before hspells hfailure

/-- A byte that begins no token, behind an operator. -/
theorem on_demand_invalid_byte :
    Scanner.start "f" 64 [0x31, 0x20, 0x2b, 0x24] =
        .ok (Scanner.ofBytes "f" 64 [0x31, 0x20, 0x2b, 0x24]) ∧ (0 : Int) < 3 ∧
      ∃ ts failure, (Scanner.ofBytes "f" 64 [0x31, 0x20, 0x2b, 0x24]).Yields ts failure ∧
        ∃ p, start 3 (Scanner.ofBytes "f" 64 [0x31, 0x20, 0x2b, 0x24]) = .ok p ∧
          ∀ source : TokenList, source.taken = 0 → ts <+: source.tokens ++ [source.last] →
            ∃ q, start 3 source = .ok q ∧ AlongList ts failure p q := by
  have hs : Scanner.start "f" 64 [0x31, 0x20, 0x2b, 0x24] =
    .ok (Scanner.ofBytes "f" 64 [0x31, 0x20, 0x2b, 0x24]) := rfl
  obtain ⟨ts, failure, hyields, _, hsome⟩ := on_demand_along_list "f" 64 _ hs 3 (by decide)
  have hne : ts ≠ [] := by
    intro hnil
    subst hnil
    cases hyields with
    | fail hnext => cases hnext
  obtain ⟨p, hstart, halong, _⟩ := hsome hne
  exact ⟨hs, by decide, ts, failure, hyields, p, hstart, halong⟩

end Parser
end ExprLang
