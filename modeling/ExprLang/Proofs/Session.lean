import ExprLang.Parser
import ExprLang.Proofs.Boundaries

/-!
# Runs of a parser

Calls of a parser one after another, with the tokens they consume. On a list of tokens the
consumed tokens and those ahead always make up the input, and the recognizer has read what has
been consumed: it may end there as long as no call has failed, and after a failure it is stuck
at the lookahead.
-/
namespace ExprLang

namespace Reader

variable {σ : Type} {r r' : Reader σ}

def fresh (r : Reader σ) : Reader σ := { r with consumed := [] }

@[simp] theorem fresh_lookahead : r.fresh.lookahead = r.lookahead := rfl

@[simp] theorem ahead_fresh (r : Reader TokenList) : r.fresh.ahead = r.ahead := rfl

variable [TokenSource σ]

@[simp] theorem remaining_fresh : r.fresh.remaining = r.remaining := rfl

theorem Consumes.reverse_consumed {ts : List Token} (h : Consumes r.fresh ts r') :
    r'.consumed.reverse = ts := by
  rw [h.consumed_eq]
  simp [fresh]

/-- A statement is missing at the end of input only, and then nothing is consumed. -/
theorem statement_eq_none {maxDepth : Nat} :
    statement maxDepth r = .ok none r' ↔ r.lookahead.isEnd = true ∧ r = r' := by
  simp only [statement, peek_bind]
  cases hnext : r.lookahead.terminal with
  | endOfInput => simp [pure_eq_ok, Token.isEnd, hnext]
  | keyword word => cases word <;> simp [map_some_ne_none, Token.isEnd, hnext]
  | _ => simp [map_some_ne_none, Token.isEnd, hnext]

end Reader

namespace Parser

variable {σ : Type} [TokenSource σ] {p p' q q' : Parser σ} {f : Function} {e : Failure}
  {fs gs : List Function} {failure failure' : Option Failure} {ts us : List Token}

theorem next_eq_ok {result : Option Function} : p.next = (.ok result, q) ↔
    p.failure = none ∧ ∃ r', Reader.statement p.maxDepth p.reader.fresh = .ok result r' ∧
      q = { p with reader := r' } := by
  unfold next Reader.fresh
  cases p.failure with
  | some e => simp
  | none =>
    cases Reader.statement p.maxDepth { p.reader with consumed := [] } with
    | ok g r' =>
      simp only [Prod.mk.injEq, Except.ok.injEq, EStateM.Result.ok.injEq, true_and]
      constructor
      · rintro ⟨rfl, rfl⟩
        exact ⟨r', ⟨rfl, rfl⟩, rfl⟩
      · rintro ⟨_, ⟨rfl, rfl⟩, rfl⟩
        exact ⟨rfl, rfl⟩
    | error e r' => simp

theorem next_eq_error : p.next = (.error e, q) ↔
    (p.failure = some e ∧ q = p) ∨ (p.failure = none ∧
      ∃ r', Reader.statement p.maxDepth p.reader.fresh = .error e r' ∧
        q = { p with reader := r', failure := some e }) := by
  unfold next Reader.fresh
  cases p.failure with
  | some e' => simp [eq_comm]
  | none =>
    cases Reader.statement p.maxDepth { p.reader with consumed := [] } with
    | ok g r' => simp
    | error e' r' =>
      simp only [Prod.mk.injEq, Except.error.injEq, EStateM.Result.error.injEq, true_and]
      constructor
      · rintro ⟨rfl, rfl⟩
        exact .inr ⟨r', ⟨rfl, rfl⟩, rfl⟩
      · rintro (⟨h, _⟩ | ⟨_, ⟨rfl, rfl⟩, rfl⟩)
        · contradiction
        · exact ⟨rfl, rfl⟩

theorem failure_of_next (h : p.next = (.error e, q)) : q.failure = some e := by
  rcases next_eq_error.1 h with ⟨hfailure, rfl⟩ | ⟨_, r', _, rfl⟩
  · exact hfailure
  · rfl

def taken (p : Parser σ) : List Token :=
  match p.failure with
  | none => p.next.2.reader.consumed.reverse
  | some _ => []

theorem taken_of_consumes (hnone : p.failure = none)
    (h : Reader.Consumes p.reader.fresh ts p.next.2.reader) : p.taken = ts := by
  rw [taken, hnone]
  exact h.reverse_consumed

theorem next_some (h : p.next = (.ok (some f), q)) :
    p.failure = none ∧ q.failure = none ∧ q.maxDepth = p.maxDepth ∧
      Reader.Consumes p.reader.fresh p.taken q.reader ∧
      (f.body?.isSome = true → EndsBefore q.reader.lookahead p.taken) ∧
      ∃ d ≤ p.maxDepth, DerivesStatement f d p.taken := by
  obtain ⟨hnone, r', hstatement, rfl⟩ := next_eq_ok.1 h
  obtain ⟨ts, hts, hend, hderives⟩ := Reader.readsStatement_statement hstatement
  have htaken : p.taken = ts := taken_of_consumes hnone (by rw [h]; exact hts)
  rw [htaken]
  exact ⟨hnone, hnone, rfl, hts, hend, hderives⟩

theorem next_none (h : p.next = (.ok none, q)) :
    p.failure = none ∧ p.reader.lookahead.isEnd = true ∧ p.taken = [] ∧
      q = { p with reader := p.reader.fresh } := by
  obtain ⟨hnone, r', hstatement, rfl⟩ := next_eq_ok.1 h
  obtain ⟨hend, rfl⟩ := Reader.statement_eq_none.1 hstatement
  exact ⟨hnone, hend, taken_of_consumes hnone (by rw [h]; exact .nil _), rfl⟩

theorem remaining_next (h : p.next = (.ok (some f), q)) :
    q.reader.remaining < p.reader.remaining := by
  obtain ⟨_, _, _, hts, _, d, _, hderives⟩ := next_some h
  have hlength := List.length_pos_iff.2 hderives.ne_nil
  have hle := hts.remaining_le
  rw [Reader.remaining_fresh] at hle
  omega

/-- `Calls p ts q`: calls of `next` lead from `p` to `q` and consume the tokens `ts`. -/
inductive Calls (p : Parser σ) : List Token → Parser σ → Prop
  | none : Calls p [] p
  | next {ts : List Token} {q : Parser σ} (before : Calls p ts q) :
      Calls p (ts ++ q.taken) q.next.2

theorem Calls.one (h : p.next.2 = q) : Calls p p.taken q := by
  simpa [h] using Calls.next (p := p) .none

theorem Calls.cons (rest : Calls p' ts q) (h : p.next.2 = p') : Calls p (p.taken ++ ts) q := by
  induction rest with
  | none => simpa using Calls.one h
  | next _ ih => simpa using ih.next

/-- `Yields p fs failure q`: calls of `next` deliver the functions `fs`, and then the input ends
or the next call fails. -/
inductive Yields : Parser σ → List Function → Option Failure → Parser σ → Prop
  | finish {p q : Parser σ} (h : p.next = (.ok none, q)) : Yields p [] none q
  | fail {p q : Parser σ} {e : Failure} (h : p.next = (.error e, q)) : Yields p [] (some e) q
  | more {p p' q : Parser σ} {f : Function} {fs : List Function} {failure : Option Failure}
      (h : p.next = (.ok (some f), p')) (rest : Yields p' fs failure q) :
      Yields p (f :: fs) failure q

theorem Yields.unique (h : Yields p fs failure q) (g : Yields p gs failure' q') :
    fs = gs ∧ failure = failure' ∧ q = q' := by
  induction h generalizing gs with
  | finish h => cases g <;> simp_all
  | fail h => cases g <;> simp_all
  | more h _ ih =>
    cases g with
    | finish h' | fail h' => simp [h] at h'
    | more h' rest =>
      rw [h, Prod.mk.injEq, Except.ok.injEq, Option.some.injEq] at h'
      obtain ⟨rfl, rfl⟩ := h'
      obtain ⟨rfl, hrest⟩ := ih rest
      exact ⟨rfl, hrest⟩

/-- Enough rounds deliver everything. -/
theorem yields_take {n : Nat} (h : p.reader.remaining < n) :
    Yields p ((p.take n).1.map Prod.fst) (p.take n).2.1 (p.take n).2.2 := by
  induction n generalizing p with
  | zero => omega
  | succ n ih =>
    rcases hnext : p.next with ⟨e | _ | f, p'⟩
    · simp only [take, hnext]
      exact Yields.fail hnext
    · simp only [take, hnext]
      exact Yields.finish hnext
    · have hlt := remaining_next hnext
      have hrest := ih (p := p') (by omega)
      simp only [take, hnext]
      exact Yields.more hnext hrest

theorem exists_yields (p : Parser σ) : ∃ fs failure q, Yields p fs failure q :=
  ⟨_, _, _, yields_take (Nat.lt_succ_self p.reader.remaining)⟩

theorem all_eq_ok : p.all = (.ok fs, q) ↔ Yields p fs none q := by
  have htake := yields_take (Nat.lt_succ_self p.reader.remaining)
  unfold all
  rcases hitems : p.take (p.reader.remaining + 1) with ⟨items, failure, p'⟩
  rw [hitems] at htake
  constructor
  · intro h
    cases failure with
    | some e => simp at h
    | none =>
      simp only [Prod.mk.injEq, Except.ok.injEq] at h
      obtain ⟨rfl, rfl⟩ := h
      exact htake
  · intro h
    obtain ⟨rfl, hfailure, rfl⟩ := h.unique htake
    simp only at hfailure
    subst hfailure
    rfl

theorem all_eq_error : p.all = (.error e, q) ↔ ∃ fs, Yields p fs (some e) q := by
  have htake := yields_take (Nat.lt_succ_self p.reader.remaining)
  unfold all
  rcases hitems : p.take (p.reader.remaining + 1) with ⟨items, failure, p'⟩
  rw [hitems] at htake
  constructor
  · intro h
    cases failure with
    | none => simp at h
    | some e' =>
      simp only [Prod.mk.injEq, Except.error.injEq] at h
      obtain ⟨rfl, rfl⟩ := h
      exact ⟨_, htake⟩
  · intro hyields
    rcases hyields with ⟨fs, h⟩
    obtain ⟨_, hfailure, rfl⟩ := h.unique htake
    simp only at hfailure
    subst hfailure
    rfl

/-- Everything delivered comes from calls, and they go on to the end of input or to a failure. -/
theorem Yields.calls (h : Yields p fs failure q) :
    ∃ ts, Calls p ts q ∧ q.failure = failure ∧
      (failure = none → q.reader.lookahead.isEnd = true) := by
  induction h with
  | @finish p q h =>
    have hcalls := Calls.one (congrArg Prod.snd h)
    obtain ⟨hnone, hend, _, rfl⟩ := next_none h
    exact ⟨_, hcalls, hnone, fun _ => hend⟩
  | @fail p q e h =>
    exact ⟨_, Calls.one (congrArg Prod.snd h), failure_of_next h, by simp⟩
  | more h _ ih =>
    obtain ⟨ts, hcalls, hfailure, hend⟩ := ih
    exact ⟨_, hcalls.cons (congrArg Prod.snd h), hfailure, hend⟩

/-- How a parser stands towards the tokens `input` before the end of input and the end of input
behind them, after `history` has been consumed. -/
structure Tracks (input : List Token) (ending : Token) (history : List Token)
    (p : Parser TokenList) : Prop where
  depth : input.length < p.maxDepth
  split : history ++ p.reader.ahead = input ++ [ending]
  going : p.failure = none → Between history p.reader.lookahead
  failed : ∀ e, p.failure = some e → Rejected history p.reader.lookahead e

namespace Tracks

open Grammar Recognizer

variable {input history : List Token} {ending : Token} {p q : Parser TokenList}

/-- Every call keeps it. -/
theorem next (h : Tracks input ending history p) :
    Tracks input ending (history ++ p.taken) p.next.2 := by
  have hlength := congrArg List.length h.split
  rw [List.length_append, List.length_append, List.length_singleton] at hlength
  have hdepth := h.depth
  rcases hnext : p.next with ⟨e | _ | f, q⟩
  · rcases next_eq_error.1 hnext with ⟨hfailure, rfl⟩ | ⟨hnone, r', hstatement, rfl⟩
    · simpa [taken, hfailure] using h
    · have hbetween : Between history p.reader.fresh.lookahead := h.going hnone
      obtain ⟨ts, hts, hrejected⟩ := Reader.rejected_of_statement hbetween hstatement
        (by rw [Reader.ahead_fresh]; omega)
      have htaken : p.taken = ts := taken_of_consumes hnone (by rw [hnext]; exact hts)
      have hahead := hts.ahead_eq
      rw [Reader.ahead_fresh] at hahead
      rw [htaken]
      refine ⟨hdepth, by simp [← h.split, hahead], by simp, fun e' he' => ?_⟩
      obtain rfl := Option.some.inj he'
      exact hrejected
  · obtain ⟨_, _, htaken, rfl⟩ := next_none hnext
    simpa [htaken] using ⟨h.depth, h.split, h.going, h.failed⟩
  · obtain ⟨hnone, hnone', hmax, hts, hend, d, _, hderives⟩ := next_some hnext
    have hahead := hts.ahead_eq
    rw [Reader.ahead_fresh] at hahead
    refine ⟨by simpa [hmax] using hdepth, by simp [← h.split, hahead], fun _ => ?_,
      by simp [hnone']⟩
    have hbetween := h.going hnone
    cases htaken : p.taken with
    | nil => exact absurd htaken hderives.ne_nil
    | cons t ts =>
      rw [htaken] at hts hend hderives
      rw [← Reader.fresh_lookahead, hts.lookahead_eq] at hbetween
      exact hbetween.statement hderives hend

theorem calls {ts : List Token} (h : Tracks input ending [] p) (hcalls : Calls p ts q) :
    Tracks input ending ts q := by
  induction hcalls with
  | none => exact h
  | next _ ih => exact ih.next

theorem eq_of_isEnd (h : Tracks input ending history p) (hend : p.reader.lookahead.isEnd = true) :
    history = input := by
  have hsplit := h.split
  rw [Reader.ahead_of_isEnd hend] at hsplit
  exact (List.append_inj' hsplit rfl).1

/-- The lookahead is the first token that has not been consumed. -/
theorem exists_eq {ts rest : List Token} (h : Tracks input ending history p)
    (hts : ts = input ++ ending :: rest) : ∃ us, ts = history ++ p.reader.lookahead :: us := by
  obtain ⟨us, hus⟩ := Reader.ahead_eq_cons p.reader
  refine ⟨us ++ rest, ?_⟩
  have hsplit := congrArg (· ++ rest) h.split
  simp only [hus, List.append_assoc, List.cons_append, List.nil_append] at hsplit
  rw [hts, ← hsplit]

/-- Before the end of input the lookahead is the next token of the input. -/
theorem exists_input_eq (h : Tracks input ending history p)
    (hend : p.reader.lookahead.isEnd = false) (hending : ending.isEnd = true) :
    ∃ us, input = history ++ p.reader.lookahead :: us := by
  obtain ⟨us, hus⟩ := Reader.ahead_eq_cons p.reader
  have hprefix : history ++ [p.reader.lookahead] <+: input ++ [ending] :=
    ⟨us, by rw [← h.split, hus, List.append_assoc, List.singleton_append]⟩
  rcases List.prefix_concat_iff.1 hprefix with heq | ⟨us', hus'⟩
  · have hlast := (List.append_inj' heq rfl).2
    simp only [List.cons.injEq, and_true] at hlast
    simp [hlast, hending] at hend
  · exact ⟨us', by rw [← hus', List.append_assoc, List.singleton_append]⟩

theorem sentence_of_yields {fs : List Function} (h : Tracks input ending [] p)
    (hyields : Yields p fs none q) : Sentence (terminals input) := by
  obtain ⟨ts, hcalls, hnone, hend⟩ := hyields.calls
  have hq := h.calls hcalls
  obtain ⟨s, hs, haccepting, _⟩ := hq.going hnone
  rw [← hq.eq_of_isEnd (hend rfl)]
  exact (sentence_iff_accepting hs).2 haccepting

theorem not_sentence_of_failed {e : Failure} (h : Tracks input ending history p)
    (hending : ending.isEnd = true) (hfailed : p.failure = some e) :
    ¬ Sentence (terminals input) := by
  have hrejected := h.failed e hfailed
  cases hend : p.reader.lookahead.isEnd with
  | true => exact h.eq_of_isEnd hend ▸ hrejected.not_sentence hend
  | false =>
    obtain ⟨us, hus⟩ := h.exists_input_eq hend hending
    intro hsentence
    refine hrejected.not_viable ⟨terminals us, ?_⟩
    rwa [← terminals_append, List.append_assoc, List.singleton_append, ← hus]

end Tracks

theorem append_of_ofList? {ts : List Token} {source : TokenList}
    (h : TokenList.ofList? ts = some source) : ts = source.tokens ++ [source.last] := by
  unfold TokenList.ofList? at h
  cases hlast : ts.getLast? with
  | none => simp [hlast] at h
  | some last =>
    simp only [hlast] at h
    split at h
    · next hend =>
      obtain rfl := Option.some.inj h
      obtain ⟨us, rfl⟩ := List.getLast?_eq_some_iff.1 hlast
      simp
    · simp at h

/-- A parser with a positive limit starts unless the first token cannot be scanned. -/
theorem start_eq {source : σ} {maxDepth : Int} (h : 0 < maxDepth) :
    start maxDepth source = match TokenSource.pull source with
      | (.ok t, s) => .ok ⟨maxDepth.toNat, ⟨s, t, []⟩, none⟩
      | (.error e, _) => .error (.scan e) := by
  have hpositive : ¬ maxDepth ≤ 0 := by omega
  have hmax : Setting.positive .maxDepth maxDepth = .ok maxDepth.toNat := by
    simp only [Setting.positive, hpositive, if_false]
  unfold start ofSource
  rw [hmax]
  rcases TokenSource.pull source with ⟨e | t, s⟩ <;> rfl

/-- A parser starts on any list of tokens that ends in an end of input, and it has the tokens
through the first end of input ahead. -/
theorem start_ahead {ts : List Token} {source : TokenList}
    (hsource : TokenList.ofList? ts = some source) {maxDepth : Int} (hdepth : 0 < maxDepth) :
    ∃ p, start maxDepth source = .ok p ∧ p.failure = none ∧ p.maxDepth = maxDepth.toNat ∧
      p.reader.ahead = throughEnd ts := by
  obtain rfl := append_of_ofList? hsource
  rw [start_eq hdepth]
  simp only [TokenSource.pull, TokenList.pull]
  cases htokens : source.tokens with
  | nil => exact ⟨_, rfl, rfl, rfl, by simp [Reader.ahead, throughEnd, source.last_isEnd]⟩
  | cons t tokens => exact ⟨_, rfl, rfl, rfl, rfl⟩

theorem start_tracks {ts : List Token} {source : TokenList}
    (hsource : TokenList.ofList? ts = some source) {maxDepth : Int}
    (hdepth : ((beforeEnd ts).length : Int) < maxDepth) :
    ∃ p ending rest, start maxDepth source = .ok p ∧ p.failure = none ∧
      ending.isEnd = true ∧ ts = beforeEnd ts ++ ending :: rest ∧
      Tracks (beforeEnd ts) ending [] p := by
  have hpositive : 0 < maxDepth := by omega
  obtain ⟨p, hstart, hnone, hmax, hahead⟩ := start_ahead hsource hpositive
  obtain rfl := append_of_ofList? hsource
  obtain ⟨ending, rest, hending, hthrough, hsplit⟩ :=
    throughEnd_append source.last_isEnd source.tokens
  refine ⟨p, ending, rest, hstart, hnone, hending, hsplit, by omega, ?_, fun _ => between_nil _, ?_⟩
  · rw [hahead, hthrough, List.nil_append]
  · simp [hnone]

end Parser
end ExprLang
