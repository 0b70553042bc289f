import ExprLang.Proofs.Completeness
import ExprLang.Proofs.Failures

/-!
# Between statements

What a reader of a list of tokens has ahead, and where the recognizer stands between two
statements: the input may end there, and the token ahead can only begin the next one. A
statement that cannot be read is rejected where the recognizer is stuck.
-/
namespace ExprLang

open Recognizer

def beforeEnd (ts : List Token) : List Token := ts.takeWhile fun t => !t.isEnd

/-- The tokens up to the first end of input, which is the last of them. -/
def throughEnd : List Token → List Token
  | [] => []
  | t :: ts => if t.isEnd then [t] else t :: throughEnd ts

/-- Where there is an end of input, the first one comes behind the tokens before it. -/
theorem throughEnd_append {last : Token} (hlast : last.isEnd = true) (ts : List Token) :
    ∃ ending rest, ending.isEnd = true ∧
      throughEnd (ts ++ [last]) = beforeEnd (ts ++ [last]) ++ [ending] ∧
      ts ++ [last] = beforeEnd (ts ++ [last]) ++ ending :: rest := by
  induction ts with
  | nil => exact ⟨last, [], hlast, by simp [throughEnd, beforeEnd, hlast]⟩
  | cons t ts ih =>
    cases hend : t.isEnd with
    | true => exact ⟨t, ts ++ [last], hend, by simp [throughEnd, beforeEnd, hend]⟩
    | false =>
      obtain ⟨ending, rest, hending, hthrough, hsplit⟩ := ih
      refine ⟨ending, rest, hending, ?_, ?_⟩
      · simpa [throughEnd, beforeEnd, hend] using hthrough
      · simpa [beforeEnd, hend] using hsplit

namespace Reader

variable {r r' : Reader TokenList} {ts us : List Token}

def ahead (r : Reader TokenList) : List Token :=
  throughEnd (r.lookahead :: (r.source.tokens ++ [r.source.last]))

theorem ahead_of_isEnd (hend : r.lookahead.isEnd = true) : r.ahead = [r.lookahead] := by
  simp [ahead, throughEnd, hend]

theorem ahead_eq_cons (r : Reader TokenList) : ∃ us, r.ahead = r.lookahead :: us := by
  by_cases hend : r.lookahead.isEnd = true
  · exact ⟨[], ahead_of_isEnd hend⟩
  · exact ⟨throughEnd (r.source.tokens ++ [r.source.last]), by simp [ahead, throughEnd, hend]⟩

theorem head?_ahead (r : Reader TokenList) : r.ahead.head? = some r.lookahead := by
  obtain ⟨us, hus⟩ := ahead_eq_cons r
  rw [hus, List.head?_cons]

theorem pull_ne_error (s s' : TokenList) (e : ScanError) :
    TokenSource.pull s ≠ (.error e, s') := by
  intro h
  simp only [TokenSource.pull, TokenList.pull] at h
  split at h <;> simp at h

/-- A token before the end of input can be consumed, and that takes it from the tokens ahead. -/
theorem advance_ahead (hend : r.lookahead.isEnd = false) :
    ∃ r', advance r = .ok r.lookahead r' ∧ r.ahead = r.lookahead :: r'.ahead := by
  simp only [advance, hend, Bool.false_eq_true, if_false, TokenSource.pull, TokenList.pull]
  cases htokens : r.source.tokens with
  | nil =>
    refine ⟨_, rfl, ?_⟩
    simp [ahead, throughEnd, hend, htokens, r.source.last_isEnd]
  | cons t tokens =>
    refine ⟨_, rfl, ?_⟩
    simp [ahead, throughEnd, hend, htokens]

theorem Consumes.ahead_eq (h : Consumes r ts r') : r.ahead = ts ++ r'.ahead := by
  induction h with
  | nil => rfl
  | cons hend first _ ih =>
    obtain ⟨rfl, _⟩ := advance_eq_ok first
    obtain ⟨r₂, hadvance, hahead⟩ := advance_ahead hend
    rw [first, EStateM.Result.ok.injEq] at hadvance
    obtain ⟨_, rfl⟩ := hadvance
    simp [hahead, ih]

/-- The end of input stays ahead. -/
theorem Consumes.exists_ahead_eq {last : Token} (h : Consumes r ts r')
    (hahead : r.ahead = us ++ [last]) : ∃ vs, us = ts ++ vs ∧ r'.ahead = vs ++ [last] := by
  have hsplit := h.ahead_eq
  obtain ⟨vs, hvs⟩ := ahead_eq_cons r'
  rw [hahead, hvs] at hsplit
  rw [hvs]
  rcases List.append_eq_append_iff.1 hsplit with ⟨mid, rfl, hrest⟩ | ⟨mid, rfl, hrest⟩
  · cases mid with
    | nil => exact ⟨[], by simp, by simpa using hrest.symm⟩
    | cons => simp at hrest
  · exact ⟨mid, rfl, hrest⟩

theorem consumes_of_ahead (h : r.ahead = ts ++ us) (hne : us ≠ []) :
    ∃ r', Consumes r ts r' ∧ r'.ahead = us := by
  induction ts generalizing r with
  | nil => exact ⟨r, .nil r, h⟩
  | cons t ts ih =>
    have hend : r.lookahead.isEnd = false := by
      by_cases hend : r.lookahead.isEnd = true
      · rw [ahead_of_isEnd hend] at h
        simp_all
      · simpa using hend
    obtain ⟨r₁, hadvance, hahead⟩ := advance_ahead hend
    rw [hahead, List.cons_append, List.cons.injEq] at h
    obtain ⟨rfl, h⟩ := h
    obtain ⟨r', hrest, hus⟩ := ih h
    exact ⟨r', .cons hend hadvance hrest, hus⟩

end Reader

variable {maxDepth d : Nat} {f : Function} {ts history : List Token} {next : Token}

/-- A statement that ends where it must leaves the recognizer at its end. -/
theorem DerivesStatement.run_eq (more : Bool) (h : DerivesStatement f d ts)
    (hend : f.body?.isSome = true → EndsBefore next ts) :
    ∃ s, run more .start (terminals ts) = some s ∧ s.accepting = true ∧
      step more s next.terminal = if more then beginStatement next.terminal else none := by
  cases h with
  | @definition k p e _ ts us hk signature body =>
    have hp := reads_of_generates more signature.generates true
    obtain ⟨_, hb⟩ := reads_of_generates more body.generates
    have hlast : EndsBefore next us :=
      EndsBefore.of_append (k :: ts) (by simpa using hend rfl) body.depth_le.2
    refine ⟨.complete (endsInName false (terminals us)) [], ?_, rfl, hlast.step_complete []⟩
    simp [hk, step, beginStatement, hp, hb]
  | external hk signature =>
    have hp := reads_of_generates more signature.generates false
    refine ⟨.declared, ?_, rfl, rfl⟩
    simp [hk, step, beginStatement, hp]
  | anonymous body =>
    obtain ⟨hne, hb⟩ := reads_of_generates more body.generates
    exact ⟨_, run_start_of_operand (hb []) hne, rfl, (hend rfl).step_complete []⟩

theorem DerivesStatement.ne_nil (h : DerivesStatement f d ts) : ts ≠ [] := by
  cases h with
  | definition | external => simp
  | anonymous body => exact body.depth_le.2

/-- The input may end after these tokens, and `next` can only begin another statement. -/
def Between (history : List Token) (next : Token) : Prop :=
  ∃ s, run true .start (terminals history) = some s ∧ s.accepting = true ∧
    step true s next.terminal = beginStatement next.terminal

theorem between_nil (next : Token) : Between [] next := ⟨.start, rfl, rfl, rfl⟩

/-- What the recognizer does from here is what it does from the start. -/
theorem Between.run_append {t : Token} (h : Between history t) (ts : List Token) :
    run true .start (terminals (history ++ t :: ts)) = run true .start (terminals (t :: ts)) := by
  obtain ⟨s, hs, _, hstep⟩ := h
  rw [terminals_append, Recognizer.run_append, hs, Option.bind_some, terminals_cons, run_cons,
    run_cons, hstep]
  rfl

theorem Between.statement {t : Token} (h : Between history t)
    (hts : DerivesStatement f d (t :: ts))
    (hend : f.body?.isSome = true → EndsBefore next (t :: ts)) :
    Between (history ++ t :: ts) next := by
  obtain ⟨s, hs, haccepting, hstep⟩ := hts.run_eq true hend
  exact ⟨s, (h.run_append ts).trans hs, haccepting, by simpa using hstep⟩

/-- `e` is an error about `next`, where the recognizer is stuck after the tokens before it. -/
def Rejected (history : List Token) (next : Token) (e : Failure) : Prop :=
  ∃ fault s, fault.Mendable ∧ e = .grammar (SyntaxError.ofFault fault next) ∧
    run true .start (terminals history) = some s ∧ Stuck s next.terminal

namespace Rejected

open Grammar

variable {e : Failure}

theorem viable (h : Rejected history next e) : Viable (terminals history) := by
  obtain ⟨_, s, _, _, hs, _⟩ := h
  exact viable_iff.2 (by simp [hs])

/-- No sentence goes on with the token that was rejected. -/
theorem not_viable (h : Rejected history next e) :
    ¬ Viable (terminals (history ++ [next])) := by
  obtain ⟨_, s, _, _, hs, hstuck⟩ := h
  rw [viable_iff, terminals_append, Recognizer.run_append, hs, Option.bind_some, terminals_cons,
    run_cons, hstuck.1]
  simp

theorem not_sentence (h : Rejected history next e) (hend : next.isEnd = true) :
    ¬ Sentence (terminals history) := by
  obtain ⟨_, s, _, _, hs, hstuck⟩ := h
  rw [sentence_iff_accepting hs, hstuck.2 (by simpa [Token.isEnd] using hend)]
  simp

end Rejected

namespace Reader

variable {r r' : Reader TokenList} {e : Failure}

/-- A statement that cannot be read is rejected at the first token that does not fit. -/
theorem rejected_of_statement (hbetween : Between history r.lookahead)
    (h : statement maxDepth r = .error e r') (hdepth : r.ahead.length ≤ maxDepth) :
    ∃ ts, Consumes r ts r' ∧ Rejected (history ++ ts) r'.lookahead e := by
  obtain ⟨hend, hfails⟩ := fails_statement h
  obtain ⟨s, hs, _, hstep⟩ := hbetween
  have hfails : Fails maxDepth maxDepth s r e r' := hfails.of_step_eq hstep fun h => absurd h hend
  cases hfails with
  | @blocked ts s' _ fault hts hrun hstuck hfault =>
    refine ⟨ts, hts, fault, s', hfault, rfl, ?_, hstuck⟩
    rw [terminals_append, Recognizer.run_append, hs, Option.bind_some, hrun]
  | tooDeep hts hdeep =>
    -- every level of nesting has cost a token, so the input would be longer than it is
    have hlength := congrArg List.length hts.ahead_eq
    obtain ⟨us, hus⟩ := ahead_eq_cons r'
    rw [List.length_append, hus, List.length_cons] at hlength
    omega
  | unscanned _ _ hpull => exact absurd hpull (pull_ne_error _ _ _)

end Reader

end ExprLang
