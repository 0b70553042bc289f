import ExprLang.Proofs.Session

/-!
# What a parser accepts

A parser accepts the sentences of the grammar and nothing else, although it never goes back on a
decision: each statement takes as many tokens as any statement can at that place. Where it fails,
no sentence goes on with the token it fails at.
-/
namespace ExprLang

open Grammar Recognizer

/-- `taken` is a statement, and no longer statement begins `taken ++ rest`. -/
def LongestStatement (taken rest : List Token) : Prop :=
  Generates .statement (terminals taken) ∧ ∀ us, us <+: taken ++ rest →
    Generates .statement (terminals us) → us.length ≤ taken.length

theorem longestStatement_of_derives {f : Function} {d : Nat} {taken rest : List Token}
    {next : Token} (h : DerivesStatement f d taken)
    (hend : f.body?.isSome = true → EndsBefore next taken) :
    LongestStatement taken (next :: rest) := by
  refine ⟨h.generates, fun us hprefix hus => ?_⟩
  apply Nat.le_of_not_lt
  intro hlt
  obtain ⟨more, rfl⟩ : taken <+: us :=
    List.prefix_of_prefix_length_le (List.prefix_append _ _) hprefix (Nat.le_of_lt hlt)
  rw [List.prefix_append_right_inj] at hprefix
  cases more with
  | nil => simp at hlt
  | cons t more =>
    obtain ⟨rfl, _⟩ := List.cons_prefix_cons.1 hprefix
    -- the recognizer for one statement has no step to take at `t`
    obtain ⟨s, hs, _, hstep⟩ := h.run_eq false hend
    obtain ⟨s', hs', _⟩ := run_statement false hus
    rw [terminals_append, Recognizer.run_append, hs, Option.bind_some, terminals_cons, run_cons,
      hstep] at hs'
    simp at hs'

/-- `e` is an error about `next`, the first token that no sentence can have behind the consumed
tokens, and its code tells whether more input could still make a sentence of them. -/
structure Earliest (consumed : List Token) (next : Token) (e : SyntaxError) : Prop where
  token_eq : e.token = next
  location_eq : e.diagnostic.location = next.location
  viable : Viable (terminals consumed)
  not_viable : next.isEnd = false → ¬ Viable (terminals (consumed ++ [next]))
  code_iff : e.diagnostic.code = some "P010" ↔ next.isEnd = true
  not_sentence : next.isEnd = true → ¬ Sentence (terminals consumed)

theorem Rejected.earliest {consumed : List Token} {next : Token} {failure : Failure}
    (h : Rejected consumed next failure) :
    ∃ e, failure = .grammar e ∧ Earliest consumed next e := by
  obtain ⟨fault, _, hfault, rfl, _⟩ := id h
  have htoken := SyntaxError.ofFault_token fault next
  exact ⟨_, rfl, htoken, congrArg Token.location htoken, h.viable, fun _ => h.not_viable,
    hfault.code_ofFault next, h.not_sentence⟩

theorem viable_of_append {ts us : List Terminal} (h : Viable (ts ++ us)) : Viable ts := by
  obtain ⟨rest, hrest⟩ := h
  exact ⟨us ++ rest, by simpa using hrest⟩

namespace Parser

variable {ts : List Token} {source : TokenList}

/-- With enough levels of nesting, everything is delivered from exactly the sentences, and every
statement delivered is the longest one at its place. -/
theorem all_ok_iff_sentence_and_longest (hsource : TokenList.ofList? ts = some source)
    (maxDepth : Int) (hdepth : ((beforeEnd ts).length : Int) < maxDepth) :
    ∃ p, start maxDepth source = .ok p ∧
      ((∃ fs q, p.all = (.ok fs, q)) ↔ Sentence (terminals (beforeEnd ts))) ∧
      ∀ history q f q', Calls p history q → q.next = (.ok (some f), q') →
        ∃ rest, ts = history ++ q.taken ++ rest ∧ LongestStatement q.taken rest := by
  obtain ⟨p, ending, tail, hstart, hnone, hending, hts, htracks⟩ := start_tracks hsource hdepth
  refine ⟨p, hstart, ⟨?_, fun hsentence => ?_⟩, fun history q f q' hcalls hnext => ?_⟩
  · intro hok
    rcases hok with ⟨fs, q, hall⟩
    exact htracks.sentence_of_yields (all_eq_ok.1 hall)
  · obtain ⟨fs, failure, q, hyields⟩ := exists_yields p
    cases failure with
    | none => exact ⟨fs, q, all_eq_ok.2 hyields⟩
    | some e =>
      obtain ⟨_, hcalls, hfailure, _⟩ := hyields.calls
      exact absurd hsentence ((htracks.calls hcalls).not_sentence_of_failed hending hfailure)
  · have hq' := (htracks.calls hcalls).next
    obtain ⟨_, _, _, _, hend, d, _, hderives⟩ := next_some hnext
    rw [hnext] at hq'
    obtain ⟨rest, hrest⟩ := hq'.exists_eq hts
    exact ⟨_, hrest, longestStatement_of_derives hderives hend⟩

/-- A call is one statement, although its name could be a statement by itself. -/
theorem all_ok_of_call :
    let ts :=
      [.identifier "f", .leftParen, .identifier "x", .rightParen, .endOfInput].map Token.bare
    ∃ source, TokenList.ofList? ts = some source ∧ ((beforeEnd ts).length : Int) < 5 ∧
      ∃ p, start 5 source = .ok p ∧ ∃ fs q, p.all = (.ok fs, q) := by
  intro ts
  have hdepth : ((beforeEnd ts).length : Int) < 5 := by decide
  obtain ⟨p, hstart, hiff, _⟩ := @all_ok_iff_sentence_and_longest ts _ rfl 5 hdepth
  have hsentence : Sentence (terminals (beforeEnd ts)) :=
    (sentence_iff_accepting (s := .complete false []) (by decide)).2 rfl
  exact ⟨_, rfl, hdepth, p, hstart, hiff.2 hsentence⟩

/-- With enough levels of nesting, every failure is a syntax error at the first token that does
not fit, and all of the input fails for want of more exactly when it begins a sentence without
being one. -/
theorem errors_are_earliest (hsource : TokenList.ofList? ts = some source) (maxDepth : Int)
    (hdepth : ((beforeEnd ts).length : Int) < maxDepth) :
    ∃ p, start maxDepth source = .ok p ∧
      (∀ history q failure q', Calls p history q → q.next = (.error failure, q') →
        ∃ e rest, failure = .grammar e ∧
          ts = history ++ q.taken ++ q'.reader.lookahead :: rest ∧
          Earliest (history ++ q.taken) q'.reader.lookahead e) ∧
      ((∃ e q, p.all = (.error (.grammar e), q) ∧ e.diagnostic.code = some "P010") ↔
        ¬ Sentence (terminals (beforeEnd ts)) ∧ Viable (terminals (beforeEnd ts))) := by
  obtain ⟨p, ending, tail, hstart, hnone, hending, hts, htracks⟩ := start_tracks hsource hdepth
  refine ⟨p, hstart, fun history q failure q' hcalls hnext => ?_, ?_, ?_⟩
  · have hq' := (htracks.calls hcalls).next
    rw [hnext] at hq'
    obtain ⟨e, rfl, hearliest⟩ := (hq'.failed failure (failure_of_next hnext)).earliest
    obtain ⟨rest, hrest⟩ := hq'.exists_eq hts
    exact ⟨e, rest, rfl, hrest, hearliest⟩
  · intro herror
    rcases herror with ⟨e, q, hall, hcode⟩
    obtain ⟨fs, hyields⟩ := all_eq_error.1 hall
    obtain ⟨consumed, hcalls, hfailure, _⟩ := hyields.calls
    have hq := htracks.calls hcalls
    obtain ⟨e', he', hearliest⟩ := (hq.failed _ hfailure).earliest
    obtain rfl := Failure.grammar.inj he'
    have hend := hearliest.code_iff.1 hcode
    rw [← hq.eq_of_isEnd hend]
    exact ⟨hearliest.not_sentence hend, hearliest.viable⟩
  · intro hlacking
    rcases hlacking with ⟨hsentence, hviable⟩
    obtain ⟨fs, failure, q, hyields⟩ := exists_yields p
    obtain ⟨consumed, hcalls, hfailure, _⟩ := hyields.calls
    have hq := htracks.calls hcalls
    cases failure with
    | none => exact absurd (htracks.sentence_of_yields hyields) hsentence
    | some failure =>
      obtain ⟨e, rfl, hearliest⟩ := (hq.failed _ hfailure).earliest
      refine ⟨e, q, all_eq_error.2 ⟨fs, hyields⟩, hearliest.code_iff.2 ?_⟩
      apply Classical.byContradiction
      intro hend
      have hend : q.reader.lookahead.isEnd = false := by simpa using hend
      obtain ⟨us, hus⟩ := hq.exists_input_eq hend hending
      refine hearliest.not_viable hend (?_)
      rw [hus] at hviable
      exact viable_of_append (by simpa using hviable)

/-- An open parenthesis is input that lacks something. -/
theorem all_error_of_leftParen :
    let ts := [.leftParen, .endOfInput].map Token.bare
    ∃ source, TokenList.ofList? ts = some source ∧ ((beforeEnd ts).length : Int) < 2 ∧
      ∃ p, start 2 source = .ok p ∧
        ∃ e q, p.all = (.error (.grammar e), q) ∧ e.diagnostic.code = some "P010" := by
  intro ts
  have hdepth : ((beforeEnd ts).length : Int) < 2 := by decide
  obtain ⟨p, hstart, _, hiff⟩ := @errors_are_earliest ts _ rfl 2 hdepth
  have hrun : run true .start (terminals (beforeEnd ts)) = some (.operand [.group]) := by decide
  have hsentence : ¬ Sentence (terminals (beforeEnd ts)) := by
    rw [sentence_iff_accepting hrun]
    decide
  have hviable : Viable (terminals (beforeEnd ts)) := viable_iff.2 (by rw [hrun]; rfl)
  exact ⟨_, rfl, hdepth, p, hstart, hiff.2 ⟨hsentence, hviable⟩⟩

end Parser
end ExprLang
