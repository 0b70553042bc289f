import ExprLang.Proofs.Overflow
import ExprLang.Proofs.SingleStatement

/-!
# Programs

A parser of a list of tokens against the reading of a whole program. A reading within the limit is
delivered statement by statement; one that goes beyond it fails at the first token that is nested
too deep; and what a parser delivers is a reading. Every sentence has one.
-/
namespace ExprLang

theorem SyntaxError.ofFault_nestingTooDeep (limit : Nat) (t : Token) :
    SyntaxError.ofFault (.nestingTooDeep limit) t = ⟨.nestingTooDeep limit, t⟩ := by
  unfold SyntaxError.ofFault
  cases t.isEnd <;> rfl

namespace Parser

variable {p q : Parser TokenList} {f : Function} {fs : List Function} {ks : List Nat}
  {ts us : List Token} {ending : Token}

theorem next_of_tooDeep (hnone : p.failure = none) (h : NestsStatement f ks ts)
    (hdeep : p.maxDepth < deepest ks) (hahead : p.reader.ahead = ts ++ us) (hne : us ≠ []) :
    ∃ t q, p.next = (.error (.grammar ⟨.nestingTooDeep p.maxDepth, t⟩), q) ∧
      firstDeep p.maxDepth ks ts = some t := by
  obtain ⟨t, rest, ht, hsplit⟩ := exists_firstDeep h.length_eq hdeep
  obtain ⟨r', hts, _⟩ := Reader.consumes_of_ahead (r := p.reader.fresh) hahead hne
  have hahead₁ : p.reader.fresh.ahead = shallow p.maxDepth ks ts ++ t :: (rest ++ us) := by
    rw [Reader.ahead_fresh, hahead, ← List.cons_append, ← List.append_assoc, ← hsplit]
  obtain ⟨r₁, hr₁, hrest⟩ := Reader.consumes_of_ahead hahead₁ (by simp)
  have hlookahead : t = r₁.lookahead := by simpa [hrest] using Reader.head?_ahead r₁
  have hstatement := Reader.statement_of_nests h hdeep hts hr₁
  rw [Reader.tooDeep, ← hlookahead, SyntaxError.ofFault_nestingTooDeep] at hstatement
  exact ⟨t, _, next_eq_error.2 (.inr ⟨hnone, r₁, hstatement, rfl⟩), ht⟩

/-- The boundary behind a statement, with the end of input behind the last one. -/
theorem ends_append (hending : ending.isEnd = true)
    (hends : f.body?.isSome = true → ∀ next ∈ us.head?, EndsBefore next ts) :
    f.body?.isSome = true → ∀ next ∈ (us ++ [ending]).head?, EndsBefore next ts := by
  intro hbody next hnext
  cases us with
  | nil =>
    obtain rfl : ending = next := by simpa using hnext
    exact endsBefore_of_isEnd hending ts
  | cons u us => exact hends hbody next (by simpa using hnext)

theorem yields_of_reads (h : ReadsProgram fs ks ts) (hnone : p.failure = none)
    (hahead : p.reader.ahead = ts ++ [ending]) (hending : ending.isEnd = true)
    (hdepth : deepest ks ≤ p.maxDepth) : ∃ q, Yields p fs none q := by
  induction h generalizing p with
  | nil =>
    obtain ⟨q, hq⟩ := next_of_ahead_end hnone hahead hending
    exact ⟨q, .finish hq⟩
  | cons first ends _ ih =>
    rw [deepest_append, Nat.max_le] at hdepth
    rw [List.append_assoc] at hahead
    obtain ⟨p', hnext, hnone', hmax, hahead'⟩ :=
      next_of_statement hnone first.derives hdepth.1 hahead (by simp) (ends_append hending ends)
    obtain ⟨q, hq⟩ := ih hnone' hahead' (hmax ▸ hdepth.2)
    exact ⟨q, .more hnext hq⟩

theorem yields_of_tooDeep (h : ReadsProgram fs ks ts) (hnone : p.failure = none)
    (hahead : p.reader.ahead = ts ++ [ending]) (hending : ending.isEnd = true)
    (hdeep : p.maxDepth < deepest ks) :
    ∃ gs t q, Yields p gs (some (.grammar ⟨.nestingTooDeep p.maxDepth, t⟩)) q ∧
      firstDeep p.maxDepth ks ts = some t := by
  induction h generalizing p with
  | nil => simp at hdeep
  | @cons f fs ks ls ts us first ends _ ih =>
    rw [List.append_assoc] at hahead
    by_cases hfirst : p.maxDepth < deepest ks
    · obtain ⟨t, q, hnext, ht⟩ := next_of_tooDeep hnone first hfirst hahead (by simp)
      exact ⟨[], t, q, .fail hnext, by rw [firstDeep_append_of_lt first.length_eq hfirst, ht]⟩
    · have hle := Nat.not_lt.1 hfirst
      obtain ⟨p', hnext, hnone', hmax, hahead'⟩ :=
        next_of_statement hnone first.derives hle hahead (by simp) (ends_append hending ends)
      rw [deepest_append] at hdeep
      obtain ⟨gs, t, q, hq, ht⟩ := ih hnone' hahead' (by omega)
      rw [hmax] at hq ht
      exact ⟨f :: gs, t, q, .more hnext hq, by
        rw [firstDeep_append_of_le first.length_eq hle, ht]⟩

/-- What a parser delivers up to the end of input is a reading of the tokens ahead. -/
theorem reads_of_yields (h : Yields p fs none q) (hahead : p.reader.ahead = ts ++ [ending]) :
    ∃ ks, ReadsProgram fs ks ts := by
  generalize hfailure : none = failure at h
  induction h generalizing ts with
  | fail => simp at hfailure
  | finish hnext =>
    obtain ⟨_, hend, _⟩ := next_none hnext
    rw [Reader.ahead_of_isEnd hend] at hahead
    cases ts with
    | nil => exact ⟨[], .nil⟩
    | cons => simp at hahead
  | @more p p' q f fs failure hnext _ ih =>
    obtain ⟨_, _, _, hconsumes, hends, d, _, hderives⟩ := next_some hnext
    obtain ⟨vs, rfl, hvs⟩ := hconsumes.exists_ahead_eq hahead
    obtain ⟨ls, hls⟩ := ih hvs hfailure
    obtain ⟨ks, hks⟩ := hderives.nests
    refine ⟨ks ++ ls, .cons hks (fun hbody next hnext => ?_) hls⟩
    have hlookahead : next = p'.reader.lookahead := by
      have hhead := Reader.head?_ahead p'.reader
      rw [hvs, List.head?_append, Option.mem_def.1 hnext] at hhead
      exact Option.some.inj hhead
    exact hlookahead ▸ hends hbody

/-- Every sentence has a reading. -/
theorem exists_reads (hts : ∀ t ∈ ts, t.isEnd = false)
    (hsentence : Grammar.Sentence (terminals ts)) : ∃ fs ks, ReadsProgram fs ks ts := by
  let last := Token.bare .endOfInput
  have hsource : TokenList.ofList? (ts ++ [last]) = some ⟨ts, last, 0, rfl⟩ := by
    simp [TokenList.ofList?, last, Token.bare, Token.isEnd]
  have hinput : beforeEnd (ts ++ [last]) = ts := beforeEnd_append hts rfl
  have hdepth : ((beforeEnd (ts ++ [last])).length : Int) < ts.length + 1 := by
    rw [hinput]
    omega
  obtain ⟨p, ending, _, _, _, hending, _, htracks⟩ := start_tracks hsource hdepth
  rw [hinput] at htracks
  obtain ⟨fs, failure, q, hyields⟩ := exists_yields p
  cases failure with
  | none =>
    obtain ⟨ks, hks⟩ := reads_of_yields hyields htracks.split
    exact ⟨fs, ks, hks⟩
  | some e =>
    obtain ⟨_, hcalls, hfailure, _⟩ := hyields.calls
    exact absurd hsentence ((htracks.calls hcalls).not_sentence_of_failed hending hfailure)

end Parser
end ExprLang
