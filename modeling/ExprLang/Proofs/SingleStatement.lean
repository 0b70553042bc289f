import ExprLang.Proofs.Session
import ExprLang.TreeEquality

/-!
# A single statement

A parser delivers exactly one function when the whole input derives that function. There is no
second reading of an input that is one statement, so the parser and the grammar agree in both
directions, in the spans too.
-/
namespace ExprLang

theorem DerivesStatement.depth_le {f : Function} {d : Nat} {ts : List Token}
    (h : DerivesStatement f d ts) : d ≤ ts.length := by
  cases h with
  | definition _ _ body =>
    have hle := body.depth_le.1
    simp only [List.length_cons, List.length_append]
    omega
  | external => simp
  | anonymous body => exact body.depth_le.1

/-- An end of input ends everything. -/
theorem endsBefore_of_isEnd {next : Token} (h : next.isEnd = true) (ts : List Token) :
    EndsBefore next ts := by
  have hterminal : next.terminal = .endOfInput := by simpa [Token.isEnd] using h
  exact endsBefore_of_ne ts (by simp [hterminal]) (by simp [hterminal])

namespace Parser

variable {input : List Token} {ending : Token} {p q : Parser TokenList} {f : Function}

/-- A statement within the limit is the next one delivered if it ends where it must. -/
theorem next_of_statement {d : Nat} {ts us : List Token} (hnone : p.failure = none)
    (h : DerivesStatement f d ts) (hdepth : d ≤ p.maxDepth) (hahead : p.reader.ahead = ts ++ us)
    (hne : us ≠ []) (hends : f.body?.isSome = true → ∀ next ∈ us.head?, EndsBefore next ts) :
    ∃ q, p.next = (.ok (some f), q) ∧ q.failure = none ∧ q.maxDepth = p.maxDepth ∧
      q.reader.ahead = us := by
  obtain ⟨r', hts, hus⟩ := Reader.consumes_of_ahead (r := p.reader.fresh) hahead hne
  have hlookahead : r'.lookahead ∈ us.head? := hus ▸ Reader.head?_ahead r'
  have hstatement : Reader.statement p.maxDepth p.reader.fresh = .ok (some f) r' :=
    Reader.statement_of_derives h hdepth hts fun hbody => hends hbody _ hlookahead
  exact ⟨_, next_eq_ok.2 ⟨hnone, r', hstatement, rfl⟩, hnone, rfl, hus⟩

theorem next_of_ahead_end (hnone : p.failure = none) (hahead : p.reader.ahead = [ending])
    (hending : ending.isEnd = true) : ∃ q, p.next = (.ok none, q) := by
  have hlookahead := Reader.head?_ahead p.reader
  rw [hahead, List.head?_cons, Option.some.injEq] at hlookahead
  have hend : p.reader.fresh.lookahead.isEnd = true := hlookahead ▸ hending
  exact ⟨_, next_eq_ok.2 ⟨hnone, _, Reader.statement_eq_none.2 ⟨hend, rfl⟩, rfl⟩⟩

/-- The statement that the whole input derives is the next one delivered, and it leaves nothing
but the end of input ahead. -/
theorem next_of_derives (h : Tracks input ending [] p) (hending : ending.isEnd = true)
    (hnone : p.failure = none) {d : Nat}
    (hderives : DerivesStatement f d input) :
    ∃ q, p.next = (.ok (some f), q) ∧ q.failure = none ∧ q.reader.ahead = [ending] := by
  have hdepth : d ≤ p.maxDepth := by
    have hle := hderives.depth_le
    have hlt := h.depth
    omega
  obtain ⟨q, hnext, hnone', _, hahead⟩ :=
    next_of_statement hnone hderives hdepth (by simpa using h.split) (List.cons_ne_nil ending [])
      fun _ => by simpa using endsBefore_of_isEnd hending input
  exact ⟨q, hnext, hnone', hahead⟩

theorem all_eq_singleton (h : Tracks input ending [] p) (hending : ending.isEnd = true)
    (hnone : p.failure = none) :
    (∃ q, p.all = (.ok [f], q)) ↔ ∃ d, DerivesStatement f d input := by
  constructor
  · intro hdelivered
    rcases hdelivered with ⟨q, hall⟩
    cases all_eq_ok.1 hall with
    | more hnext rest =>
      cases rest with
      | finish hnext' =>
        have hp := h.next
        obtain ⟨_, _, _, _, _, d, _, hderives⟩ := next_some hnext
        obtain ⟨_, hend, _⟩ := next_none hnext'
        rw [hnext] at hp
        have hinput := hp.eq_of_isEnd hend
        rw [List.nil_append] at hinput
        exact ⟨d, hinput ▸ hderives⟩
  · intro hderivable
    rcases hderivable with ⟨d, hderives⟩
    obtain ⟨q, hnext, hnone', hahead⟩ := next_of_derives h hending hnone hderives
    obtain ⟨q', hlast⟩ := next_of_ahead_end hnone' hahead hending
    exact ⟨q', all_eq_ok.2 (.more hnext (.finish hlast))⟩

theorem beforeEnd_append {ts : List Token} {last : Token} (hts : ∀ t ∈ ts, t.isEnd = false)
    (hlast : last.isEnd = true) : beforeEnd (ts ++ [last]) = ts := by
  have happend : beforeEnd (ts ++ [last]) = ts ++ beforeEnd [last] :=
    List.takeWhile_append_of_pos fun t ht => by simp [hts t ht]
  simpa [beforeEnd, hlast] using happend

/-- With enough levels of nesting, a parser of the tokens `ts` delivers one function and then
the end of input if and only if `ts` derives that function as a statement, up to spans. -/
theorem all_eq_singleton_iff_derives (ts : List Token) (last : Token)
    (hts : ∀ t ∈ ts, t.isEnd = false) (hlast : last.isEnd = true) (maxDepth : Int)
    (hdepth : (ts.length : Int) < maxDepth) (f : Function) :
    ∃ source p, TokenList.ofList? (ts ++ [last]) = some source ∧
      start maxDepth source = .ok p ∧
      ((∃ g q, p.all = (.ok [g], q) ∧ g.erase = f.erase) ↔
        ∃ g d, DerivesStatement g d ts ∧ g.erase = f.erase) := by
  have hsource : TokenList.ofList? (ts ++ [last]) = some ⟨ts, last, 0, hlast⟩ := by
    simp [TokenList.ofList?, hlast]
  have hinput : beforeEnd (ts ++ [last]) = ts := beforeEnd_append hts hlast
  obtain ⟨p, ending, _, hstart, hnone, hending, _, htracks⟩ :=
    start_tracks hsource (by rwa [hinput])
  rw [hinput] at htracks
  refine ⟨_, p, hsource, hstart, ?_⟩
  constructor
  · intro hdelivered
    rcases hdelivered with ⟨g, q, hall, hg⟩
    obtain ⟨d, hderives⟩ := (all_eq_singleton htracks hending hnone).1 ⟨q, hall⟩
    exact ⟨g, d, hderives, hg⟩
  · intro hderivable
    rcases hderivable with ⟨g, d, hderives, hg⟩
    obtain ⟨q, hall⟩ := (all_eq_singleton htracks hending hnone).2 ⟨d, hderives⟩
    exact ⟨g, q, hall, hg⟩

/-- Of two subtractions the right one is at the root. -/
theorem all_eq_singleton_subtractions :
    let ts := [.number 1, .operator .sub, .number 2, .operator .sub, .number 3].map Token.bare
    let last := Token.bare .endOfInput
    (∀ t ∈ ts, t.isEnd = false) ∧ last.isEnd = true ∧ (ts.length : Int) < 6 ∧
      ∃ source p, TokenList.ofList? (ts ++ [last]) = some source ∧ start 6 source = .ok p ∧
        ∃ g q, p.all = (.ok [g], q) ∧ g.erase = .anonymous (.binary .sub
          (.binary .sub (.number 1 none) (.number 2 none) none) (.number 3 none) none) none := by
  intro ts last
  have hts : ∀ t ∈ ts, t.isEnd = false := by decide
  obtain ⟨source, p, hsource, hstart, hiff⟩ :=
    all_eq_singleton_iff_derives ts last hts rfl 6 (by decide) (.anonymous (.binary .sub
      (.binary .sub (.number 1 none) (.number 2 none) none) (.number 3 none) none) none)
  refine ⟨hts, rfl, by decide, source, p, hsource, hstart, hiff.2 ⟨_, _, .anonymous (.expression
    (.link rfl rfl (.number rfl) (.link rfl rfl (.number rfl) (.lastOperand (.number rfl))))
    (.split (.split (.operand _) (.operand _) (by simp) (by simp)) (.operand _) ?_ (by simp))),
    rfl⟩⟩
  simp [Operator.le_iff]

end Parser
end ExprLang
