import ExprLang.Proofs.Answers
import ExprLang.Proofs.Programs

/-!
# The limit of nesting

The limit is a threshold. A parser with a higher limit does the same up to the call in which the
lower one is exceeded, and goes on from there; and a program is delivered exactly when no token of
its reading is inside more open expressions than the limit allows.
-/
namespace ExprLang

def Failure.IsTooDeep (e : Failure) : Prop :=
  ∃ x, e = .grammar x ∧ x.diagnostic.code = some "P014"

namespace Reader

theorem isTooDeep_tooDeep {σ : Type} (limit : Nat) (r : Reader σ) :
    (tooDeep limit r).IsTooDeep :=
  ⟨_, rfl, by rw [SyntaxError.ofFault_nestingTooDeep]; rfl⟩

variable {σ : Type} [TokenSource σ]

/-- The left run parts where it is nested too deep, and the right one has consumed no less. -/
def deeper (σ : Type) [TokenSource σ] : Coupling .exact σ σ where
  matched := Eq
  parts := Failure.IsTooDeep
  beyond r r' := r.consumed <:+ r'.consumed
  lookahead_like h := congrArg Reader.lookahead h
  consumed_like h := h ▸ List.forall₂_refl _
  advance_agree {r r'} h := by
    subst h
    cases advance r with
    | ok t r₁ => exact .ok rfl rfl
    | error e r₁ => exact .error rfl (Likeness.exact_sameFailure.2 rfl)
  advance_beyond {s r} h := by
    cases hadvance : advance r with
    | ok t r₁ =>
      simp only [Outcome.reader, (advance_eq_ok hadvance).2]
      exact h.trans (List.suffix_cons ..)
    | error e r₁ =>
      obtain ⟨_, _, _, _, _, rfl⟩ := advance_eq_error hadvance
      exact h

/-- Where the lower limit is reached, the higher one may allow more. -/
theorem follows_expression_deeper (limit limit' extra : Nat) :
    Follows (deeper σ) (Likeness.exact.UpTo Expr.erase) (expression limit 0)
      (expression limit' extra) := by
  have hself : Follows (deeper σ) (Likeness.exact.UpTo Expr.erase) (expression limit' extra)
      (expression limit' extra) := follows_expression_self limit' extra
  refine ⟨fun {r r'} h => ?_, hself.beyond⟩
  obtain rfl : r = r' := h
  exact .parted (isTooDeep_tooDeep limit r) (hself.beyond List.suffix_rfl)

theorem follows_statement_deeper {d d' : Nat} (h : d ≤ d') :
    Follows (deeper σ) (Option.Rel (Likeness.exact.UpTo Function.erase)) (statement d)
      (statement d') := by
  obtain ⟨extra, rfl⟩ := Nat.exists_eq_add_of_le h
  exact follows_statement (follows_expression (follows_expression_deeper d (d + extra) extra) d)

end Reader

namespace Parser

open Reader

variable {σ : Type} [TokenSource σ] {p q : Parser σ}

def NeverTooDeep (p : Parser σ) (n : Nat) : Prop :=
  ∀ a ∈ p.answers n, ∀ e, a.result = .error e → ¬ e.IsTooDeep

/-- `q` does what `p` does up to a call in which `p` is nested too deep, and there it consumes at
least the same tokens. -/
structure DeepenedBy (p q : Parser σ) : Prop where
  answers_eq : ∀ n, p.NeverTooDeep n → p.answers n = q.answers n
  reader_eq : ∀ n, p.NeverTooDeep n → (p.after n).reader = (q.after n).reader
  taken_prefix : ∀ n e, p.NeverTooDeep n → (p.after n).next.1 = .error e → e.IsTooDeep →
    (p.after n).taken <+: (q.after n).taken

theorem taken_prefix_of_coupled (h : Coupled (deeper σ) p q) : p.taken <+: q.taken := by
  cases hfailure : p.failure with
  | some e =>
    rw [taken, hfailure]
    exact List.nil_prefix
  | none =>
    have hfailure' := h.failure_eq_none hfailure
    rw [taken, taken, hfailure, hfailure']
    refine List.reverse_prefix.2 ?_
    rcases h.next with ⟨_, hnext⟩ | ⟨_, _, _, hbeyond⟩
    · exact (congrArg Reader.consumed hnext.matched) ▸ List.suffix_rfl
    · exact hbeyond

theorem deepenedBy_of_coupled (h : Coupled (deeper σ) p q) : DeepenedBy p q := by
  have hafter {n : Nat} (hn : p.NeverTooDeep n) :=
    h.after n fun k hk e he => hn _ (answer_mem_answers hk) e he
  exact ⟨fun n hn => answers_eq_of_forall fun k hk =>
      eq_of_answersAlike_exact ((hafter hn).1 k hk), fun n hn => (hafter hn).2.matched,
    fun n e hn _ _ => taken_prefix_of_coupled (hafter hn).2⟩

theorem coupled_deeper {d d' : Nat} (h : d ≤ d') (r : Reader σ) :
    Coupled (deeper σ) ⟨d, r, none⟩ ⟨d', r, none⟩ where
  follows := follows_statement_deeper h
  fresh heq := congrArg Reader.fresh heq
  matched := rfl
  failure_like := .none

/-- What a parser with the limit `d` makes of a program that is read as `fs`, with `ks` open
expressions around its tokens `ts`. -/
structure Threshold (d : Nat) (fs : List Function) (ks : List Nat) (ts : List Token)
    (p : Parser TokenList) : Prop where
  ok_iff : (∃ gs q, p.all = (.ok gs, q)) ↔ deepest ks ≤ d
  within : deepest ks ≤ d → ∃ q, p.all = (.ok fs, q)
  beyond : d < deepest ks → ∃ e q, p.all = (.error (.grammar e), q) ∧
    e.diagnostic.code = some "P014" ∧ e.fault = .nestingTooDeep d ∧
    firstDeep d ks ts = some e.token

theorem threshold_of_reads {p : Parser TokenList} {fs : List Function} {ks : List Nat}
    {ts : List Token} {ending : Token} (h : ReadsProgram fs ks ts) (hnone : p.failure = none)
    (hahead : p.reader.ahead = ts ++ [ending]) (hending : ending.isEnd = true) :
    Threshold p.maxDepth fs ks ts p := by
  have hwithin (hle : deepest ks ≤ p.maxDepth) : ∃ q, p.all = (.ok fs, q) := by
    obtain ⟨q, hq⟩ := yields_of_reads h hnone hahead hending hle
    exact ⟨q, all_eq_ok.2 hq⟩
  have hbeyond (hlt : p.maxDepth < deepest ks) : ∃ e q, p.all = (.error (.grammar e), q) ∧
      e.diagnostic.code = some "P014" ∧ e.fault = .nestingTooDeep p.maxDepth ∧
      firstDeep p.maxDepth ks ts = some e.token := by
    obtain ⟨gs, t, q, hq, ht⟩ := yields_of_tooDeep h hnone hahead hending hlt
    exact ⟨_, q, all_eq_error.2 ⟨gs, hq⟩, rfl, rfl, ht⟩
  refine ⟨⟨?_, fun hle => ⟨fs, hwithin hle⟩⟩, hwithin, hbeyond⟩
  rintro ⟨gs, q, hall⟩
  apply Nat.le_of_not_lt
  intro hlt
  obtain ⟨e, q', hall', _⟩ := hbeyond hlt
  simp [hall] at hall'

/-- Raising the limit of nesting changes nothing up to the call that exceeds the lower limit, and
a sentence is delivered exactly within the limits that its reading keeps to. -/
theorem limit_is_threshold (d d' : Int) (hd : 0 < d) (hle : d ≤ d') :
    (∀ (σ : Type) [TokenSource σ] (source : σ) (p : Parser σ), start d source = .ok p →
      ∃ q, start d' source = .ok q ∧ DeepenedBy p q) ∧
    ∀ ts source, TokenList.ofList? ts = some source →
      Grammar.Sentence (terminals (beforeEnd ts)) →
      (∃ fs ks, ReadsProgram fs ks (beforeEnd ts)) ∧
        ∀ fs ks, ReadsProgram fs ks (beforeEnd ts) →
          ∃ p, start d source = .ok p ∧ Threshold d.toNat fs ks (beforeEnd ts) p := by
  constructor
  · intro σ _ source p hstart
    obtain ⟨t, s, hpull, rfl⟩ := eq_of_start hstart
    refine ⟨⟨d'.toNat, ⟨s, t, []⟩, none⟩, ?_, deepenedBy_of_coupled (coupled_deeper ?_ _)⟩
    · rw [start_eq (by omega), hpull]
    · omega
  · intro ts source hsource hsentence
    refine ⟨exists_reads (fun t ht => ?_) hsentence, fun fs ks hreads => ?_⟩
    · simpa using List.all_eq_true.1 List.all_takeWhile t ht
    · obtain ⟨p, hstart, hnone, hmax, hahead⟩ := start_ahead hsource hd
      obtain rfl := append_of_ofList? hsource
      obtain ⟨ending, _, hending, hthrough, _⟩ :=
        throughEnd_append source.last_isEnd source.tokens
      rw [← hmax]
      exact ⟨p, hstart, threshold_of_reads hreads hnone (hahead.trans hthrough) hending⟩

/-- Two expressions are open around the number, one too many for a limit of one. -/
theorem limit_is_threshold_group :
    let ts := [.leftParen, .number 1, .rightParen, .endOfInput].map Token.bare
    (0 : Int) < 1 ∧ (1 : Int) ≤ 2 ∧ ∃ source, TokenList.ofList? ts = some source ∧
      Grammar.Sentence (terminals (beforeEnd ts)) ∧
      ∃ p q f, start 1 source = .ok p ∧ start 2 source = .ok q ∧ DeepenedBy p q ∧
        ReadsProgram [f] [1, 2, 1] (beforeEnd ts) ∧
        Threshold 1 [f] [1, 2, 1] (beforeEnd ts) p := by
  intro ts
  have hsentence : Grammar.Sentence (terminals (beforeEnd ts)) :=
    (Recognizer.sentence_iff_accepting (s := .complete false []) (by decide)).2 rfl
  have hreads := ReadsProgram.cons (.anonymous (.expression (.lastOperand (.group
    (l := .bare .leftParen) (r := .bare .rightParen) rfl rfl (.expression (.lastOperand (.number
      (t := .bare (.number 1)) rfl)) (.operand _)))) (.operand _))) (fun _ => by simp) .nil
  obtain ⟨hdeepened, hthreshold⟩ := limit_is_threshold 1 2 (by decide) (by decide)
  obtain ⟨p, hp, hpthreshold⟩ := (hthreshold ts _ rfl hsentence).2 _ _ hreads
  obtain ⟨q, hq, hpq⟩ := hdeepened _ _ p hp
  exact ⟨by decide, by decide, _, rfl, hsentence, p, q, _, hp, hq, hpq, hreads, hpthreshold⟩

end Parser
end ExprLang
