import ExprLang.Proofs.Coupling
import ExprLang.Proofs.Session

/-!
# The answers of a run

What a caller sees of a run: for each call what it returned and the text that it left. Two
parsers with coupled readers answer alike, call by call, up to a failure at which they part.
-/
namespace ExprLang.Parser

open Reader

variable {σ τ : Type} [TokenSource σ] [TokenSource τ]

theorem start_of_nonpos {maxDepth : Int} (h : maxDepth ≤ 0) (source : σ) :
    start maxDepth source = .error (.setting (.maxDepth maxDepth)) := by
  have hmax : Setting.positive .maxDepth maxDepth = .error (.maxDepth maxDepth) := by
    simp only [Setting.positive, h, if_true]
  unfold start
  rw [hmax]
  rfl

theorem pos_of_start {source : σ} {maxDepth : Int} {p : Parser σ}
    (h : start maxDepth source = .ok p) : 0 < maxDepth := by
  by_contra hdepth
  rw [start_of_nonpos (Int.not_lt.1 hdepth)] at h
  contradiction

theorem eq_of_start {source : σ} {maxDepth : Int} {p : Parser σ}
    (h : start maxDepth source = .ok p) :
    ∃ t s, TokenSource.pull source = (.ok t, s) ∧ p = ⟨maxDepth.toNat, ⟨s, t, []⟩, none⟩ := by
  rw [start_eq (pos_of_start h)] at h
  rcases hpull : TokenSource.pull source with ⟨e | t, s⟩
  · simp [hpull] at h
  · simp only [hpull, Except.ok.injEq] at h
    exact ⟨t, s, rfl, h.symm⟩

structure Answer where
  result : Except Failure (Option Function)
  text : String

def answer (p : Parser σ) : Answer := ⟨p.next.1, p.next.2.consumedText⟩

/-- The parser behind the next `n` calls. -/
def after (p : Parser σ) : Nat → Parser σ
  | 0 => p
  | n + 1 => (p.after n).next.2

def answers (p : Parser σ) : Nat → List Answer
  | 0 => []
  | n + 1 => p.answers n ++ [(p.after n).answer]

/-- The texts that the next `n` calls leave, apart from calls that only repeat a failure. -/
def texts (p : Parser σ) : Nat → List String
  | 0 => []
  | n + 1 => p.texts n ++
      match (p.after n).failure with
      | none => [(p.after n).answer.text]
      | some _ => []

theorem after_add (p : Parser σ) (m n : Nat) : p.after (m + n) = (p.after m).after n := by
  induction n with
  | zero => rfl
  | succ n ih => rw [← Nat.add_assoc, after, ih, after]

theorem answers_add (p : Parser σ) (m n : Nat) :
    p.answers (m + n) = p.answers m ++ (p.after m).answers n := by
  induction n with
  | zero => simp [answers]
  | succ n ih => rw [← Nat.add_assoc, answers, ih, answers, after_add, List.append_assoc]

theorem after_succ (p : Parser σ) (n : Nat) : p.after (n + 1) = p.next.2.after n := by
  rw [Nat.add_comm, after_add]
  rfl

theorem answers_succ (p : Parser σ) (n : Nat) :
    p.answers (n + 1) = p.answer :: p.next.2.answers n := by
  rw [Nat.add_comm, answers_add]
  rfl

theorem answer_mem_answers {p : Parser σ} {k n : Nat} (h : k < n) :
    (p.after k).answer ∈ p.answers n := by
  induction n with
  | zero => omega
  | succ n ih =>
    rw [answers, List.mem_append, List.mem_singleton]
    rcases Nat.lt_succ_iff_lt_or_eq.1 h with hlt | rfl
    · exact .inl (ih hlt)
    · exact .inr rfl

theorem next_of_failure {p : Parser σ} {e : Failure} (h : p.failure = some e) :
    p.next = (.error e, p) :=
  next_eq_error.2 (.inl ⟨h, rfl⟩)

theorem maxDepth_next (p : Parser σ) : p.next.2.maxDepth = p.maxDepth := by
  unfold next
  cases p.failure with
  | some e => rfl
  | none => cases statement p.maxDepth { p.reader with consumed := [] } <;> rfl

theorem maxDepth_after (p : Parser σ) (n : Nat) : (p.after n).maxDepth = p.maxDepth := by
  induction n with
  | zero => rfl
  | succ n ih => rw [after, maxDepth_next, ih]

theorem reader_next {p : Parser σ} (h : p.failure = none) :
    p.next.2.reader = Outcome.reader (statement p.maxDepth p.reader.fresh) := by
  unfold next Reader.fresh
  rw [h]
  cases statement p.maxDepth { p.reader with consumed := [] } <;> rfl

/-- A run has consumed tokens, and the texts it left are theirs. -/
theorem calls_after (p : Parser σ) (n : Nat) :
    ∃ history, Calls p history (p.after n) ∧
      String.join (p.texts n) = String.join (history.map Token.lexeme) := by
  induction n with
  | zero => exact ⟨[], .none, rfl⟩
  | succ n ih =>
    obtain ⟨history, hcalls, htexts⟩ := ih
    refine ⟨_, hcalls.next, ?_⟩
    cases hfailure : (p.after n).failure with
    | some e => simp [texts, taken, hfailure, htexts]
    | none =>
      simp [texts, taken, hfailure, htexts, answer, Parser.consumedText, Reader.consumedText]

theorem consumedText_of_next {p q : Parser σ} {f : Function} (h : p.next = (.ok (some f), q)) :
    q.consumedText = String.join (p.taken.map Token.lexeme) := by
  rw [Parser.consumedText, Reader.consumedText, (next_some h).2.2.2.1.reverse_consumed]

/-- What an iteration delivers comes with the texts of the tokens it has consumed. -/
theorem calls_take {p q : Parser σ} {n : Nat} {items : List (Function × String)}
    (h : p.take n = (items, none, q)) :
    ∃ history, Calls p history q ∧
      String.join (items.map Prod.snd) = String.join (history.map Token.lexeme) := by
  induction n generalizing p items with
  | zero =>
    simp only [take, Prod.mk.injEq, true_and] at h
    obtain ⟨rfl, rfl⟩ := h
    exact ⟨[], .none, rfl⟩
  | succ n ih =>
    rcases hnext : p.next with ⟨e | _ | f, p'⟩
    · simp [take, hnext] at h
    · simp only [take, hnext, Prod.mk.injEq, true_and] at h
      obtain ⟨rfl, rfl⟩ := h
      have hcalls := Calls.one (congrArg Prod.snd hnext)
      rw [(next_none hnext).2.2.1] at hcalls
      exact ⟨[], hcalls, rfl⟩
    · rcases hrest : p'.take n with ⟨others, failure, q'⟩
      simp only [take, hnext, hrest, Prod.mk.injEq] at h
      obtain ⟨rfl, rfl, rfl⟩ := h
      obtain ⟨history, hcalls, htexts⟩ := ih hrest
      refine ⟨_, hcalls.cons (congrArg Prod.snd hnext), ?_⟩
      simp [String.join_cons, String.join_append, htexts, consumedText_of_next hnext]

/-- Some call of a run, or an iteration over all that remains, fails with `e`. -/
def Raises (p : Parser σ) (e : Failure) : Prop :=
  ∃ q, p.all = (.error e, q) ∨ ∃ history r, Calls p history r ∧ r.next = (.error e, q)

theorem Raises.calls {p : Parser σ} {e : Failure} (h : p.Raises e) :
    ∃ history q, Calls p history q ∧ q.failure = some e := by
  obtain ⟨q, hall | ⟨history, r, hcalls, hnext⟩⟩ := h
  · obtain ⟨fs, hyields⟩ := all_eq_error.1 hall
    obtain ⟨history, hcalls, hfailure, _⟩ := hyields.calls
    exact ⟨history, q, hcalls, hfailure⟩
  · exact ⟨_, r.next.2, hcalls.next, failure_of_next (e := e) (by rw [hnext])⟩

/-- Results that deliver functions in the relation `R` or failures in the relation `E`. -/
inductive Alike (R : Function → Function → Prop) (E : Failure → Failure → Prop) :
    Except Failure (Option Function) → Except Failure (Option Function) → Prop
  | none : Alike R E (.ok none) (.ok none)
  | some {f g : Function} (h : R f g) : Alike R E (.ok (some f)) (.ok (some g))
  | error {e e' : Failure} (h : E e e') : Alike R E (.error e) (.error e')

theorem Alike.imp {R R' : Function → Function → Prop} {E E' : Failure → Failure → Prop}
    {a b : Except Failure (Option Function)} (h : Alike R E a b) (hR : ∀ f g, R f g → R' f g)
    (hE : ∀ e e', a = .error e → b = .error e' → E e e' → E' e e') : Alike R' E' a b := by
  cases h with
  | none => exact .none
  | some h => exact .some (hR _ _ h)
  | error h => exact .error (hE _ _ rfl rfl h)

theorem alike_of_eq {a b : Except Failure (Option Function)} (h : a = b) : Alike Eq Eq a b := by
  subst h
  rcases a with e | _ | f
  · exact .error rfl
  · exact .none
  · exact .some rfl

/-- Runs with results that are alike deliver functions that correspond to each other. -/
theorem Yields.transfer {R : Function → Function → Prop} {E : Failure → Failure → Prop}
    {p p' : Parser σ} {q : Parser τ} {fs : List Function} {failure : Option Failure}
    (h : Yields p fs failure p') (halike : ∀ n, Alike R E (p.after n).next.1 (q.after n).next.1) :
    ∃ gs failure' q', Yields q gs failure' q' ∧ List.Forall₂ R fs gs ∧
      Option.Rel E failure failure' := by
  induction h generalizing q with
  | finish h =>
    have hfirst := halike 0
    simp only [after, h] at hfirst
    rcases hnext : q.next with ⟨result, q'⟩
    rw [hnext] at hfirst
    cases hfirst
    exact ⟨_, _, _, .finish hnext, .nil, .none⟩
  | fail h =>
    have hfirst := halike 0
    simp only [after, h] at hfirst
    rcases hnext : q.next with ⟨result, q'⟩
    rw [hnext] at hfirst
    cases hfirst with
    | error he => exact ⟨_, _, _, .fail hnext, .nil, .some he⟩
  | @more p p₁ p' f fs failure h _ ih =>
    have hfirst := halike 0
    simp only [after, h] at hfirst
    rcases hnext : q.next with ⟨result, q'⟩
    rw [hnext] at hfirst
    cases hfirst with
    | some hf =>
      have hrest (n : Nat) : Alike R E (p₁.after n).next.1 (q'.after n).next.1 := by
        have hn := halike (n + 1)
        rwa [after_succ, after_succ, h, hnext] at hn
      obtain ⟨gs, failure', r, hyields, hgs, hfailure⟩ := ih hrest
      exact ⟨_, _, _, .more hnext hyields, .cons hf hgs, hfailure⟩

structure AnswersAlike (like : Likeness) (a b : Answer) : Prop where
  result : Alike (like.UpTo Function.erase) like.SameFailure a.result b.result
  text : like.Texts → a.text = b.text

theorem eq_of_answersAlike_exact {a b : Answer} (h : AnswersAlike .exact a b) : a = b := by
  obtain ⟨result, text⟩ := a
  obtain ⟨result', text'⟩ := b
  obtain rfl : text = text' := h.text fun htoken => congrArg Token.lexeme htoken
  cases h.result with
  | none => rfl
  | some hf => rw [Likeness.exact_upTo.1 hf]
  | error he => rw [Likeness.exact_sameFailure.1 he]

theorem answer_eq_of_answers_eq {p : Parser σ} {q : Parser τ} {n : Nat}
    (h : p.answers (n + 1) = q.answers (n + 1)) : (p.after n).answer = (q.after n).answer := by
  rw [answers, answers] at h
  exact List.singleton_inj.1 (List.append_inj' h rfl).2

theorem answers_eq_of_forall {p : Parser σ} {q : Parser τ} {n : Nat}
    (h : ∀ k < n, (p.after k).answer = (q.after k).answer) : p.answers n = q.answers n := by
  induction n with
  | zero => rfl
  | succ n ih =>
    rw [answers, answers, ih fun k hk => h k (by omega), h n (by omega)]

structure Coupled {like : Likeness} (c : Coupling like σ τ) (p : Parser σ) (q : Parser τ) :
    Prop where
  follows : Follows c (Option.Rel (like.UpTo Function.erase)) (statement p.maxDepth)
    (statement q.maxDepth)
  fresh : ∀ {r r'}, c.matched r r' → c.matched r.fresh r'.fresh
  matched : c.matched p.reader q.reader
  failure_like : Option.Rel like.SameFailure p.failure q.failure

namespace Coupled

variable {like : Likeness} {c : Coupling like σ τ} {p : Parser σ} {q : Parser τ}

theorem text_eq (h : Coupled c p q) (htexts : like.Texts) : p.consumedText = q.consumedText := by
  have hlexemes := Likeness.lexemes_eq htexts (c.consumed_like h.matched)
  rw [Parser.consumedText, Parser.consumedText, Reader.consumedText, Reader.consumedText,
    List.map_reverse, List.map_reverse, hlexemes]

theorem failure_eq_none (h : Coupled c p q) (hnone : p.failure = none) : q.failure = none := by
  have hlike := h.failure_like
  rw [hnone] at hlike
  generalize q.failure = failure at hlike ⊢
  cases hlike
  rfl

/-- The next call answers alike and leaves coupled parsers, or the left one parts from the right
one in it. -/
theorem next (h : Coupled c p q) :
    (AnswersAlike like p.answer q.answer ∧ Coupled c p.next.2 q.next.2) ∨
      ∃ e, p.next.1 = .error e ∧ c.parts e ∧ c.beyond p.next.2.reader q.next.2.reader := by
  cases hfailure : p.failure with
  | some e =>
    have hlike := h.failure_like
    rw [hfailure] at hlike
    cases hfailure' : q.failure with
    | none => simp [hfailure'] at hlike
    | some e' =>
      rw [hfailure'] at hlike
      cases hlike with
      | some he =>
        refine .inl ⟨⟨?_, fun htexts => ?_⟩, ?_⟩
        · simp only [answer, next_of_failure hfailure, next_of_failure hfailure']
          exact .error he
        · simp only [answer, next_of_failure hfailure, next_of_failure hfailure']
          exact h.text_eq htexts
        · simpa only [next_of_failure hfailure, next_of_failure hfailure'] using h
  | none =>
    have hfailure' := h.failure_eq_none hfailure
    have hagree := h.follows.agree (h.fresh h.matched)
    have hnext (hcoupled : Coupled c p.next.2 q.next.2)
        (hresult : Alike (like.UpTo Function.erase) like.SameFailure p.next.1 q.next.1) :
        AnswersAlike like p.answer q.answer ∧ Coupled c p.next.2 q.next.2 :=
      ⟨⟨hresult, hcoupled.text_eq⟩, hcoupled⟩
    simp only [Reader.fresh] at hagree
    unfold Parser.next at hnext ⊢
    simp only [hfailure, hfailure'] at hnext ⊢
    generalize statement p.maxDepth { p.reader with consumed := [] } = left at hagree hnext ⊢
    generalize statement q.maxDepth { q.reader with consumed := [] } = right at hagree hnext ⊢
    cases hagree with
    | ok hmatched hab =>
      refine .inl (hnext ⟨h.follows, h.fresh, hmatched, .none⟩ ?_)
      cases hab with
      | none => exact .none
      | some hf => exact .some hf
    | error hmatched he =>
      exact .inl (hnext ⟨h.follows, h.fresh, hmatched, .some he⟩ (.error he))
    | @parted e r _ hparts hbeyond =>
      refine .inr ⟨e, rfl, hparts, ?_⟩
      cases right with
      | ok result r' => exact hbeyond
      | error e' r' => exact hbeyond

/-- As long as no call fails in a way that lets the left run part, both runs answer alike. -/
theorem after (h : Coupled c p q) (n : Nat)
    (hparts : ∀ k < n, ∀ e, (p.after k).next.1 = .error e → ¬ c.parts e) :
    (∀ k < n, AnswersAlike like (p.after k).answer (q.after k).answer) ∧
      Coupled c (p.after n) (q.after n) := by
  induction n with
  | zero => exact ⟨by simp, h⟩
  | succ n ih =>
    obtain ⟨hanswers, hcoupled⟩ := ih fun k hk => hparts k (by omega)
    rcases hcoupled.next with ⟨hanswer, hnext⟩ | ⟨e, he, hpart, _⟩
    · refine ⟨fun k hk => ?_, hnext⟩
      rcases Nat.lt_succ_iff_lt_or_eq.1 hk with hlt | rfl
      · exact hanswers k hlt
      · exact hanswer
    · exact absurd hpart (hparts n (by omega) e he)

end Coupled

structure SameState (p : Parser σ) (q : Parser τ) : Prop where
  lookahead_eq : p.reader.lookahead = q.reader.lookahead
  consumed_eq : p.reader.consumed = q.reader.consumed
  failure_eq : p.failure = q.failure
  position_eq : p.position = q.position

theorem Coupled.failure_eq {c : Coupling .exact σ τ} {p : Parser σ} {q : Parser τ}
    (h : Coupled c p q) : p.failure = q.failure := by
  have hlike := h.failure_like
  generalize p.failure = failure at hlike ⊢
  generalize q.failure = failure' at hlike ⊢
  cases hlike with
  | none => rfl
  | some he => rw [Likeness.exact_sameFailure.1 he]

theorem Coupled.sameState {c : Coupling .exact σ τ} {p : Parser σ} {q : Parser τ}
    (h : Coupled c p q) (hposition : p.position = q.position) : SameState p q where
  lookahead_eq := c.lookahead_like h.matched
  consumed_eq := by
    have hconsumed : List.Forall₂ Eq p.reader.consumed q.reader.consumed :=
      c.consumed_like h.matched
    rwa [List.forall₂_eq_eq_eq] at hconsumed
  failure_eq := h.failure_eq
  position_eq := hposition

end ExprLang.Parser
