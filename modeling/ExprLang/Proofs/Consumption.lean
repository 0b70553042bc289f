import ExprLang.Reader.Progress

/-!
# Consuming tokens

What lies between two states of a reader: the tokens consumed on the way from one to the other.
A reader and the tokens determine the state they lead to, and everything else that a reading
does with its reader (peeking, closing a span, running a loop) leaves the state alone.
-/
namespace ExprLang.Reader

variable {σ α : Type}

theorem peek_bind {f : Token → Reading σ α} {r : Reader σ} :
    ((peek : Reading σ Token) >>= f) r = f r.lookahead r := rfl

theorem pure_eq_ok {r r' : Reader σ} {a b : α} :
    (pure a : Reading σ α) r = .ok b r' ↔ a = b ∧ r = r' := by
  simp [pure_apply]

theorem pure_ne_error {r r' : Reader σ} {a : α} {e : Failure} :
    (pure a : Reading σ α) r ≠ .error e r' := by
  simp [pure_apply]

theorem spanFrom_bind {f : Span → Reading σ α} {r : Reader σ} {start : Token} :
    ((spanFrom start : Reading σ Span) >>= f) r =
      f ⟨start.location, (r.consumed.headD start).location⟩ r := rfl

theorem fail_ne_ok {r r' : Reader σ} {fault : SyntaxFault} {a : α} :
    (fail fault : Reading σ α) r ≠ .ok a r' := by
  simp [fail]

theorem fail_eq_error {r r' : Reader σ} {fault : SyntaxFault} {e : Failure} :
    (fail fault : Reading σ α) r = .error e r' ↔
      .grammar (SyntaxError.ofFault fault r.lookahead) = e ∧ r = r' := by
  simp [fail]

theorem map_some_eq_ok {r r' : Reader σ} {x : Reading σ α} {a : α} :
    (some <$> x) r = .ok (some a) r' ↔ x r = .ok a r' := by
  simp only [map_eq_pure_bind, bind_eq_ok, pure_eq_ok, Option.some.injEq]
  constructor
  · rintro ⟨_, _, hx, rfl, rfl⟩
    exact hx
  · intro hx
    exact ⟨a, r', hx, rfl, rfl⟩

theorem map_some_ne_none {r r' : Reader σ} {x : Reading σ α} :
    (some <$> x) r ≠ .ok none r' := by
  simp only [map_eq_pure_bind, bind_eq_ok, pure_eq_ok, ne_eq, reduceCtorEq, false_and, and_false,
    exists_false, not_false_eq_true]

theorem map_some_eq_error {r r' : Reader σ} {x : Reading σ α} {e : Failure} :
    (some <$> x) r = .error e r' ↔ x r = .error e r' := by
  simp only [map_eq_pure_bind, bind_eq_error, pure_ne_error, and_false, exists_false, or_false]

variable [TokenSource σ]

theorem bounded_eq {loop : Nat → Reading σ α} (r : Reader σ) :
    bounded loop r = loop (r.remaining + 1) r := rfl

/-- `Consumes r ts r'`: from `r` the tokens `ts`, none of them an end of input, are consumed one
after another, and that leads to `r'`. -/
inductive Consumes : Reader σ → List Token → Reader σ → Prop
  | nil (r : Reader σ) : Consumes r [] r
  | cons {r r₁ r' : Reader σ} {t : Token} {ts : List Token} (hend : t.isEnd = false)
      (first : advance r = .ok t r₁) (rest : Consumes r₁ ts r') : Consumes r (t :: ts) r'

theorem advance_eq_ok {r r' : Reader σ} {t : Token} (h : advance r = .ok t r') :
    t = r.lookahead ∧ r'.consumed = t :: r.consumed := by
  unfold advance at h
  split at h
  · simp only [EStateM.Result.ok.injEq] at h
    simp [← h.1, ← h.2]
  · split at h
    · simp only [EStateM.Result.ok.injEq] at h
      simp [← h.1, ← h.2]
    · simp at h

theorem advance_eq_error {r r' : Reader σ} {e : Failure} (h : advance r = .error e r') :
    ∃ scanError source, r.lookahead.isEnd = false ∧
      TokenSource.pull r.source = (.error scanError, source) ∧ e = .scan scanError ∧
      r' = { r with source } := by
  unfold advance at h
  split at h
  · simp at h
  · next hend =>
    split at h
    · simp at h
    · next scanError source hpull =>
      simp only [EStateM.Result.error.injEq] at h
      exact ⟨scanError, source, by simpa using hend, hpull, h.1.symm, h.2.symm⟩

namespace Consumes

variable {r r₁ r₂ r' : Reader σ} {t : Token} {ts us : List Token}

theorem one (hend : t.isEnd = false) (h : advance r = .ok t r') : Consumes r [t] r' :=
  .cons hend h (.nil r')

theorem trans (h : Consumes r ts r₁) (g : Consumes r₁ us r') : Consumes r (ts ++ us) r' := by
  induction h with
  | nil => exact g
  | cons hend first _ ih => exact .cons hend first (ih g)

theorem eq_of_nil (h : Consumes r [] r') : r = r' := by
  cases h
  rfl

theorem cons_iff : Consumes r (t :: ts) r' ↔
    t.isEnd = false ∧ ∃ r₁, advance r = .ok t r₁ ∧ Consumes r₁ ts r' := by
  constructor
  · intro h
    cases h with
    | cons hend first rest => exact ⟨hend, _, first, rest⟩
  · intro hsteps
    rcases hsteps with ⟨hend, r₁, first, rest⟩
    exact .cons hend first rest

theorem append_iff : Consumes r (ts ++ us) r' ↔ ∃ r₁, Consumes r ts r₁ ∧ Consumes r₁ us r' := by
  constructor
  · intro h
    induction ts generalizing r with
    | nil => exact ⟨r, .nil r, h⟩
    | cons t ts ih =>
      obtain ⟨hend, r₁, first, rest⟩ := cons_iff.1 h
      obtain ⟨r₂, h₁, h₂⟩ := ih rest
      exact ⟨r₂, .cons hend first h₁, h₂⟩
  · intro hparts
    rcases hparts with ⟨r₁, h, g⟩
    exact h.trans g

theorem lookahead_eq (h : Consumes r (t :: ts) r') : r.lookahead = t := by
  obtain ⟨_, r₁, first, _⟩ := cons_iff.1 h
  exact (advance_eq_ok first).1.symm

/-- The tokens determine where they lead. -/
theorem unique (h : Consumes r ts r₁) (g : Consumes r ts r₂) : r₁ = r₂ := by
  induction h with
  | nil => exact g.eq_of_nil
  | cons hend first _ ih =>
    obtain ⟨_, r₃, first', rest'⟩ := cons_iff.1 g
    rw [first, EStateM.Result.ok.injEq] at first'
    obtain ⟨_, rfl⟩ := first'
    exact ih rest'

/-- Two ways that begin with the same tokens part behind them. -/
theorem fork {vs : List Token} (h : Consumes r (ts ++ us) r₁) (g : Consumes r (ts ++ vs) r₂) :
    ∃ r', Consumes r ts r' ∧ Consumes r' us r₁ ∧ Consumes r' vs r₂ := by
  obtain ⟨r', hts, hus⟩ := append_iff.1 h
  obtain ⟨r'', hts', hvs⟩ := append_iff.1 g
  obtain rfl := hts.unique hts'
  exact ⟨r', hts, hus, hvs⟩

theorem fork_cons {vs : List Token} (h : Consumes r (t :: us) r₁) (g : Consumes r (t :: vs) r₂) :
    ∃ r', advance r = .ok t r' ∧ Consumes r' us r₁ ∧ Consumes r' vs r₂ := by
  obtain ⟨_, r', hadvance, hus⟩ := cons_iff.1 h
  obtain ⟨_, r'', hadvance', hvs⟩ := cons_iff.1 g
  rw [hadvance, EStateM.Result.ok.injEq] at hadvance'
  obtain ⟨_, rfl⟩ := hadvance'
  exact ⟨r', hadvance, hus, hvs⟩

theorem consumed_eq (h : Consumes r ts r') : r'.consumed = ts.reverse ++ r.consumed := by
  induction h with
  | nil => rfl
  | cons hend first _ ih => simp [ih, (advance_eq_ok first).2]

theorem remaining_le (h : Consumes r ts r') : r'.remaining + ts.length ≤ r.remaining := by
  induction h with
  | nil => simp
  | @cons r r₁ r' t ts hend first _ ih =>
    have hlookahead := (advance_eq_ok first).1
    have hfirst := remaining_advance first (hlookahead ▸ hend)
    simp only [List.length_cons]
    omega

theorem isEnd_eq_false (h : Consumes r ts r') : ∀ t ∈ ts, t.isEnd = false := by
  induction h with
  | nil => simp
  | cons hend _ _ ih => simpa using ⟨hend, ih⟩

/-- The latest token consumed, as a span that starts with the first of them sees it. -/
theorem headD_consumed (h : Consumes r (t :: ts) r') :
    r'.consumed.headD t = ts.getLastD t := by
  simp [h.consumed_eq, List.headD_eq_head?_getD, List.getLastD_eq_getLast?]

end Consumes

theorem consumes_advance {r r' : Reader σ} {t : Token} (h : advance r = .ok t r')
    (hend : r.lookahead.terminal ≠ .endOfInput) : Consumes r [t] r' :=
  .one (Reader.isEnd_eq_false ((advance_eq_ok h).1 ▸ hend)) h

end ExprLang.Reader
