import ExprLang.Proofs.Layout
import Mathlib.Order.Monotone.Basic

/-!
# One token ahead

How far a parser reads into its source. At any time it has pulled the tokens it has consumed and
one more, its lookahead; an end of input is never consumed, so nothing is pulled behind one. What a
run does is therefore settled by the tokens it has pulled, whatever the source has behind them.
-/
namespace ExprLang

/-- `Pulls s ts s'`: the source `s` delivers the tokens `ts` and is `s'` then. -/
inductive Pulls {σ : Type} [TokenSource σ] : σ → List Token → σ → Prop
  | nil (s : σ) : Pulls s [] s
  | cons {s s₁ s' : σ} {t : Token} {ts : List Token} (first : TokenSource.pull s = (.ok t, s₁))
      (rest : Pulls s₁ ts s') : Pulls s (t :: ts) s'

namespace Pulls

variable {σ : Type} [TokenSource σ] {s s₁ s' : σ} {t : Token} {ts us : List Token}

theorem append (h : Pulls s ts s₁) (g : Pulls s₁ us s') : Pulls s (ts ++ us) s' := by
  induction h with
  | nil => exact g
  | cons first _ ih => exact .cons first (ih g)

theorem one (h : TokenSource.pull s = (.ok t, s')) : Pulls s [t] s' := .cons h (.nil s')

theorem taken_eq {s s' : TokenList} (h : Pulls s ts s') : s'.taken = s.taken + ts.length := by
  induction h with
  | nil => rfl
  | @cons s s₁ _ t ts first _ ih =>
    obtain ⟨_, _, hpull, htaken⟩ := Reader.exists_pull s
    obtain rfl : _ = s₁ := congrArg Prod.snd (hpull.symm.trans first)
    rw [ih, htaken, List.length_cons]
    omega

/-- What a list delivers, none but the last an end of input, it begins with. -/
theorem isPrefix {s s' : TokenList} (h : Pulls s (ts ++ [t]) s')
    (hts : ∀ u ∈ ts, u.isEnd = false) : ts ++ [t] <+: s.tokens ++ [s.last] := by
  induction ts generalizing s with
  | nil =>
    cases h with
    | cons first _ =>
      simp only [TokenSource.pull, TokenList.pull] at first
      cases htokens : s.tokens <;> simp_all
  | cons u ts ih =>
    obtain ⟨hu, hbehind⟩ := List.forall_mem_cons.1 hts
    cases h with
    | cons first rest =>
      simp only [TokenSource.pull, TokenList.pull] at first
      cases htokens : s.tokens with
      | nil =>
        -- the end of input of the list would be consumed
        simp only [htokens, Prod.mk.injEq, Except.ok.injEq] at first
        rw [← first.1, s.last_isEnd] at hu
        contradiction
      | cons u' tokens =>
        simp only [htokens, Prod.mk.injEq, Except.ok.injEq] at first
        obtain ⟨rfl, rfl⟩ := first
        exact List.cons_prefix_cons.2 ⟨rfl, ih rest hbehind⟩

end Pulls

theorem length_le_beforeEnd {ts us : List Token} (h : us <+: ts) (hus : ∀ t ∈ us, t.isEnd = false) :
    us.length ≤ (beforeEnd ts).length := by
  obtain ⟨vs, rfl⟩ := h
  rw [beforeEnd, List.takeWhile_append_of_pos (by simpa using hus), List.length_append]
  exact Nat.le_add_right _ _

/-- Some tokens and behind them an error, again and again. -/
structure Excerpt where
  tokens : List Token
  taken : Nat
  error : ScanError

instance : TokenSource Excerpt where
  pull s :=
    match s.tokens with
    | [] => (.error s.error, s)
    | t :: ts => (.ok t, { s with tokens := ts, taken := s.taken + 1 })
  remaining s := s.tokens.length
  position s := s.taken
  remaining_pull {s s' t} h _ := by
    cases htokens : s.tokens with
    | nil => simp [htokens] at h
    | cons u us =>
      simp only [htokens, Prod.mk.injEq] at h
      simp [← h.2]

namespace Reader

variable {σ : Type} [TokenSource σ] {r r' : Reader σ} {ts : List Token}

/-- Consuming tokens pulls as many, so that one is ahead again. -/
theorem Consumes.pulls (h : Consumes r ts r') :
    ∃ us, Pulls r.source us r'.source ∧ ts ++ [r'.lookahead] = r.lookahead :: us := by
  induction h with
  | nil r => exact ⟨[], .nil _, rfl⟩
  | @cons r r₁ r' t ts hend first _ ih =>
    obtain ⟨us, hus, hsplit⟩ := ih
    obtain ⟨rfl, _⟩ := advance_eq_ok first
    unfold advance at first
    rw [hend] at first
    rcases hpull : TokenSource.pull r.source with ⟨e | u, source⟩
    · simp [hpull] at first
    · simp only [hpull, Bool.false_eq_true, if_false, EStateM.Result.ok.injEq, true_and] at first
      subst first
      exact ⟨u :: us, .cons hpull hus, by rw [List.cons_append, hsplit]⟩

/-- Readers of an excerpt and of a list at the same place, where the excerpt has `count` tokens in
all and the list goes on with those of them that are still to come. -/
structure Excerpted (count : Nat) (r : Reader Excerpt) (r' : Reader TokenList) : Prop where
  lookahead_eq : r.lookahead = r'.lookahead
  consumed_eq : r.consumed = r'.consumed
  taken_eq : r.source.taken = r'.source.taken
  count_eq : r.source.taken + r.source.tokens.length = count
  ahead : r.lookahead.isEnd = false →
    r.source.tokens <+: r'.source.tokens ++ [r'.source.last]

theorem Excerpted.advance {count : Nat} {r : Reader Excerpt} {r' : Reader TokenList}
    (h : Excerpted count r r') :
    Agree .exact (Excerpted count) (fun e => ∃ x, e = .scan x)
      (fun _ q => count < q.source.taken) Eq (Reader.advance r) (Reader.advance r') := by
  obtain ⟨source, lookahead, consumed⟩ := r
  obtain ⟨hlookahead, hconsumed, htaken, hcount, hahead⟩ := h
  simp only at hlookahead hconsumed htaken hcount hahead
  subst hlookahead hconsumed
  cases hend : r'.lookahead.isEnd with
  | true =>
    simp only [Reader.advance, hend, if_true]
    exact .ok ⟨rfl, rfl, htaken, hcount, by simp [hend]⟩ rfl
  | false =>
    have hprefix := hahead hend
    cases htokens : source.tokens with
    | nil =>
      -- the excerpt is used up, and the list goes on behind it
      have hpull : TokenSource.pull source = (.error source.error, source) := by
        simp only [TokenSource.pull, htokens]
      obtain ⟨t, s', hpull', htaken'⟩ := exists_pull r'.source
      simp only [Reader.advance, hend, hpull, hpull', Bool.false_eq_true, if_false]
      refine .parted ⟨_, rfl⟩ ?_
      simp only [Outcome.reader, htaken', htokens, List.length_nil] at hcount ⊢
      omega
    | cons t tokens =>
      have hpull : TokenSource.pull source =
          (.ok t, { source with tokens, taken := source.taken + 1 }) := by
        simp only [TokenSource.pull, htokens]
      rw [htokens] at hprefix
      obtain ⟨s', hpull', htaken', hprefix'⟩ := pull_of_prefix hprefix
      simp only [Reader.advance, hend, hpull, hpull', Bool.false_eq_true, if_false]
      refine .ok ⟨rfl, rfl, ?_, ?_, fun _ => (List.cons_prefix_cons.1 hprefix').2⟩ rfl
      · simp only [htaken, htaken']
      · simp only [htokens, List.length_cons] at hcount ⊢
        omega

/-- The left run parts when it needs a token behind the excerpt. -/
def excerpted (count : Nat) : Coupling .exact Excerpt TokenList where
  matched := Excerpted count
  parts e := ∃ x, e = .scan x
  beyond _ q := count < q.source.taken
  lookahead_like h := h.lookahead_eq
  consumed_like h := h.consumed_eq ▸ List.forall₂_refl _
  advance_agree := Excerpted.advance
  advance_beyond h := Nat.lt_of_lt_of_le h (taken_advance _)

end Reader

namespace Parser

open Reader

variable {σ : Type} [TokenSource σ] {p q r : Parser σ} {ts us history : List Token}

theorem Calls.trans (h : Calls p ts q) (g : Calls q us r) : Calls p (ts ++ us) r := by
  induction g with
  | none => simpa using h
  | next _ ih => simpa using ih.next

/-- How a parser stands towards its source, after `history` has been consumed: it has pulled that
and its lookahead, and if it has asked for more than that, the source has failed. -/
structure Ahead (source : σ) (history : List Token) (p : Parser σ) : Prop where
  pulled : ∃ s, Pulls source (history ++ [p.reader.lookahead]) s ∧
    (p.reader.source = s ∨ ∃ e, p.failure = some (.scan e) ∧
      p.reader.lookahead.isEnd = false ∧ TokenSource.pull s = (.error e, p.reader.source))
  isEnd_eq_false : ∀ t ∈ history, t.isEnd = false

theorem ahead_of_start {source : σ} {maxDepth : Int} (h : start maxDepth source = .ok p) :
    Ahead source [] p := by
  obtain ⟨t, s, hpull, rfl⟩ := eq_of_start h
  exact ⟨⟨s, .one hpull, .inl rfl⟩, by simp⟩

theorem Ahead.pulls_of_failure {source : σ} (h : Ahead source history p)
    (hnone : p.failure = none) : Pulls source (history ++ [p.reader.lookahead]) p.reader.source := by
  obtain ⟨s, hs, rfl | ⟨e, he, _⟩⟩ := h.pulled
  · exact hs
  · simp [hnone] at he

/-- What is pulled for tokens that are consumed comes behind what was pulled before. -/
theorem Ahead.append {source : σ} {r' : Reader σ} (h : Ahead source history p)
    (hnone : p.failure = none) (hts : Consumes p.reader.fresh ts r') :
    Pulls source (history ++ ts ++ [r'.lookahead]) r'.source ∧
      ∀ t ∈ history ++ ts, t.isEnd = false := by
  obtain ⟨us, hus, hsplit⟩ := hts.pulls
  refine ⟨?_, List.forall_mem_append.2 ⟨h.isEnd_eq_false, hts.isEnd_eq_false⟩⟩
  have hpulls := (h.pulls_of_failure hnone).append hus
  rw [List.append_assoc, hsplit, fresh_lookahead, List.append_cons]
  exact hpulls

theorem Ahead.next {source : σ} (h : Ahead source history p) :
    Ahead source (history ++ p.taken) p.next.2 := by
  cases hfailure : p.failure with
  | some e => simpa [taken, hfailure, next_of_failure hfailure] using h
  | none =>
    rcases hnext : p.next with ⟨e | _ | f, q⟩
    · rcases next_eq_error.1 hnext with ⟨hsome, _⟩ | ⟨_, r', hstatement, rfl⟩
      · simp [hfailure] at hsome
      obtain ⟨us, r₁, hus, hlookahead, hconsumed, hcause⟩ := stops_of_statement hstatement
      have htaken : p.taken = us := by
        simp only [taken, hfailure, hnext]
        rw [hconsumed, hus.reverse_consumed]
      obtain ⟨hpulls, hends⟩ := h.append hfailure hus
      rw [htaken]
      refine ⟨⟨r₁.source, by rw [hlookahead]; exact hpulls, ?_⟩, hends⟩
      rcases hcause with ⟨_, _, _, hsource⟩ | ⟨x, rfl, hend, hpull⟩
      · exact .inl hsource
      · exact .inr ⟨x, rfl, hlookahead ▸ hend, hpull⟩
    · obtain ⟨_, _, htaken, rfl⟩ := next_none hnext
      rw [htaken, List.append_nil]
      exact ⟨⟨_, h.pulls_of_failure hfailure, .inl rfl⟩, h.isEnd_eq_false⟩
    · obtain ⟨_, _, _, hts, _⟩ := next_some hnext
      obtain ⟨hpulls, hends⟩ := h.append hfailure hts
      exact ⟨⟨_, hpulls, .inl rfl⟩, hends⟩

theorem Ahead.calls {source : σ} (h : Ahead source [] p) (hcalls : Calls p history q) :
    Ahead source history q := by
  induction hcalls with
  | none => exact h
  | next _ ih => exact ih.next

theorem taken_ne_nil {f : Function} (h : p.next = (.ok (some f), q)) : p.taken ≠ [] := by
  obtain ⟨_, _, _, _, _, d, _, hderives⟩ := next_some h
  exact hderives.ne_nil

/-- Every function that is delivered has taken a token. -/
theorem Yields.exists_calls {fs : List Function} {failure : Option Failure}
    (h : Yields p fs failure q) : ∃ ts, Calls p ts q ∧ fs.length ≤ ts.length := by
  induction h with
  | finish h | fail h => exact ⟨_, Calls.one (congrArg Prod.snd h), Nat.zero_le _⟩
  | more h _ ih =>
    obtain ⟨ts, hcalls, hlength⟩ := ih
    have hpos := List.length_pos_iff.2 (taken_ne_nil h)
    refine ⟨_, hcalls.cons (congrArg Prod.snd h), ?_⟩
    rw [List.length_cons, List.length_append]
    omega

structure OneAhead (ts history : List Token) (p : Parser TokenList) : Prop where
  position_eq : p.position = history.length + 1
  pulled_eq : ts.take p.position = history ++ [p.reader.lookahead]
  isEnd_eq_false : ∀ t ∈ history, t.isEnd = false
  settled : p.reader.lookahead.isEnd = true → ∀ us q, Calls p us q →
    us = [] ∧ q.position = p.position
  progress : ∀ f q, p.next = (.ok (some f), q) → p.taken ≠ []
  length_le : ∀ fs q, p.all = (.ok fs, q) → history.length + fs.length ≤ (beforeEnd ts).length

section Lists

variable {p q : Parser TokenList} {source : TokenList}

theorem Ahead.position_eq (h : Ahead source history p) (htaken : source.taken = 0) :
    p.position = history.length + 1 := by
  obtain ⟨s, hs, rfl | ⟨e, _, _, hpull⟩⟩ := h.pulled
  · have hposition := hs.taken_eq
    rw [htaken, List.length_append, List.length_singleton, Nat.zero_add] at hposition
    exact hposition
  · exact absurd hpull (pull_ne_error _ _ _)

theorem Ahead.isPrefix (h : Ahead source history p) :
    history ++ [p.reader.lookahead] <+: source.tokens ++ [source.last] := by
  obtain ⟨s, hs, _⟩ := h.pulled
  exact hs.isPrefix h.isEnd_eq_false

/-- Nothing is consumed behind an end of input. -/
theorem Ahead.eq_nil_of_isEnd (h : Ahead source history p)
    (hend : p.reader.lookahead.isEnd = true) (g : Ahead source (history ++ us) q) : us = [] := by
  cases us with
  | nil => rfl
  | cons u us =>
    have hsplit : history ++ [u] ++ (us ++ [q.reader.lookahead]) =
        history ++ u :: us ++ [q.reader.lookahead] := by simp
    have hu : history ++ [u] <+: source.tokens ++ [source.last] :=
      (List.prefix_append _ _).trans (hsplit ▸ g.isPrefix)
    have hsame := List.prefix_of_prefix_length_le hu h.isPrefix (by simp)
    have hlast : u = p.reader.lookahead := by
      simpa using hsame.eq_of_length (by simp)
    have hfalse := g.isEnd_eq_false u (by simp)
    rw [hlast, hend] at hfalse
    contradiction

theorem oneAhead_of_calls (hsource : TokenList.ofList? ts = some source) {maxDepth : Int}
    (hp : start maxDepth source = .ok p) (hcalls : Calls p history q) : OneAhead ts history q := by
  have htaken := taken_of_ofList? hsource
  obtain rfl := append_of_ofList? hsource
  have hahead {us : List Token} {r : Parser TokenList} (h : Calls p us r) : Ahead source us r :=
    (ahead_of_start hp).calls h
  have hposition := (hahead hcalls).position_eq htaken
  refine ⟨hposition, ?_, (hahead hcalls).isEnd_eq_false, fun hend us r hus => ?_, ?_, ?_⟩
  · have htake := List.prefix_iff_eq_take.1 (hahead hcalls).isPrefix
    rw [List.length_append, List.length_singleton, ← hposition] at htake
    exact htake.symm
  · have hr := hahead (hcalls.trans hus)
    obtain rfl := (hahead hcalls).eq_nil_of_isEnd hend hr
    exact ⟨rfl, by rw [hr.position_eq htaken, hposition, List.append_nil]⟩
  · exact fun f r hnext => taken_ne_nil hnext
  · intro fs r hall
    obtain ⟨us, hus, hlength⟩ := (all_eq_ok.1 hall).exists_calls
    have hr := hahead (hcalls.trans hus)
    have hle := length_le_beforeEnd ((List.prefix_append _ _).trans hr.isPrefix) hr.isEnd_eq_false
    rw [List.length_append] at hle
    omega

/-- What `q` shares with `p` as long as `p` has pulled no more than `n` tokens. -/
structure SameWithin (n : Nat) (p q : Parser TokenList) : Prop where
  answers_eq : ∀ m, (p.after m).position ≤ n → p.answers m = q.answers m
  state : ∀ m, (p.after m).position ≤ n → SameState (p.after m) (q.after m)

theorem monotone_position {maxDepth : Int} (hsource : TokenList.ofList? ts = some source)
    (hp : start maxDepth source = .ok p) : Monotone fun m => (p.after m).position := by
  refine monotone_nat_of_le_succ fun m => ?_
  obtain ⟨history, hcalls, _⟩ := calls_after p m
  have hbefore := (oneAhead_of_calls hsource hp hcalls).position_eq
  have hbehind := (oneAhead_of_calls hsource hp hcalls.next).position_eq
  rw [List.length_append] at hbehind
  simp only [after]
  omega

theorem position_le_length {maxDepth : Int} (hsource : TokenList.ofList? ts = some source)
    (hp : start maxDepth source = .ok p) (m : Nat) : (p.after m).position ≤ ts.length := by
  obtain ⟨history, hcalls, _⟩ := calls_after p m
  have hahead := oneAhead_of_calls hsource hp hcalls
  have hlength := congrArg List.length hahead.pulled_eq
  rw [List.length_take, List.length_append, List.length_singleton, ← hahead.position_eq] at hlength
  omega

variable {x : Parser Excerpt} {count m : Nat}

theorem coupled_excerpt {t : Token} {tokens : List Token} (e : ScanError) {maxDepth : Int}
    (hsource : TokenList.ofList? ts = some source) (hbegins : t :: tokens <+: ts)
    (hp : start maxDepth source = .ok p) :
    Coupled (excerpted (tokens.length + 1)) ⟨maxDepth.toNat, ⟨⟨tokens, 1, e⟩, t, []⟩, none⟩ p := by
  have htaken := taken_of_ofList? hsource
  obtain rfl := append_of_ofList? hsource
  obtain ⟨t', s, hpull, rfl⟩ := eq_of_start hp
  obtain ⟨s', hpull', htaken', hprefix'⟩ := pull_of_prefix hbegins
  rw [hpull, Prod.mk.injEq, Except.ok.injEq] at hpull'
  obtain ⟨rfl, rfl⟩ := hpull'
  refine ⟨follows_statement (follows_expression_self _ _), fun h => ?_, ?_, .none⟩
  · exact ⟨h.lookahead_eq, rfl, h.taken_eq, h.count_eq, h.ahead⟩
  · refine ⟨rfl, rfl, ?_, Nat.add_comm _ _, fun _ => (List.cons_prefix_cons.1 hprefix').2⟩
    rw [htaken', htaken]

/-- Where a list's parser stays within the excerpt, the excerpt's parser does not come to its
end. -/
theorem not_parts_of_position_le (h : Coupled (excerpted count) x p) (hnone : p.failure = none)
    (hm : ∀ k ≤ m, (p.after k).position ≤ count) :
    ∀ k < m, ∀ e, (x.after k).next.1 = .error e → ¬ (excerpted count).parts e := by
  induction m with
  | zero => simp
  | succ m ih =>
    have hbefore := ih fun k hk => hm k (by omega)
    intro k hk e he
    rcases Nat.lt_succ_iff_lt_or_eq.1 hk with hlt | rfl
    · exact hbefore k hlt e he
    rcases (h.after k hbefore).2.next with ⟨hanswer, _⟩ | ⟨_, _, _, hbeyond⟩
    · have hresult := congrArg Answer.result (eq_of_answersAlike_exact hanswer)
      have hfailure := failure_of_next (p := p.after k) (Prod.ext (hresult.symm.trans he) rfl)
      obtain ⟨y, rfl, _⟩ := blames_after hnone (k + 1) e hfailure
      rintro ⟨_, hscan⟩
      cases hscan
    · exact absurd (hm (k + 1) (Nat.le_refl _)) (Nat.not_le.2 hbeyond)

theorem sameWithin_of_prefix {n : Nat} {source' : TokenList} {maxDepth : Int}
    (hsource : TokenList.ofList? ts = some source) (hsource' : TokenList.ofList? us = some source')
    (hbegins : ts.take n <+: us) (hp : start maxDepth source = .ok p)
    (hq : start maxDepth source' = .ok q) : SameWithin n p q := by
  have hnone : p.failure = none := by
    obtain ⟨_, _, _, rfl⟩ := eq_of_start hp
    rfl
  -- both runs go along with the run on the excerpt that they share
  have hshared (m : Nat) (hm : (p.after m).position ≤ n) : ∃ x : Parser Excerpt,
      (∀ k < m, (x.after k).answer = (p.after k).answer ∧ (x.after k).answer = (q.after k).answer) ∧
      Coupled (excerpted (ts.take n).length) (x.after m) (p.after m) ∧
      Coupled (excerpted (ts.take n).length) (x.after m) (q.after m) := by
    have hle (k : Nat) (hk : k ≤ m) : (p.after k).position ≤ (ts.take n).length := by
      have hmono := monotone_position hsource hp hk
      have hlength := position_le_length hsource hp k
      simp only at hmono
      rw [List.length_take]
      omega
    obtain ⟨history, hcalls, _⟩ := calls_after p m
    have hposition := (oneAhead_of_calls hsource hp hcalls).position_eq
    have hpos : 0 < (ts.take n).length := by
      have hlast := hle m (Nat.le_refl m)
      omega
    obtain ⟨t, tokens, htake⟩ := List.exists_cons_of_length_pos hpos
    have hfront : ts.take n <+: ts := List.take_prefix n ts
    rw [htake] at hfront hbegins hle ⊢
    have hxp := coupled_excerpt ⟨.invalidByte 0, t.location⟩ hsource hfront hp
    have hxq := coupled_excerpt ⟨.invalidByte 0, t.location⟩ hsource' hbegins hq
    have hparts := not_parts_of_position_le hxp hnone hle
    obtain ⟨hpanswers, hpcoupled⟩ := hxp.after m hparts
    obtain ⟨hqanswers, hqcoupled⟩ := hxq.after m hparts
    exact ⟨_, fun k hk => ⟨eq_of_answersAlike_exact (hpanswers k hk),
      eq_of_answersAlike_exact (hqanswers k hk)⟩, hpcoupled, hqcoupled⟩
  constructor
  · intro m hm
    obtain ⟨x, hanswers, _⟩ := hshared m hm
    exact answers_eq_of_forall fun k hk => (hanswers k hk).1.symm.trans (hanswers k hk).2
  · intro m hm
    obtain ⟨x, _, hpx, hqx⟩ := hshared m hm
    have hxp := hpx.sameState hpx.matched.taken_eq
    have hxq := hqx.sameState hqx.matched.taken_eq
    exact ⟨hxp.lookahead_eq.symm.trans hxq.lookahead_eq, hxp.consumed_eq.symm.trans hxq.consumed_eq,
      hxp.failure_eq.symm.trans hxq.failure_eq, hxp.position_eq.symm.trans hxq.position_eq⟩

/-- A parser is one token ahead of what it has consumed, whatever its source and whatever calls it
has answered. On a list no call goes behind the first end of input, all functions together take a
token each, and what `n` tokens do not tell apart no run does that pulls no more than those. -/
theorem one_token_ahead :
    (∀ (σ : Type) [TokenSource σ] (source : σ) maxDepth p, start maxDepth source = .ok p →
      ∀ history q, Calls p history q → Ahead source history q) ∧
    ∀ ts source, TokenList.ofList? ts = some source → ∀ maxDepth : Int, 0 < maxDepth →
      ∃ p, start maxDepth source = .ok p ∧
        (∀ history q, Calls p history q → OneAhead ts history q) ∧
        ∀ n us source', TokenList.ofList? us = some source' → ts.take n <+: us →
          ∃ q, start maxDepth source' = .ok q ∧ SameWithin n p q := by
  constructor
  · intro σ _ source maxDepth p hp history q hcalls
    exact (ahead_of_start hp).calls hcalls
  · intro ts source hsource maxDepth hdepth
    obtain ⟨p, hp, _⟩ := start_ahead hsource hdepth
    refine ⟨p, hp, fun history q hcalls => oneAhead_of_calls hsource hp hcalls, ?_⟩
    intro n us source' hsource' hprefix
    obtain ⟨q, hq, _⟩ := start_ahead hsource' hdepth
    exact ⟨q, hq, sameWithin_of_prefix hsource hsource' hprefix hp hq⟩

/-- Two lists with the same first two tokens, of which the first call pulls no more. -/
theorem one_token_ahead_numbers :
    let ts : List Token := [.bare (.number 1), .bare (.number 2), .bare .endOfInput]
    let us : List Token := [.bare (.number 1), .bare (.number 2), .bare .comma, .bare .endOfInput]
    ∃ source source' p q, TokenList.ofList? ts = some source ∧
      TokenList.ofList? us = some source' ∧ (0 : Int) < 3 ∧ ts.take 2 <+: us ∧
      start 3 source = .ok p ∧ start 3 source' = .ok q ∧
      (Calls p [] p ∧ Ahead source [] p ∧ OneAhead ts [] p) ∧
      (p.after 1).position ≤ 2 ∧ SameWithin 2 p q := by
  intro ts us
  obtain ⟨hsources, hlists⟩ := one_token_ahead
  obtain ⟨p, hp, hone, hwithin⟩ := hlists ts _ rfl 3 (by decide)
  have hprefix : ts.take 2 <+: us := ⟨us.drop 2, rfl⟩
  obtain ⟨q, hq, hsame⟩ := hwithin 2 us _ rfl hprefix
  have hposition : (p.after 1).position ≤ 2 := by
    cases hp
    decide
  exact ⟨_, _, p, q, rfl, rfl, by decide, hprefix, hp, hq,
    ⟨.none, hsources _ _ 3 p hp [] p .none, hone [] p .none⟩, hposition, hsame⟩

end Lists

end Parser
end ExprLang
