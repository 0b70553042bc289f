import ExprLang.Attempt
import ExprLang.Proofs.DepthLimit
import ExprLang.Proofs.Shortages

/-!
# Answers on a host

What may be relied on in the answers of a parser on a host, whatever source it reads. An attempt is
the request that knows no host, unless that falls short: of room on the stack for open expressions,
of digits for the text of an error, or of either for printing the function. Then the shortage is
raised, and it is no failure of the scanner or the grammar. Nothing is kept of it, so the parser
goes on in a state that is no worse. All other answers are errors with known codes, well-formed
functions and the end of input; and where the host has room for the numbers and limits in question,
there are no others.
-/
namespace ExprLang

theorem Scanner.proper_of_next {s s' : Scanner} {t : Token} (h : s.next = (.ok t, s')) :
    t.terminal.Proper s.numberBits := by
  have hresult : s.next.1 = .ok t := congrArg Prod.fst h
  rcases s.ends_or_segment with ⟨place, hend⟩ | ⟨place, segment, rest, hsegment⟩
  · obtain rfl := Except.ok.inj (hend.symm.trans hresult)
    trivial
  · rw [hresult] at hsegment
    exact hsegment.proper

namespace Reader

variable {bits : Nat} {r r' : Reader Scanner} {ts : List Token}

/-- Numbers are `bits` wide: that of the lookahead, and those that are still to be scanned. -/
structure Fit (bits : Nat) (r : Reader Scanner) : Prop where
  width : r.source.numberBits = bits
  proper : r.lookahead.terminal.Proper bits

theorem Fit.fresh (h : Fit bits r) : Fit bits r.fresh := ⟨h.width, h.proper⟩

theorem Fit.pull (h : Fit bits r) {s : Scanner} {event : Except ScanError Token}
    (hpull : TokenSource.pull r.source = (event, s)) :
    s.numberBits = bits ∧ ∀ t, event = .ok t → t.terminal.Proper bits := by
  have hnext : r.source.next = (event, s) := hpull
  have hwidth := Scanner.numberBits_next r.source
  rw [hnext] at hwidth
  refine ⟨hwidth.trans h.width, ?_⟩
  rintro t rfl
  exact h.width ▸ Scanner.proper_of_next hnext

theorem Fit.advance (h : Fit bits r) {t : Token} (hadvance : advance r = .ok t r') :
    Fit bits r' := by
  unfold Reader.advance at hadvance
  split at hadvance
  · simp only [EStateM.Result.ok.injEq] at hadvance
    obtain ⟨_, rfl⟩ := hadvance
    exact ⟨h.width, h.proper⟩
  · split at hadvance
    · next hpull =>
      simp only [EStateM.Result.ok.injEq] at hadvance
      obtain ⟨_, rfl⟩ := hadvance
      obtain ⟨hwidth, hproper⟩ := h.pull hpull
      exact ⟨hwidth, hproper _ rfl⟩
    · simp at hadvance

theorem Fit.consumes (h : Fit bits r) (hts : Consumes r ts r') :
    Fit bits r' ∧ ∀ t ∈ ts, t.terminal.Proper bits := by
  induction hts with
  | nil => exact ⟨h, by simp⟩
  | cons _ first _ ih =>
    obtain ⟨hfit, hts⟩ := ih (h.advance first)
    refine ⟨hfit, List.forall_mem_cons.2 ⟨?_, hts⟩⟩
    exact (advance_eq_ok first).1 ▸ h.proper

/-- It stays so, however a statement ends. -/
theorem Fit.statement (h : Fit bits r) (d : Nat) : Fit bits (Outcome.reader (statement d r)) := by
  cases hstatement : Reader.statement d r with
  | ok f r' =>
    cases f with
    | none => exact (statement_eq_none.1 hstatement).2 ▸ h
    | some f =>
      obtain ⟨ts, hts, _⟩ := readsStatement_statement hstatement
      exact (h.consumes hts).1
  | error e r' =>
    cases (fails_statement hstatement).2 with
    | blocked hts | tooDeep hts => exact (h.consumes hts).1
    | unscanned hts _ hpull =>
      obtain ⟨hfit, _⟩ := h.consumes hts
      exact ⟨(hfit.pull hpull).1, hfit.proper⟩

end Reader

theorem Failure.isTooDeep_iff {e : Failure} : e.isTooDeep = true ↔ e.IsTooDeep := by
  constructor
  · intro h
    cases e with
    | scan e => simp [isTooDeep] at h
    | grammar e =>
      obtain ⟨fault, token⟩ := e
      cases fault with
      | nestingTooDeep limit => exact ⟨_, rfl, rfl⟩
      | _ => simp [isTooDeep] at h
  · rintro ⟨⟨fault, token⟩, rfl, hcode⟩
    cases fault with
    | nestingTooDeep limit => rfl
    | _ => simp [SyntaxError.diagnostic, SyntaxFault.code] at hcode

theorem Host.depth_le (host : Host) (maxDepth : Nat) : host.depth maxDepth ≤ maxDepth := by
  unfold depth
  cases host.nesting with
  | none => exact Nat.le_refl _
  | some n => exact Nat.min_le_left _ _

theorem SyntaxFault.Mendable.numbers_ofFault {fault : SyntaxFault} (h : fault.Mendable)
    (t : Token) : ∀ n ∈ (SyntaxError.ofFault fault t).numbers, n ∈ t.numbers := by
  unfold SyntaxError.ofFault
  split
  · simp [SyntaxError.numbers]
  · cases fault with
    | unexpectedEnd | nestingTooDeep => cases h
    | _ => exact fun n hn => hn

theorem Node.fits_of_number? {bits : Nat} {n : Node} {value : Int} (h : n.Proper bits)
    (hvalue : n.number? = some value) : 0 ≤ value ∧ value ≤ 2 ^ bits - 1 := by
  unfold number? at hvalue
  split at hvalue
  · obtain rfl := Option.some.inj hvalue
    exact h
  · contradiction

/-- A function is delivered unless something is missing to print it. -/
theorem Host.deliver_cases (host : Host) (f : Option Function) :
    (∃ s, host.deliver f = .error (.shortage s) ∧ ∃ g, f = some g ∧
      host.Lacks 0 (.function g) s) ∨
    host.deliver f = .ok f ∧ ∀ g, f = some g → ∀ s, ¬ host.Lacks 0 (.function g) s := by
  cases f with
  | none => exact .inr ⟨rfl, by simp⟩
  | some f =>
    rw [deliver]
    cases hprint : host.print 0 (.function f) with
    | error s => exact .inl ⟨s, rfl, f, rfl, lacks_of_print hprint⟩
    | ok u =>
      refine .inr ⟨rfl, fun g hg => ?_⟩
      obtain rfl := Option.some.inj hg
      exact not_lacks_of_print hprint

theorem Host.refuse_cases {ε : Type} (host : Host) (numbers : List Int) (e : ε) :
    (host.refuse numbers e = .shortage .digits ∧ ∃ n ∈ numbers, host.writes n = false) ∨
    host.refuse numbers e = .failure e ∧ ∀ n ∈ numbers, host.writes n = true := by
  rw [refuse]
  cases hwrites : host.writesAll numbers with
  | error s =>
    obtain ⟨rfl, hlong⟩ := eq_digits_of_writesAll hwrites
    exact .inl ⟨rfl, hlong⟩
  | ok u => exact .inr ⟨rfl, writesAll_eq_ok.1 hwrites⟩

/-- With a lower limit a statement is read the same way unless it is nested too deep. -/
theorem Reader.statement_eq_or_tooDeep {σ : Type} [TokenSource σ] {d d' : Nat} (h : d ≤ d')
    (r : Reader σ) : statement d r = statement d' r ∨
      ∃ e r', statement d r = .error e r' ∧ e.IsTooDeep := by
  have hagree := (follows_statement_deeper h).agree (rfl : (deeper σ).matched r r)
  generalize statement d r = left at hagree ⊢
  generalize statement d' r = right at hagree ⊢
  cases hagree with
  | ok hmatched hab =>
    obtain rfl := hmatched
    refine .inl ?_
    cases hab with
    | none => rfl
    | some hfg => rw [Likeness.exact_upTo.1 hfg]
  | error hmatched he =>
    obtain rfl := hmatched
    exact .inl (by rw [Likeness.exact_sameFailure.1 he])
  | parted hparts _ => exact .inr ⟨_, _, rfl, hparts⟩

namespace Parser

open Reader

section Attempts

variable {σ : Type} [TokenSource σ] {p : Parser σ} {host : Host} {s : Shortage}

def on (host : Host) (p : Parser σ) : Parser σ := { p with maxDepth := host.depth p.maxDepth }

/-- How a request falls short on a host: in reading, where the stack ends first; in raising an
error; or in printing a function. -/
inductive FallsShort (host : Host) (p : Parser σ) : Shortage → Prop
  | reading {e : Failure} {q : Parser σ} (going : p.failure = none)
      (lower : host.depth p.maxDepth < p.maxDepth) (request : (p.on host).next = (.error e, q))
      (deep : e.IsTooDeep) : FallsShort host p .stack
  | raising {e : Failure} {q : Parser σ} {n : Int} (going : p.failure = none)
      (request : p.next = (.error e, q)) (shown : n ∈ e.numbers)
      (long : host.writes n = false) : FallsShort host p .digits
  | printing {f : Function} {q : Parser σ} {s : Shortage} (request : p.next = (.ok (some f), q))
      (lacks : host.Lacks 0 (.function f) s) : FallsShort host p s

section Outcomes

variable {f : Option Function} {e e' : Failure} {r : Reader σ} (hnone : p.failure = none)

include hnone

theorem attempt_of_ok (h : statement (host.depth p.maxDepth) p.reader.fresh = .ok f r) :
    p.attempt host = (host.deliver f, { p with reader := r }) := by
  unfold fresh at h
  simp only [attempt, hnone, h]

theorem attempt_of_failure
    (h : statement (host.depth p.maxDepth) p.reader.fresh = .error e r)
    (hrefuse : host.refuseFailure p.maxDepth e = .failure e') :
    p.attempt host = (.error (.failure e'), { p with reader := r, failure := some e' }) := by
  unfold fresh at h
  simp only [attempt, hnone, h, hrefuse]

theorem attempt_of_shortage
    (h : statement (host.depth p.maxDepth) p.reader.fresh = .error e r)
    (hrefuse : host.refuseFailure p.maxDepth e = .shortage s) :
    p.attempt host = (.error (.shortage s), { p with reader := r }) := by
  unfold fresh at h
  simp only [attempt, hnone, h, hrefuse]

end Outcomes

/-- An attempt falls short, or it is the request that knows no host. -/
inductive Attempted (host : Host) (p : Parser σ) : Prop
  | short (s : Shortage) (raised : (p.attempt host).1 = .error (.shortage s))
      (cause : p.FallsShort host s)
  | request (same : p.attempt host = (p.next.1.mapError .failure, p.next.2))
      (enough : ∀ s, ¬ p.FallsShort host s)

theorem attempted_of_failure {e : Failure} (h : p.failure = some e) : Attempted host p := by
  have hnext := next_of_failure h
  refine .request ?_ fun s hs => ?_
  · rw [hnext]
    simp only [attempt, h]
    rfl
  · cases hs with
    | reading going | raising going => simp [h] at going
    | printing request => simp [hnext] at request

/-- The stack ends before the limit of the parser, and before the statement does. -/
def StackEnds (host : Host) (p : Parser σ) : Prop :=
  host.depth p.maxDepth < p.maxDepth ∧ ∃ e r,
    statement (host.depth p.maxDepth) p.reader.fresh = .error e r ∧ e.IsTooDeep

/-- Where the stack does not end, reading is what it is without a host. -/
theorem statement_depth (h : ¬ p.StackEnds host) :
    statement (host.depth p.maxDepth) p.reader.fresh = statement p.maxDepth p.reader.fresh := by
  rcases Nat.lt_or_eq_of_le (host.depth_le p.maxDepth) with hlt | heq
  · rcases statement_eq_or_tooDeep (Nat.le_of_lt hlt) p.reader.fresh with hsame | hdeep
    · exact hsame
    · exact absurd ⟨hlt, hdeep⟩ h
  · rw [heq]

section Reading

variable {e : Failure} {q : Parser σ} {r : Reader σ} (hnone : p.failure = none)

include hnone

theorem stackEnds_of_next (hlower : host.depth p.maxDepth < p.maxDepth)
    (h : (p.on host).next = (.error e, q)) (he : e.IsTooDeep) : p.StackEnds host := by
  rcases next_eq_error.1 h with ⟨hsome, _⟩ | ⟨_, r, hstatement, _⟩
  · simp [on, hnone] at hsome
  · exact ⟨hlower, e, r, hstatement, he⟩

theorem attempted_of_stackEnds (h : p.StackEnds host) : Attempted host p := by
  obtain ⟨hlower, e, r, hstatement, he⟩ := h
  have hrefuse : host.refuseFailure p.maxDepth e = .shortage .stack :=
    if_pos ⟨Failure.isTooDeep_iff.2 he, hlower⟩
  refine .short .stack ?_ (.reading hnone hlower
    (next_eq_error.2 (.inr ⟨hnone, r, hstatement, rfl⟩)) he)
  rw [attempt_of_shortage hnone hstatement hrefuse]

theorem attempted_of_ok {f : Option Function} (hends : ¬ p.StackEnds host)
    (h : statement p.maxDepth p.reader.fresh = .ok f r) : Attempted host p := by
  have hnext : p.next = (.ok f, { p with reader := r }) := next_eq_ok.2 ⟨hnone, r, h, rfl⟩
  have hattempt := attempt_of_ok hnone ((statement_depth hends).trans h)
  rcases host.deliver_cases f with ⟨s, hdeliver, g, rfl, hlacks⟩ | ⟨hdeliver, hprinted⟩
  · exact .short s (by rw [hattempt, hdeliver]) (.printing hnext hlacks)
  · refine .request (by rw [hattempt, hnext, hdeliver]; rfl) fun s hs => ?_
    cases hs with
    | reading _ lower request deep => exact hends (stackEnds_of_next hnone lower request deep)
    | raising _ request => simp [hnext] at request
    | printing request lacks =>
      rw [hnext, Prod.mk.injEq, Except.ok.injEq] at request
      exact hprinted _ request.1 s lacks

theorem attempted_of_error (hends : ¬ p.StackEnds host)
    (h : statement p.maxDepth p.reader.fresh = .error e r) : Attempted host p := by
  have hnext : p.next = (.error e, { p with reader := r, failure := some e }) :=
    next_eq_error.2 (.inr ⟨hnone, r, h, rfl⟩)
  have hstatement := (statement_depth hends).trans h
  have hrefuse : host.refuseFailure p.maxDepth e = host.refuse e.numbers e :=
    if_neg fun hdeep => hends ⟨hdeep.2, e, r, hstatement, Failure.isTooDeep_iff.1 hdeep.1⟩
  rcases host.refuse_cases e.numbers e with ⟨hshort, n, hn, hlong⟩ | ⟨hfailure, hwrites⟩
  · refine .short .digits ?_ (.raising hnone hnext hn hlong)
    rw [attempt_of_shortage hnone hstatement (hrefuse.trans hshort)]
  · have hattempt := attempt_of_failure hnone hstatement (hrefuse.trans hfailure)
    refine .request (by rw [hattempt, hnext]; rfl) fun s hs => ?_
    cases hs with
    | reading _ lower request deep => exact hends (stackEnds_of_next hnone lower request deep)
    | raising _ request shown long =>
      rw [hnext, Prod.mk.injEq, Except.error.injEq] at request
      have hwritten := hwrites _ (request.1 ▸ shown)
      simp [long] at hwritten
    | printing request => simp [hnext] at request

end Reading

theorem attempted (host : Host) (p : Parser σ) : Attempted host p := by
  cases hnone : p.failure with
  | some e => exact attempted_of_failure hnone
  | none =>
    by_cases hends : p.StackEnds host
    · exact attempted_of_stackEnds hnone hends
    · cases h : statement p.maxDepth p.reader.fresh with
      | ok f r => exact attempted_of_ok hnone hends h
      | error e r => exact attempted_of_error hnone hends h

/-- An attempt raises a shortage exactly if it falls short. -/
theorem fallsShort_iff : (∃ s, (p.attempt host).1 = .error (.shortage s)) ↔
    ∃ s, p.FallsShort host s := by
  cases attempted host p with
  | short s hraised hshort => exact ⟨fun _ => ⟨s, hshort⟩, fun _ => ⟨s, hraised⟩⟩
  | request hsame hnot =>
    refine ⟨fun ⟨s, hs⟩ => ?_, fun ⟨s, hs⟩ => absurd hs (hnot s)⟩
    rw [hsame] at hs
    rcases hnext : p.next.1 with e | f <;> simp [hnext, Except.mapError] at hs

/-- A host without bounds is none. -/
theorem attempt_unbounded (p : Parser σ) :
    p.attempt .unbounded = (p.next.1.mapError .failure, p.next.2) := by
  cases attempted .unbounded p with
  | request hsame => exact hsame
  | short s _ hshort =>
    cases hshort with
    | reading _ lower => exact absurd lower (Nat.lt_irrefl _)
    | raising _ _ _ long => cases long
    | printing _ lacks =>
      cases s with
      | stack =>
        obtain ⟨_, _, hdeep⟩ := lacks
        cases hdeep
      | digits =>
        obtain ⟨_, _, _, _, hlong⟩ := lacks
        cases hlong

theorem attemptUpTo_unbounded (n : Nat) (p : Parser σ) :
    p.attemptUpTo .unbounded n =
      ((p.take n).1, (p.take n).2.1.map .failure, (p.take n).2.2) := by
  induction n generalizing p with
  | zero => rfl
  | succ n ih =>
    simp only [attemptUpTo, attempt_unbounded, take]
    rcases p.next with ⟨e | _ | f, q⟩
    · rfl
    · rfl
    · simp only [Except.mapError, ih]

theorem attemptAll_unbounded (p : Parser σ) :
    p.attemptAll .unbounded = (p.all.1.mapError .failure, p.all.2) := by
  simp only [attemptAll, attemptUpTo_unbounded, all]
  rcases p.take (p.reader.remaining + 1) with ⟨items, _ | e, q⟩ <;> rfl

def afterAttempts (host : Host) (p : Parser σ) : Nat → Parser σ
  | 0 => p
  | n + 1 => ((p.afterAttempts host n).attempt host).2

theorem attempt_snd (host : Host) (p : Parser σ) :
    (p.attempt host).2.maxDepth = p.maxDepth ∧ ((p.attempt host).2.reader = p.reader ∨
      (p.attempt host).2.reader =
        Outcome.reader (statement (host.depth p.maxDepth) p.reader.fresh)) := by
  cases hnone : p.failure with
  | some e => simp [attempt, hnone]
  | none =>
    cases hstatement : statement (host.depth p.maxDepth) p.reader.fresh with
    | ok f r =>
      rw [attempt_of_ok hnone hstatement]
      exact ⟨rfl, .inr rfl⟩
    | error e r =>
      cases hrefuse : host.refuseFailure p.maxDepth e with
      | failure e' =>
        rw [attempt_of_failure hnone hstatement hrefuse]
        exact ⟨rfl, .inr rfl⟩
      | shortage s =>
        rw [attempt_of_shortage hnone hstatement hrefuse]
        exact ⟨rfl, .inr rfl⟩

theorem maxDepth_afterAttempts (host : Host) (p : Parser σ) (n : Nat) :
    (p.afterAttempts host n).maxDepth = p.maxDepth := by
  induction n with
  | zero => rfl
  | succ n ih => exact (attempt_snd host _).1.trans ih

end Attempts

section Scanning

variable {bits : Nat} {host : Host} {p : Parser Scanner}

theorem fit_attempt (host : Host) (h : Fit bits p.reader) : Fit bits (p.attempt host).2.reader := by
  rcases (attempt_snd host p).2 with hreader | hreader
  · exact hreader ▸ h
  · exact hreader ▸ h.fresh.statement _

theorem fit_afterAttempts (host : Host) (h : Fit bits p.reader) (n : Nat) :
    Fit bits (p.afterAttempts host n).reader := by
  induction n with
  | zero => exact h
  | succ n ih => exact fit_attempt host ih

inductive WellAnswered (host : Host) (bits : Nat) (p : Parser Scanner) :
    Except (Refusal Failure) (Option Function) → Prop
  | scan (e : ScanError) (listed : ScanFault.codes.Lists e.diagnostic.code) :
      WellAnswered host bits p (.error (.failure (.scan e)))
  | grammar (e : SyntaxError) (listed : SyntaxFault.codes.Lists e.diagnostic.code) :
      WellAnswered host bits p (.error (.failure (.grammar e)))
  | none : WellAnswered host bits p (.ok none)
  | some (f : Function)
      (wellFormed : f.WellFormed bits p.maxDepth p.reader.lookahead.terminal) :
      WellAnswered host bits p (.ok (some f))
  | shortage (s : Shortage) (short : p.FallsShort host s) :
      WellAnswered host bits p (.error (.shortage s))

theorem wellFormed_of_fit {f : Function} {q : Parser Scanner} (h : Fit bits p.reader)
    (hpos : 0 < p.maxDepth) (hnext : p.next = (.ok (some f), q)) :
    f.WellFormed bits p.maxDepth p.reader.lookahead.terminal :=
  wellFormed_of_next hnext hpos (h.fresh.consumes (next_some hnext).2.2.2.1).2

theorem wellAnswered_attempt (h : Fit bits p.reader) (hpos : 0 < p.maxDepth) :
    WellAnswered host bits p (p.attempt host).1 := by
  cases attempted host p with
  | short s hraised hshort =>
    rw [hraised]
    exact .shortage s hshort
  | request hsame =>
    rw [hsame]
    rcases hnext : p.next with ⟨(e | e) | _ | f, q⟩
    · exact .scan e e.listed
    · exact .grammar e e.listed
    · exact .none
    · exact .some f (wellFormed_of_fit h hpos hnext)

theorem writes_of_fits {value : Int} (h : host.writes ((2 ^ bits - 1 : Nat) : Int) = true)
    (hvalue : 0 ≤ value ∧ value ≤ 2 ^ bits - 1) : host.writes value = true := by
  have hcast : ((2 ^ bits : Nat) : Int) = 2 ^ bits := Int.natCast_pow 2 bits
  exact Host.writes_of_le (by omega) h

/-- Where nothing falls short: the host writes the largest number and the limit of nesting, and its
stack ends nowhere or, for open expressions, not before the limit. -/
structure HasRoom (host : Host) (bits maxDepth : Nat) : Prop where
  number : host.writes ((2 ^ bits - 1 : Nat) : Int) = true
  limit : host.writes maxDepth = true
  levels : host.levels = none
  nesting : host.depth maxDepth = maxDepth

theorem writes_of_proper {t : Token} (h : host.writes ((2 ^ bits - 1 : Nat) : Int) = true)
    (ht : t.terminal.Proper bits) : ∀ n ∈ t.numbers, host.writes n = true := by
  intro n hn
  unfold Token.numbers at hn
  split at hn
  · next value hvalue =>
    obtain rfl := List.mem_singleton.1 hn
    rw [hvalue] at ht
    exact writes_of_fits h ht
  · simp at hn

theorem writes_of_scanned {s s' : Scanner} {e : ScanError} (hnext : s.next = (.error e, s'))
    (h : host.writes ((2 ^ s.numberBits - 1 : Nat) : Int) = true) :
    ∀ n ∈ e.fault.numbers, host.writes n = true := by
  obtain ⟨fault, place⟩ := e
  rcases Scanner.fault_of_next (congrArg Prod.fst hnext) with ⟨byte, rfl⟩ | ⟨digits, rfl⟩
  · exact ScanFault.writes_invalidByte host byte
  · exact ScanFault.writes_numberOverflow h

/-- The numbers that a failure shows are the limit of nesting and numbers that fit the width. -/
theorem writes_of_statement {d : Nat} {r r' : Reader Scanner} {e : Failure} (hfit : Fit bits r)
    (h : statement d r = .error e r') (hnumber : host.writes ((2 ^ bits - 1 : Nat) : Int) = true)
    (hlimit : host.writes d = true) : ∀ n ∈ e.numbers, host.writes n = true := by
  cases (fails_statement h).2 with
  | blocked hts _ _ mendable =>
    have hahead := writes_of_proper hnumber (hfit.consumes hts).1.proper
    exact fun n hn => hahead n (mendable.numbers_ofFault _ n hn)
  | tooDeep hts =>
    have hahead := writes_of_proper hnumber (hfit.consumes hts).1.proper
    rw [SyntaxError.ofFault_nestingTooDeep]
    exact List.forall_mem_cons.2 ⟨hlimit, hahead⟩
  | unscanned hts _ hpull =>
    have hwidth := (hfit.consumes hts).1.width
    exact writes_of_scanned hpull (hwidth ▸ hnumber)

theorem not_fallsShort (hroom : HasRoom host bits p.maxDepth) (hfit : Fit bits p.reader)
    (hpos : 0 < p.maxDepth) (s : Shortage) : ¬ p.FallsShort host s := by
  intro hshort
  cases hshort with
  | reading _ lower =>
    have hdepth := hroom.nesting
    omega
  | raising going request shown long =>
    rcases next_eq_error.1 request with ⟨hsome, _⟩ | ⟨_, r, hstatement, _⟩
    · simp [going] at hsome
    · have hwritten :=
        writes_of_statement hfit.fresh hstatement hroom.number hroom.limit _ shown
      simp [long] at hwritten
  | printing request lacks =>
    cases s with
    | stack =>
      obtain ⟨ns, _, hlong⟩ := lacks
      simp [hroom.levels] at hlong
    | digits =>
      obtain ⟨m, hm, value, hvalue, hlong⟩ := lacks
      have hproper := (wellFormed_of_fit hfit hpos request).proper m hm
      have hwritten := writes_of_fits hroom.number (Node.fits_of_number? hproper hvalue)
      simp [hlong] at hwritten

theorem startOn_eq (host : Host) (source : Scanner) {maxDepth : Int} (hdepth : 0 < maxDepth) :
    startOn host maxDepth source = match source.next with
      | (.ok t, s) => .ok ⟨maxDepth.toNat, ⟨s, t, []⟩, none⟩
      | (.error e, _) => .error (host.refuse e.fault.numbers (.scan e)) := by
  rw [startOn, start_eq hdepth]
  simp only [TokenSource.pull]
  rcases source.next with ⟨e | t, s⟩ <;> rfl

theorem fit_start {source s : Scanner} {t : Token} (h : source.next = (.ok t, s)) :
    Fit source.numberBits ⟨s, t, []⟩ where
  width := (congrArg (fun result => result.2.numberBits) h).symm.trans
    (Scanner.numberBits_next source)
  proper := Scanner.proper_of_next h

end Scanning

/-- Whatever the source, an attempt of a parser raises an error with a known code, comes to the end
of input or delivers a well-formed function, unless it falls short on its host; and where the host
has room it never does. -/
theorem answers_well_formed (host : Host) (file : String) (bits maxDepth : Int)
    (bytes : List UInt8) (hbits : 0 < bits) (hdepth : 0 < maxDepth) :
    ∃ s, Scanner.start file bits bytes = .ok s ∧
      ((∃ e, startOn host maxDepth s = .error (.failure (.scan e)) ∧
          ScanFault.codes.Lists e.diagnostic.code) ∨
        (startOn host maxDepth s = .error (.shortage .digits) ∧
          host.writes ((2 ^ bits.toNat - 1 : Nat) : Int) = false) ∨
        ∃ p, startOn host maxDepth s = .ok p ∧ ∀ n,
          WellAnswered host bits.toNat (p.afterAttempts host n)
            ((p.afterAttempts host n).attempt host).1 ∧
          ((∃ short, ((p.afterAttempts host n).attempt host).1 = .error (.shortage short)) ↔
            ∃ short, (p.afterAttempts host n).FallsShort host short) ∧
          (HasRoom host bits.toNat maxDepth.toNat →
            ∀ short, ¬ (p.afterAttempts host n).FallsShort host short)) := by
  refine ⟨_, Scanner.start_eq_ofBytes hbits file bytes, ?_⟩
  rw [startOn_eq host _ hdepth]
  rcases hnext : (Scanner.ofBytes file bits.toNat bytes).next with ⟨e | t, s⟩
  · rcases host.refuse_cases e.fault.numbers (StartError.scan e) with
      ⟨hshort, n, hn, hlong⟩ | ⟨hfailure, _⟩
    · refine .inr (.inl ⟨congrArg _ hshort, Bool.eq_false_iff.2 fun hlimit => ?_⟩)
      have hwritten := writes_of_scanned hnext hlimit n hn
      simp [hlong] at hwritten
    · exact .inl ⟨e, congrArg _ hfailure, e.listed⟩
  · refine .inr (.inr ⟨_, rfl, fun n => ?_⟩)
    have hfit := fit_afterAttempts (p := ⟨maxDepth.toNat, ⟨s, t, []⟩, none⟩) host
      (fit_start hnext) n
    have hmax := maxDepth_afterAttempts host
      (⟨maxDepth.toNat, ⟨s, t, []⟩, none⟩ : Parser Scanner) n
    have hpos : 0 < (⟨maxDepth.toNat, ⟨s, t, []⟩, none⟩ : Parser Scanner).maxDepth :=
      Int.lt_toNat.2 hdepth
    rw [← hmax] at hpos
    exact ⟨wellAnswered_attempt hfit hpos, fallsShort_iff,
      fun hroom => not_fallsShort (hmax ▸ hroom) hfit hpos⟩

/-- A call, a limit that just allows its argument, and a host with room for both. -/
theorem answers_well_formed_call :
    let host := Host.writing 4300 (by decide)
    (0 : Int) < 64 ∧ (0 : Int) < 2 ∧ HasRoom host 64 2 ∧
      ∃ s, Scanner.start "f" 64 [0x66, 0x28, 0x31, 0x29] = .ok s ∧
        ∃ p f q, startOn host 2 s = .ok p ∧ p.attempt host = (.ok (some f), q) ∧
          f.WellFormed 64 2 (.identifier "f") := by
  intro host
  have hroom : HasRoom host 64 2 :=
    ⟨Host.writes_of_digits (d := 20) (by decide) (by decide),
      Host.writes_of_digits (d := 1) (by decide) (by decide), rfl, rfl⟩
  refine ⟨by decide, by decide, hroom, ?_⟩
  obtain ⟨s, hs, ⟨e, he, _⟩ | ⟨hshort, _⟩ | ⟨p, hp, hanswers⟩⟩ :=
    answers_well_formed host "f" 64 2 [0x66, 0x28, 0x31, 0x29] (by decide) (by decide)
  · cases hs
    cases he
  · cases hs
    cases hshort
  · refine ⟨s, hs, p, ?_⟩
    have hanswered : WellAnswered host 64 p (p.attempt host).1 := (hanswers 0).1
    have hnever : ∀ short, ¬ p.FallsShort host short := (hanswers 0).2.2 hroom
    cases attempted host p with
    | short s _ hshort => exact absurd hshort (hnever s)
    | request hsame =>
      rw [hsame] at hanswered
      cases hs
      cases hp
      cases hanswered with
      | some _ h => exact ⟨_, _, rfl, hsame, h⟩

/-- A single number in front of the end of input is read as a function. -/
theorem statement_of_number {σ : Type} [TokenSource σ] {maxDepth : Nat} {r : Reader σ}
    {value : Int} {t : Token} {source : σ} (hpos : 0 < maxDepth)
    (hnumber : r.lookahead.terminal = .number value)
    (hpull : TokenSource.pull r.source = (.ok t, source)) (hend : t.isEnd = true) :
    ∃ span r', statement maxDepth r = .ok (some (.anonymous (.number value span) span)) r' := by
  have hahead : r.lookahead.isEnd = false := by simp [Token.isEnd, hnumber]
  have hadvance : Reader.advance r = .ok r.lookahead ⟨source, t, r.lookahead :: r.consumed⟩ := by
    simp [Reader.advance, hahead, hpull]
  have hderives := DerivesStatement.anonymous
    (.expression (.lastOperand (.number hnumber)) (.operand _))
  exact ⟨_, _, statement_of_derives hderives hpos (.one hahead hadvance)
    fun _ => endsBefore_of_isEnd hend _⟩

theorem deliver_of_number {host : Host} {value : Int} {span : Option Span}
    (hlevels : host.levels = none) (hlong : host.writes value = false) :
    host.deliver (some (.anonymous (.number value span) span)) = .error (.shortage .digits) := by
  rcases host.deliver_cases (some (.anonymous (.number value span) span)) with
    ⟨s, hdeliver, f, _, hs⟩ | ⟨_, hnot⟩
  · cases s with
    | digits => exact hdeliver
    | stack =>
      obtain ⟨ns, _, hdeep⟩ := hs
      simp [hlevels] at hdeep
  · have hwalk : Node.expr (.number value span) ∈
        (Node.function (.anonymous (.number value span) span)).walk := by
      simp [Node.walk, Expr.walk]
    exact absurd ⟨_, hwalk, value, rfl, hlong⟩ (hnot _ rfl .digits)

/-- A number of more digits than the host writes is read, but not delivered. -/
theorem attempt_of_number {σ : Type} [TokenSource σ] {p : Parser σ} {value : Int} {t : Token}
    {source : σ} (host : Host) (hnone : p.failure = none) (hpos : 0 < p.maxDepth)
    (hnumber : p.reader.lookahead.terminal = .number value)
    (hpull : TokenSource.pull p.reader.source = (.ok t, source)) (hend : t.isEnd = true)
    (hdepth : host.depth p.maxDepth = p.maxDepth) (hlevels : host.levels = none)
    (hlong : host.writes value = false) :
    ∃ q span, p.next = (.ok (some (.anonymous (.number value span) span)), q) ∧
      p.attempt host = (.error (.shortage .digits), q) := by
  obtain ⟨span, r, hstatement⟩ :=
    statement_of_number (r := p.reader.fresh) hpos hnumber hpull hend
  refine ⟨{ p with reader := r }, span, next_eq_ok.2 ⟨hnone, r, hstatement, rfl⟩, ?_⟩
  rw [attempt_of_ok hnone (hdepth ▸ hstatement), deliver_of_number hlevels hlong]

theorem start_of_nines {n bits : Nat} (host : Host) (file : String) (hn : 0 < n)
    (hfits : 10 ^ n - 1 ≤ 2 ^ bits - 1) :
    ∃ p, startOn host 100 (Scanner.ofBytes file bits (List.replicate n 0x39)) = .ok p ∧
      p.failure = none ∧ p.maxDepth = 100 ∧
      p.reader.lookahead.terminal = .number (10 ^ n - 1 : Nat) ∧
      ∃ t s, TokenSource.pull p.reader.source = (.ok t, s) ∧ t.isEnd = true := by
  have hscanned :=
    Scanner.next_of_nines (s := .ofBytes file bits (List.replicate n 0x39)) rfl rfl hn
  rw [if_pos (by exact hfits)] at hscanned
  have hstart := startOn_eq host (.ofBytes file bits (List.replicate n 0x39))
    (by decide : (0 : Int) < 100)
  rw [hscanned] at hstart
  exact ⟨_, hstart, rfl, rfl, rfl, _, _, rfl, rfl⟩

theorem attempt_of_nines {n bits most : Nat} {h : 640 ≤ most} (file : String) (hlong : most < n)
    (hfits : 10 ^ n - 1 ≤ 2 ^ bits - 1) :
    let host := Host.writing most h
    ∃ p q span, startOn host 100 (Scanner.ofBytes file bits (List.replicate n 0x39)) = .ok p ∧
      p.next = (.ok (some (.anonymous (.number (10 ^ n - 1 : Nat) span) span)), q) ∧
      p.attempt host = (.error (.shortage .digits), q) := by
  intro host
  have hrefuses : host.writes (10 ^ n - 1 : Nat) = false := by
    refine Bool.eq_false_iff.2 fun hwrites => ?_
    have hlt : 10 ^ n - 1 < 10 ^ most := Host.writes_writing.1 hwrites
    have hle : 10 ^ most < 10 ^ n := Nat.pow_lt_pow_right (by decide) hlong
    omega
  obtain ⟨p, hstart, hnone, hmax, hnumber, t, s, hpull, hend⟩ :=
    start_of_nines host file (Nat.zero_lt_of_lt hlong) hfits
  obtain ⟨q, span, hnext, hattempt⟩ :=
    attempt_of_number host hnone (hmax ▸ by decide) hnumber hpull hend rfl rfl hrefuses
  exact ⟨p, q, span, hstart, hnext, hattempt⟩

/-- Where numbers of up to 4300 digits are written, 4301 nines are read as a function, and the
attempt to deliver it ends neither in that function nor in a failure of the scanner or the
grammar. -/
theorem long_number_is_refused :
    let host := Host.writing 4300 (by decide)
    let source := Scanner.ofBytes "<input>" 14288 (List.replicate 4301 0x39)
    ∃ p q span, startOn host 100 source = .ok p ∧
      p.next = (.ok (some (.anonymous (.number (10 ^ 4301 - 1 : Nat) span) span)), q) ∧
      p.attempt host = (.error (.shortage .digits), q) :=
  attempt_of_nines "<input>" (by decide) (by decide +kernel)

end Parser
end ExprLang
