import ExprLang.Proofs.Answers

/-!
# Mixed requests

A parser that is asked for the next function, for all that remain and for the items of several
iterations, in any order. All of these requests call `next` on the same parser, so their calls get
the answers of one run in order. A failure and the end of input are final for all of them.
-/
namespace ExprLang.Parser

variable {σ : Type} [TokenSource σ]

inductive Request
  | next
  | all
  | item (iteration : Nat)
  deriving DecidableEq, Repr

/-- What a request returns. An iteration that is over has no item to return. -/
inductive Reply
  | next (result : Except Failure (Option Function))
  | all (result : Except Failure (List Function))
  | item (result : Except Failure (Option (Function × String)))

def Reply.failure? : Reply → Option Failure
  | .next (.error e) | .all (.error e) | .item (.error e) => some e
  | _ => none

def Reply.functions : Reply → List Function
  | .next (.ok f) => f.toList
  | .all (.ok fs) => fs
  | .item (.ok pair) => (pair.map Prod.fst).toList
  | _ => []

/-- A parser with the iterations over it that have come to an end or to a failure. -/
structure Shared (σ : Type) where
  parser : Parser σ
  closed : List Nat

namespace Shared

/-- The reply to a request, with the parser behind it. An iteration that is over does not ask the
parser again. -/
def request (s : Shared σ) : Request → Reply × Shared σ
  | .next => (.next s.parser.next.1, { s with parser := s.parser.next.2 })
  | .all => (.all s.parser.all.1, { s with parser := s.parser.all.2 })
  | .item i =>
      if i ∈ s.closed then (.item (.ok none), s)
      else
        match s.parser.take 1 with
        | (_, some e, p) => (.item (.error e), ⟨p, i :: s.closed⟩)
        | ([], none, p) => (.item (.ok none), ⟨p, i :: s.closed⟩)
        | (item :: _, none, p) => (.item (.ok (some item)), ⟨p, s.closed⟩)

end Shared

/-- What the calls of an iteration answer that ends after `n` items at the latest. -/
def trace : Nat → Parser σ → List Answer
  | 0, _ => []
  | n + 1, p =>
      p.answer ::
        match p.next with
        | (.ok (some _), p') => trace n p'
        | _ => []

namespace Shared

def calls (s : Shared σ) : Request → List Answer
  | .next => [s.parser.answer]
  | .all => s.parser.trace (s.parser.reader.remaining + 1)
  | .item i => if i ∈ s.closed then [] else s.parser.trace 1

def behind (s : Shared σ) (requests : List Request) : Shared σ :=
  requests.foldl (fun s r => (s.request r).2) s

def log (s : Shared σ) : List Request → List Answer
  | [] => []
  | r :: requests => s.calls r ++ (s.request r).2.log requests

end Shared

def Answer.ofItem (item : Function × String) : Answer := ⟨.ok (some item.1), item.2⟩

def Answer.item (a : Answer) : Except Failure (Option (Function × String)) :=
  a.result.map fun f => f.map fun f => (f, a.text)

def Answer.function? (a : Answer) : Option Function :=
  match a.result with
  | .ok f => f
  | .error _ => none

/-- `Told closed request calls reply`: the reply to a request says what its calls have answered. All
functions are asked for until a call delivers none, and a failure discards the functions before
it. -/
inductive Told (closed : List Nat) : Request → List Answer → Reply → Prop
  | next (a : Answer) : Told closed .next [a] (.next a.result)
  | all (items : List (Function × String)) (text : String) :
      Told closed .all (items.map Answer.ofItem ++ [⟨.ok none, text⟩])
        (.all (.ok (items.map Prod.fst)))
  | allFailed (items : List (Function × String)) (e : Failure) (text : String) :
      Told closed .all (items.map Answer.ofItem ++ [⟨.error e, text⟩]) (.all (.error e))
  | item {i : Nat} (going : i ∉ closed) (a : Answer) : Told closed (.item i) [a] (.item a.item)
  | closed {i : Nat} (ended : i ∈ closed) : Told closed (.item i) [] (.item (.ok none))

namespace Told

variable {closed : List Nat} {request : Request} {answers : List Answer} {reply : Reply}

/-- Every function that a call delivers is passed on, except those before a failure of a request
for all of them. -/
theorem functions_eq (h : Told closed request answers reply) :
    reply.functions = answers.filterMap Answer.function? ∨ ∃ e, reply = .all (.error e) := by
  cases h with
  | next a =>
    left
    rcases a with ⟨e | f, text⟩
    · rfl
    · cases f <;> rfl
  | all items text =>
    left
    have hitem : Answer.function? ∘ Answer.ofItem = some ∘ Prod.fst := rfl
    have hmap : items.filterMap (some ∘ Prod.fst) = items.map Prod.fst := by
      rw [List.filterMap_eq_map]
    simp [Reply.functions, List.filterMap_append, List.filterMap_map, hitem, hmap,
      Answer.function?]
  | allFailed items e text => exact .inr ⟨e, rfl⟩
  | item going a =>
    left
    rcases a with ⟨e | f, text⟩
    · rfl
    · cases f <;> rfl
  | closed ended => exact .inl rfl

/-- A request whose calls all fail in the same way raises that failure. -/
theorem failure?_eq {e : Failure} (h : Told closed request answers reply) (hne : answers ≠ [])
    (hfailed : ∀ a ∈ answers, a.result = .error e) : reply.failure? = some e := by
  cases h with
  | next a =>
    have ha := hfailed a (by simp)
    simp [Reply.failure?, ha]
  | all items text => simpa using hfailed ⟨.ok none, text⟩ (by simp)
  | allFailed items e' text => simpa [Reply.failure?] using hfailed ⟨.error e', text⟩ (by simp)
  | item going a =>
    have ha := hfailed a (by simp)
    simp [Reply.failure?, Answer.item, ha, Except.map]
  | closed => contradiction

end Told

theorem take_one (p : Parser σ) : p.take 1 =
    match p.next with
    | (.error e, p') => ([], some e, p')
    | (.ok none, p') => ([], none, p')
    | (.ok (some f), p') => ([(f, p'.consumedText)], none, p') := by
  rcases hnext : p.next with ⟨e | _ | f, p'⟩ <;> simp [take, hnext]

theorem trace_one (p : Parser σ) : p.trace 1 = [p.answer] := by
  rcases hnext : p.next with ⟨e | _ | f, p'⟩ <;> simp [trace, hnext]

/-- The calls of an iteration are those of the parser, and they lead to where it ends. -/
theorem trace_eq (p : Parser σ) (n : Nat) :
    p.trace n = p.answers (p.trace n).length ∧ (p.take n).2.2 = p.after (p.trace n).length := by
  induction n generalizing p with
  | zero => exact ⟨rfl, rfl⟩
  | succ n ih =>
    rcases hnext : p.next with ⟨e | _ | f, p'⟩
    · simp [trace, take, hnext, answers, after]
    · simp [trace, take, hnext, answers, after]
    · obtain ⟨htrace, htake⟩ := ih p'
      simp only [trace, take, hnext, List.length_cons, answers_succ, after_succ]
      exact ⟨congrArg (p.answer :: ·) htrace, htake⟩

/-- With enough rounds an iteration ends at a call that delivers no function. -/
theorem exists_trace_eq {p : Parser σ} {n : Nat} (h : p.reader.remaining < n) :
    ∃ text, p.trace n = (p.take n).1.map Answer.ofItem ++
      [⟨(p.take n).2.1.elim (.ok none) .error, text⟩] := by
  induction n generalizing p with
  | zero => omega
  | succ n ih =>
    rcases hnext : p.next with ⟨e | _ | f, p'⟩
    · exact ⟨p'.consumedText, by simp [trace, take, hnext, answer]⟩
    · exact ⟨p'.consumedText, by simp [trace, take, hnext, answer]⟩
    · have hlt := remaining_next hnext
      obtain ⟨text, htrace⟩ := ih (p := p') (by omega)
      exact ⟨text, by simp [trace, take, hnext, answer, Answer.ofItem, htrace]⟩

namespace Shared

theorem told_request (s : Shared σ) (r : Request) :
    Told s.closed r (s.calls r) (s.request r).1 := by
  cases r with
  | next => exact .next s.parser.answer
  | all =>
    obtain ⟨text, htrace⟩ := exists_trace_eq (Nat.lt_succ_self s.parser.reader.remaining)
    simp only [request, calls, htrace, Parser.all]
    rcases s.parser.take (s.parser.reader.remaining + 1) with ⟨items, failure, p⟩
    cases failure with
    | none => exact .all items text
    | some e => exact .allFailed items e text
  | item i =>
    by_cases hclosed : i ∈ s.closed
    · simp only [request, calls, hclosed, if_true]
      exact .closed hclosed
    · have htold : Told s.closed (.item i) [s.parser.answer] (.item s.parser.answer.item) :=
        .item hclosed s.parser.answer
      simp only [request, calls, hclosed, if_false, take_one, trace_one]
      rcases hnext : s.parser.next with ⟨e | _ | f, p⟩ <;>
        simpa [Answer.item, answer, hnext, Except.map] using htold

/-- A request makes its calls one after another and leaves the parser behind the last of them. -/
theorem calls_eq (s : Shared σ) (r : Request) :
    s.calls r = s.parser.answers (s.calls r).length ∧
      (s.request r).2.parser = s.parser.after (s.calls r).length := by
  cases r with
  | next => exact ⟨rfl, rfl⟩
  | all =>
    obtain ⟨htrace, htake⟩ := trace_eq s.parser (s.parser.reader.remaining + 1)
    refine ⟨htrace, ?_⟩
    rw [calls, ← htake, request, Parser.all]
    rcases s.parser.take (s.parser.reader.remaining + 1) with ⟨items, failure, p⟩
    cases failure <;> rfl
  | item i =>
    by_cases hclosed : i ∈ s.closed
    · simp only [request, calls, hclosed, if_true]
      exact ⟨rfl, rfl⟩
    · simp only [request, calls, hclosed, if_false, take_one, trace_one]
      refine ⟨rfl, ?_⟩
      rcases hnext : s.parser.next with ⟨e | _ | f, p⟩ <;> simp [after, hnext]

/-- All requests together make the calls of one run. -/
theorem log_eq (s : Shared σ) (requests : List Request) :
    s.log requests = s.parser.answers (s.log requests).length ∧
      (s.behind requests).parser = s.parser.after (s.log requests).length := by
  induction requests generalizing s with
  | nil => exact ⟨rfl, rfl⟩
  | cons r requests ih =>
    obtain ⟨hcalls, hbehind⟩ := s.calls_eq r
    obtain ⟨hlog, hlast⟩ := ih (s.request r).2
    rw [hbehind] at hlog hlast
    simp only [log, List.length_append, answers_add, after_add]
    exact ⟨by rw [← hcalls, ← hlog], hlast⟩

end Shared

theorem failure_of_answered {p : Parser σ} {n : Nat} {a : Answer} {e : Failure}
    (ha : a ∈ p.answers n) (he : a.result = .error e) : (p.after n).failure = some e := by
  induction n with
  | zero => simp [answers] at ha
  | succ n ih =>
    rw [answers, List.mem_append, List.mem_singleton] at ha
    rcases ha with hbefore | rfl
    · have hfailure := ih hbefore
      rw [after, next_of_failure hfailure]
      exact hfailure
    · exact failure_of_next (p := p.after n) (Prod.ext he rfl)

structure AtRest (p : Parser σ) : Prop where
  failure_eq : p.failure = none
  exhausted : p.isExhausted = true
  consumed_eq : p.reader.consumed = []

theorem next_eq_none_iff {p : Parser σ} :
    p.next.1 = .ok none ↔ p.failure = none ∧ p.isExhausted = true := by
  constructor
  · intro h
    obtain ⟨hfailure, hend, _⟩ := next_none (p := p) (Prod.ext h rfl)
    exact ⟨hfailure, hend⟩
  · intro h
    have hstatement : Reader.statement p.maxDepth p.reader.fresh = .ok none p.reader.fresh :=
      Reader.statement_eq_none.2 ⟨h.2, rfl⟩
    exact congrArg Prod.fst (next_eq_ok.2 ⟨h.1, _, hstatement, rfl⟩)

theorem AtRest.next_eq {p : Parser σ} (h : AtRest p) : p.next = (.ok none, p) := by
  have hresult := next_eq_none_iff.2 ⟨h.failure_eq, h.exhausted⟩
  obtain ⟨_, _, _, hnext⟩ := next_none (p := p) (Prod.ext hresult rfl)
  have hfresh : p.reader.fresh = p.reader := by
    rw [Reader.fresh, ← h.consumed_eq]
  rw [hfresh] at hnext
  exact Prod.ext hresult hnext

theorem atRest_of_answered {p : Parser σ} {n : Nat} {a : Answer} (ha : a ∈ p.answers n)
    (hnone : a.result = .ok none) : AtRest (p.after n) := by
  induction n with
  | zero => simp [answers] at ha
  | succ n ih =>
    rw [answers, List.mem_append, List.mem_singleton] at ha
    rcases ha with hbefore | rfl
    · rw [after, (ih hbefore).next_eq]
      exact ih hbefore
    · obtain ⟨hfailure, hend, _, hnext⟩ := next_none (p := p.after n) (Prod.ext hnone rfl)
      have hafter : p.after (n + 1) = { p.after n with reader := (p.after n).reader.fresh } :=
        hnext
      rw [hafter]
      exact ⟨hfailure, hend, rfl⟩

/-- Where the next call changes nothing, no further call does, and all answer the same. -/
theorem answers_of_next_eq {p : Parser σ} {result : Except Failure (Option Function)}
    (h : p.next = (result, p)) (n : Nat) :
    p.after n = p ∧ ∀ a ∈ p.answers n, a = ⟨result, p.consumedText⟩ := by
  induction n with
  | zero => simp [after, answers]
  | succ n ih =>
    obtain ⟨hafter, hanswers⟩ := ih
    refine ⟨by rw [after, hafter, h], fun a ha => ?_⟩
    rw [answers, hafter, List.mem_append, List.mem_singleton] at ha
    rcases ha with hbefore | rfl
    · exact hanswers a hbefore
    · simp [answer, h]

theorem Shared.request_of_next_eq {s : Shared σ} {result : Except Failure (Option Function)}
    (h : s.parser.next = (result, s.parser)) (r : Request) :
    (s.request r).2.parser = s.parser ∧
      ∀ a ∈ s.calls r, a = ⟨result, s.parser.consumedText⟩ := by
  obtain ⟨hcalls, hbehind⟩ := s.calls_eq r
  obtain ⟨hafter, hanswers⟩ := answers_of_next_eq h (s.calls r).length
  rw [hcalls]
  exact ⟨hbehind.trans hafter, hanswers⟩

/-- How requests on one parser go along with a run of calls on it alone, after the requests
`requests` and for any further one. -/
structure OneStream (p : Parser σ) (requests : List Request) (s : Shared σ) : Prop where
  log_eq : (Shared.mk p []).log requests = p.answers ((Shared.mk p []).log requests).length
  parser_eq : s.parser = p.after ((Shared.mk p []).log requests).length
  told : ∀ r, Told s.closed r (s.calls r) (s.request r).1
  delivered : ∀ r, (s.request r).1.functions = (s.calls r).filterMap Answer.function? ∨
    ∃ e, (s.request r).1 = .all (.error e)
  failed : ∀ a ∈ (Shared.mk p []).log requests, ∀ e, a.result = .error e →
    ∀ r, (s.request r).2.parser = s.parser ∧ (∀ b ∈ s.calls r, b.result = .error e) ∧
      (s.calls r ≠ [] → (s.request r).1.failure? = some e)
  ended : ∀ a ∈ (Shared.mk p []).log requests, a.result = .ok none →
    ∀ r, (s.request r).2.parser = s.parser ∧ ∀ b ∈ s.calls r, b = ⟨.ok none, ""⟩
  none_iff : s.parser.next.1 = .ok none ↔
    s.parser.failure = none ∧ s.parser.isExhausted = true

/-- Requests of all kinds in any order get what one run of calls delivers, each function once and
in order, and a failure or the end of input is the same for all of them from then on. -/
theorem requests_share_one_stream (p : Parser σ) (requests : List Request) :
    OneStream p requests ((Shared.mk p []).behind requests) := by
  obtain ⟨hlog, hparser⟩ := (Shared.mk p []).log_eq requests
  have htold := ((Shared.mk p []).behind requests).told_request
  refine ⟨hlog, hparser, htold, fun r => (htold r).functions_eq, ?_, ?_, next_eq_none_iff⟩
  · intro a ha e he r
    rw [hlog] at ha
    have hfailure := failure_of_answered ha he
    rw [← hparser] at hfailure
    obtain ⟨hbehind, hcalls⟩ := Shared.request_of_next_eq (next_of_failure hfailure) r
    have hfailed : ∀ b ∈ ((Shared.mk p []).behind requests).calls r, b.result = .error e :=
      fun b hb => by rw [hcalls b hb]
    exact ⟨hbehind, hfailed, fun hne => (htold r).failure?_eq hne hfailed⟩
  · intro a ha hnone r
    rw [hlog] at ha
    have hrest := atRest_of_answered ha hnone
    rw [← hparser] at hrest
    obtain ⟨hbehind, hcalls⟩ := Shared.request_of_next_eq hrest.next_eq r
    refine ⟨hbehind, fun b hb => ?_⟩
    rw [hcalls b hb, Parser.consumedText, Reader.consumedText, hrest.consumed_eq]
    rfl

end ExprLang.Parser
