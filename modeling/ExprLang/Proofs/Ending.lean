import ExprLang.Proofs.Answers
import ExprLang.Proofs.TokenSequence

/-!
# The end of input

A zero byte ends the input just as the end of the bytes does, and what stands behind it is never
looked at: no request to a scanner and no call of a parser tells a source from the same source with
a zero byte and anything else behind it. The end of input is final, and a scanner that has come to
it delivers it again and again.
-/
namespace ExprLang

theorem takeWhile_append_of_neg {p : UInt8 → Bool} {byte : UInt8} (h : p byte = false)
    (bytes tail : List UInt8) :
    (bytes ++ byte :: tail).takeWhile p = bytes.takeWhile p ∧
      (bytes ++ byte :: tail).dropWhile p = bytes.dropWhile p ++ byte :: tail := by
  induction bytes with
  | nil => simp [h]
  | cons b bytes ih => cases hb : p b <;> simp [hb, ih]

namespace Scanner

variable {s s' : Scanner} {t : Token} {tail : List UInt8}

/-- The scanner with a zero byte and other bytes behind what is left of its source. -/
def withTail (s : Scanner) (tail : List UInt8) : Scanner :=
  { s with rest := s.rest ++ Byte.sentinel :: tail }

/-- No class of bytes that runs are made of has the zero byte in it. -/
theorem pastRun_withTail {p : UInt8 → Bool} (h : p Byte.sentinel = false) (s : Scanner)
    (tail : List UInt8) :
    (s.withTail tail).run p = s.run p ∧
      (s.withTail tail).pastRun p = (s.pastRun p).withTail tail := by
  obtain ⟨htake, hdrop⟩ := takeWhile_append_of_neg h s.rest tail
  have hrun : (s.withTail tail).run p = s.run p := htake
  refine ⟨hrun, ?_⟩
  rw [pastRun, hrun]
  simp only [withTail, hdrop, pastRun]

theorem scanNumber_withTail (s : Scanner) (tail : List UInt8) :
    (s.withTail tail).scanNumber = (s.scanNumber.1, s.scanNumber.2.withTail tail) := by
  obtain ⟨hrun, hpast⟩ := pastRun_withTail (p := Numeral.isDigit) (by decide) s tail
  rw [scanNumber, hrun, hpast]
  rfl

theorem scanWord_withTail (s : Scanner) (tail : List UInt8) :
    (s.withTail tail).scanWord = (s.scanWord.1, s.scanWord.2.withTail tail) := by
  obtain ⟨hrun, hpast⟩ := pastRun_withTail (p := Byte.isWordByte) (by decide) s tail
  rw [scanWord, hrun, hpast]
  rfl

/-- A scan finds the zero byte where it found the end of the bytes. -/
theorem scan_withTail (s : Scanner) (tail : List UInt8) :
    (s.withTail tail).scan = (s.scan.1, s.scan.2.withTail tail) := by
  have hnumber := s.scanNumber_withTail tail
  have hword := s.scanWord_withTail tail
  obtain ⟨file, bits, rest, position, ended⟩ := s
  cases rest with
  | nil => simp [scan, withTail, finish, location]
  | cons byte rest =>
    unfold scan
    simp only [withTail, List.cons_append] at hnumber hword ⊢
    split
    · rfl
    split
    · exact hnumber
    split
    · exact hword
    · rfl

theorem next_withTail (s : Scanner) (tail : List UInt8) :
    (s.withTail tail).next = (s.next.1, s.next.2.withTail tail) := by
  have hskip : (s.withTail tail).skipBlanks = s.skipBlanks.withTail tail :=
    (pastRun_withTail (by decide) s tail).2
  have hended : (s.withTail tail).ended = s.ended := rfl
  unfold next
  rw [hended]
  cases s.ended with
  | some place => rfl
  | none => simp only [hskip, scan_withTail]

theorem take_withTail (n : Nat) (s : Scanner) (tail : List UInt8) :
    (s.withTail tail).take n = ((s.take n).1, (s.take n).2.1, (s.take n).2.2.withTail tail) := by
  induction n generalizing s with
  | zero => rfl
  | succ n ih =>
    rcases hnext : s.next with ⟨e | t, s'⟩
    · simp [take, next_withTail, hnext]
    · cases hend : t.isEnd <;> simp [take, next_withTail, hnext, hend, ih]

/-- More rounds than there are bytes make no difference. -/
theorem take_eq_take {m n : Nat} (hm : s.rest.length < m) (hn : s.rest.length < n) :
    s.take m = s.take n := by
  induction m generalizing s n with
  | zero => omega
  | succ m ih =>
    obtain ⟨n, rfl⟩ := Nat.exists_eq_succ_of_ne_zero (Nat.ne_zero_of_lt hn)
    rcases hnext : s.next with ⟨e | t, s'⟩
    · simp [take, hnext]
    · cases hend : t.isEnd with
      | true => simp [take, hnext, hend]
      | false =>
        have hlt := length_rest_next hnext hend
        have hsame := ih (s := s') (n := n) (by omega) (by omega)
        simp [take, hnext, hend, hsame]

theorem all_withTail (s : Scanner) (tail : List UInt8) :
    (s.withTail tail).all = (s.all.1, s.all.2.withTail tail) := by
  have hlength : s.rest.length < (s.withTail tail).rest.length + 1 := by
    simp only [withTail, List.length_append]
    omega
  unfold all
  rw [take_withTail, take_eq_take hlength (Nat.lt_succ_self _)]
  rcases s.take (s.rest.length + 1) with ⟨ts, failure, s'⟩
  cases failure <;> rfl

inductive Request
  | next
  | all
  | item (iteration : Nat)
  deriving DecidableEq, Repr

/-- What a request returns. An iteration that is over has no token to return. -/
inductive Reply
  | next (result : Except ScanError Token)
  | all (result : Except ScanError (List Token))
  | item (result : Except ScanError (Option Token))

def Reply.tokens : Reply → List Token
  | .next (.ok t) => [t]
  | .all (.ok ts) => ts
  | .item (.ok t) => t.toList
  | _ => []

structure Shared where
  scanner : Scanner
  closed : List Nat

structure Sight where
  reply : Reply
  position : Position
  exhausted : Bool

namespace Shared

/-- The reply to a request, with the scanner behind it. An error does not keep later requests from
going on, but an iteration is over with it. -/
def request (s : Shared) : Request → Reply × Shared
  | .next => (.next s.scanner.next.1, { s with scanner := s.scanner.next.2 })
  | .all => (.all s.scanner.all.1, { s with scanner := s.scanner.all.2 })
  | .item i =>
      if i ∈ s.closed then (.item (.ok none), s)
      else
        match s.scanner.next with
        | (.error e, r) => (.item (.error e), ⟨r, i :: s.closed⟩)
        | (.ok t, r) => (.item (.ok (some t)), ⟨r, if t.isEnd then i :: s.closed else s.closed⟩)

def behind (s : Shared) (requests : List Request) : Shared :=
  requests.foldl (fun s r => (s.request r).2) s

def sights (s : Shared) : List Request → List Sight
  | [] => []
  | r :: requests =>
      ⟨(s.request r).1, (s.request r).2.scanner.position, (s.request r).2.scanner.isExhausted⟩ ::
        (s.request r).2.sights requests

theorem request_withTail (s : Shared) (tail : List UInt8) (r : Request) :
    request ⟨s.scanner.withTail tail, s.closed⟩ r =
      ((s.request r).1, ⟨(s.request r).2.scanner.withTail tail, (s.request r).2.closed⟩) := by
  cases r with
  | next => simp only [request, next_withTail]
  | all => simp only [request, all_withTail]
  | item i =>
    unfold request
    simp only [next_withTail]
    split
    · rfl
    · rcases s.scanner.next with ⟨e | t, s'⟩ <;> rfl

theorem sights_withTail (s : Shared) (tail : List UInt8) (requests : List Request) :
    sights ⟨s.scanner.withTail tail, s.closed⟩ requests = s.sights requests := by
  induction requests generalizing s with
  | nil => rfl
  | cons r requests ih =>
    simp only [sights, request_withTail, ih]
    rfl

end Shared

theorem ended_of_next (h : s.next = (.ok t, s')) (hend : t.isEnd = true) :
    ∃ place, t = .endOfInput place ∧ s'.ended = some place := by
  cases hended : s.ended with
  | some place =>
    rw [next_of_ended hended, Prod.mk.injEq, Except.ok.injEq] at h
    exact ⟨place, h.1.symm, h.2 ▸ hended⟩
  | none =>
    rcases delivers_or_finishes hended with ⟨p, rest, hp⟩ | ⟨gap, rest, hfinish⟩
    · have hevent := congrArg Prod.fst (hp.next_eq.symm.trans h)
      rw [(hp.token_eq hevent).2.2] at hend
      contradiction
    · rw [hfinish.next_eq, Prod.mk.injEq, Except.ok.injEq] at h
      exact ⟨_, h.1.symm, h.2 ▸ rfl⟩

theorem ended_of_take {n : Nat} (ht : t ∈ (s.take n).1) (hend : t.isEnd = true) :
    ∃ place, t = .endOfInput place ∧ (s.take n).2.2.ended = some place := by
  induction n generalizing s with
  | zero => simp [take] at ht
  | succ n ih =>
    rcases hnext : s.next with ⟨e | u, s'⟩
    · simp [take, hnext] at ht
    · cases hu : u.isEnd with
      | true =>
        simp only [take, hnext, hu, if_true, List.mem_singleton] at ht ⊢
        subst ht
        exact ended_of_next hnext hend
      | false =>
        simp only [take, hnext, hu, Bool.false_eq_true, if_false, List.mem_cons] at ht ⊢
        rcases ht with rfl | ht
        · simp [hu] at hend
        · exact ih ht

theorem all_of_ended {place : Location} (h : s.ended = some place) :
    s.all = (.ok [.endOfInput place], s) := by
  simp [all, take, next_of_ended h, Token.isEnd, Token.endOfInput]

namespace Shared

/-- However the end of input is delivered, it is remembered. -/
theorem ended_of_request {s : Shared} {r : Request} (ht : t ∈ (s.request r).1.tokens)
    (hend : t.isEnd = true) :
    ∃ place, t = .endOfInput place ∧ (s.request r).2.scanner.ended = some place := by
  cases r with
  | next =>
    rcases hnext : s.scanner.next with ⟨e | u, s'⟩
    · simp [request, hnext, Reply.tokens] at ht
    · simp only [request, hnext, Reply.tokens, List.mem_singleton] at ht ⊢
      subst ht
      exact ended_of_next hnext hend
  | all =>
    unfold request Scanner.all at ht ⊢
    rcases htake : s.scanner.take (s.scanner.rest.length + 1) with ⟨ts, e | _, s'⟩
    · simp only [htake, Reply.tokens] at ht ⊢
      have hended := ended_of_take (s := s.scanner) (n := s.scanner.rest.length + 1)
        (by rwa [htake]) hend
      rwa [htake] at hended
    · simp [htake, Reply.tokens] at ht
  | item i =>
    by_cases hclosed : i ∈ s.closed
    · simp [request, hclosed, Reply.tokens] at ht
    · rcases hnext : s.scanner.next with ⟨e | u, s'⟩
      · simp [request, hclosed, hnext, Reply.tokens] at ht
      · simp only [request, hclosed, hnext, Reply.tokens, if_false, Option.toList_some,
          List.mem_singleton] at ht ⊢
        subst ht
        exact ended_of_next hnext hend

/-- The reply to a request at the end of input, which is the token `t`. -/
inductive Repeats (t : Token) (closed : List Nat) : Request → Reply → Prop
  | next : Repeats t closed .next (.next (.ok t))
  | all : Repeats t closed .all (.all (.ok [t]))
  | item {i : Nat} (going : i ∉ closed) : Repeats t closed (.item i) (.item (.ok (some t)))
  | closed {i : Nat} (done : i ∈ closed) : Repeats t closed (.item i) (.item (.ok none))

theorem request_of_ended {s : Shared} {place : Location} (h : s.scanner.ended = some place)
    (r : Request) :
    (s.request r).2.scanner = s.scanner ∧
      Repeats (.endOfInput place) s.closed r (s.request r).1 := by
  cases r with
  | next =>
    simp only [request, next_of_ended h]
    exact ⟨trivial, .next⟩
  | all =>
    simp only [request, all_of_ended h]
    exact ⟨trivial, .all⟩
  | item i =>
    by_cases hclosed : i ∈ s.closed
    · simp only [request, hclosed, if_true]
      exact ⟨trivial, .closed hclosed⟩
    · simp only [request, hclosed, if_false, next_of_ended h]
      exact ⟨trivial, .item hclosed⟩

theorem scanner_behind_of_ended {s : Shared} {place : Location}
    (h : s.scanner.ended = some place) (requests : List Request) :
    (s.behind requests).scanner = s.scanner := by
  induction requests generalizing s with
  | nil => rfl
  | cons r requests ih =>
    have hscanner := (request_of_ended h r).1
    have hothers := ih (s := (s.request r).2) (hscanner ▸ h)
    exact hothers.trans hscanner

/-- What is left of a scanner whose end of input is `t`: the same reply to everything, and nothing
changes any more. -/
structure Final (t : Token) (s : Shared) : Prop where
  text_eq : t.lexeme = ""
  scanner_eq : ∀ requests, (s.behind requests).scanner = s.scanner
  repeats : ∀ requests r, Repeats t (s.behind requests).closed r
    ((s.behind requests).request r).1

theorem final_of_ended {s : Shared} {place : Location} (h : s.scanner.ended = some place) :
    Final (.endOfInput place) s where
  text_eq := rfl
  scanner_eq := scanner_behind_of_ended h
  repeats requests r := by
    have hended : (s.behind requests).scanner.ended = some place := by
      rw [scanner_behind_of_ended h, h]
    exact (request_of_ended hended r).2

end Shared
end Scanner

namespace Reader

/-- Two readers at the same place, where the right one has a zero byte and other bytes behind its
source. They never part. -/
def tailed (tail : List UInt8) : Coupling .exact Scanner Scanner where
  matched r r' := r' = ⟨r.source.withTail tail, r.lookahead, r.consumed⟩
  parts _ := False
  beyond _ _ := False
  lookahead_like h := by
    subst h
    rfl
  consumed_like h := by
    subst h
    exact List.forall₂_refl _
  advance_agree {r r'} h := by
    subst h
    simp only [advance, TokenSource.pull, Scanner.next_withTail]
    cases r.lookahead.isEnd with
    | true => exact .ok rfl rfl
    | false =>
      rcases r.source.next with ⟨e | t, s⟩
      · exact .error rfl (Likeness.exact_sameFailure.2 rfl)
      · exact .ok rfl rfl
  advance_beyond h := h

end Reader

inductive SameResult {ε α β : Type} (R : α → β → Prop) : Except ε α → Except ε β → Prop
  | error (e : ε) : SameResult R (.error e) (.error e)
  | ok {a : α} {b : β} (h : R a b) : SameResult R (.ok a) (.ok b)

namespace Parser

open Reader

variable {tail : List UInt8}

structure SameCalls (p q : Parser Scanner) : Prop where
  answers_eq : ∀ n, p.answers n = q.answers n
  state : ∀ n, SameState (p.after n) (q.after n)
  place_eq : ∀ n, (p.after n).reader.source.position = (q.after n).reader.source.position
  ended_eq : ∀ n, (p.after n).reader.source.ended = (q.after n).reader.source.ended

theorem sameCalls_of_coupled {p q : Parser Scanner} (h : Coupled (tailed tail) p q) :
    SameCalls p q := by
  have hafter (n : Nat) := h.after n fun _ _ _ _ hparts => hparts
  have hreader (n : Nat) : (q.after n).reader = ⟨(p.after n).reader.source.withTail tail,
    (p.after n).reader.lookahead, (p.after n).reader.consumed⟩ := (hafter n).2.matched
  refine ⟨fun n => ?_, fun n => ?_, fun n => ?_, fun n => ?_⟩
  · exact answers_eq_of_forall fun k hk => eq_of_answersAlike_exact ((hafter n).1 k hk)
  · refine (hafter n).2.sameState ?_
    rw [position, position, hreader]
    rfl
  · rw [hreader]
    rfl
  · rw [hreader]
    rfl

theorem sameResult_start (s : Scanner) (tail : List UInt8) (maxDepth : Int) :
    SameResult SameCalls (start maxDepth s) (start maxDepth (s.withTail tail)) := by
  by_cases hdepth : 0 < maxDepth
  · have hpull : TokenSource.pull s = s.next := rfl
    have hpull' : TokenSource.pull (s.withTail tail) = (s.next.1, s.next.2.withTail tail) :=
      s.next_withTail tail
    rw [start_eq hdepth, start_eq hdepth, hpull, hpull']
    rcases s.next with ⟨e | t, s'⟩
    · exact .error _
    · refine .ok (sameCalls_of_coupled (show Coupled (tailed tail) _ _ from ⟨?_, ?_, rfl, .none⟩))
      · exact follows_statement (follows_expression_self _ _)
      · intro r r' h
        subst h
        rfl
  · have hnonpos := Int.not_lt.1 hdepth
    rw [start_of_nonpos hnonpos, start_of_nonpos hnonpos]
    exact .error _

end Parser

namespace Scanner

/-- Scanners that show the same whatever they are asked for, and so do parsers on them. -/
structure SameInput (s s' : Scanner) : Prop where
  sights_eq : ∀ requests, (Shared.mk s []).sights requests = (Shared.mk s' []).sights requests
  parsers : ∀ maxDepth, SameResult Parser.SameCalls (Parser.start maxDepth s)
    (Parser.start maxDepth s')

/-- A zero byte and what follows it make no difference to any requests, and once the end of input
has been delivered, every request gets it again and changes nothing. -/
theorem zero_byte_ends_input :
    (∀ file bits bytes tail, SameResult SameInput (start file bits bytes)
      (start file bits (bytes ++ Byte.sentinel :: tail))) ∧
    ∀ (s : Shared) r t, t ∈ (s.request r).1.tokens → t.isEnd = true →
      Shared.Final t (s.request r).2 := by
  constructor
  · intro file bits bytes tail
    unfold start
    cases Setting.positive .numberBits bits with
    | error e => exact .error e
    | ok n =>
      refine .ok ⟨fun requests => ?_, fun maxDepth => ?_⟩
      · exact (Shared.sights_withTail ⟨ofBytes file n bytes, []⟩ tail requests).symm
      · exact Parser.sameResult_start (ofBytes file n bytes) tail maxDepth
  · intro s r t ht hend
    obtain ⟨place, rfl, hended⟩ := Shared.ended_of_request ht hend
    exact Shared.final_of_ended hended

/-- A number in front of a zero byte and a letter; the second request delivers the end. -/
theorem zero_byte_ends_input_number :
    let s := ofBytes "f" 64 [0x31, 0x00, 0x61]
    let t : Token := .endOfInput ⟨"f", 1, 2, 1⟩
    SameInput (ofBytes "f" 64 [0x31]) s ∧
      t ∈ (((Shared.mk s []).request .next).2.request .next).1.tokens ∧ t.isEnd = true ∧
      Shared.Final t (((Shared.mk s []).request .next).2.request .next).2 := by
  intro s t
  obtain ⟨hsame, hfinal⟩ := zero_byte_ends_input
  have hinput : SameInput (ofBytes "f" 64 [0x31]) s := by
    cases hsame "f" 64 [0x31] [0x61] with
    | ok h => exact h
  have ht : t ∈ (((Shared.mk s []).request .next).2.request .next).1.tokens := by decide
  exact ⟨hinput, ht, rfl, hfinal _ .next t ht rfl⟩

end Scanner
end ExprLang
