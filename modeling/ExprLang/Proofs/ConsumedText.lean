import ExprLang.Proofs.OnDemand
import Mathlib.Data.List.Nodup

/-!
# The text that calls leave

What the calls of a parser have consumed, against the bytes of the source: together their texts
are the source up to the lookahead without its blanks, after a failure too, and the text of one
statement is the stretch of the source that its span names.
-/
namespace ExprLang

namespace Byte

def slice (bytes : List UInt8) (first behind : Nat) : List UInt8 := (bytes.take behind).drop first

theorem take_eq_append_slice (bytes : List UInt8) {first behind : Nat} (h : first ≤ behind) :
    bytes.take behind = bytes.take first ++ slice bytes first behind := by
  rw [slice, ← Nat.min_eq_left h, ← List.take_take, Nat.min_eq_left h, List.take_append_drop]

theorem slice_of_split {bytes front middle behind : List UInt8}
    (h : bytes = front ++ (middle ++ behind)) :
    slice bytes front.length (front.length + middle.length) = middle := by
  rw [h, slice, List.take_length_add_append, List.drop_left, List.take_left]

end Byte

theorem Span.over_eq {first last : Token} {us init : List Token}
    (h : first :: us = init ++ [last]) :
    Span.over (first :: us) = some ⟨first.location, last.location⟩ := by
  cases init with
  | nil =>
    obtain ⟨rfl, rfl⟩ := List.cons.inj h
    rfl
  | cons t init =>
    obtain ⟨rfl, rfl⟩ := List.cons.inj h
    simp [Span.over]

theorem DerivesStatement.span_eq {f : Function} {d : Nat} {ts : List Token}
    (h : DerivesStatement f d ts) : f.span = Span.over ts := by
  cases h <;> rfl

namespace Scanner.Spells

variable {s : Scanner} {ts before after us : List Token} {first : Token}
  {failure : Option ScanError}

theorem lexeme_ne_empty (h : Spells s ts failure) :
    ∀ t ∈ ts, t.isEnd = false → t.lexeme ≠ "" := by
  induction h with
  | fail => simp
  | finish => simp [Token.endOfInput, Token.isEnd]
  | @more s p behind t ts failure h event _ ih =>
    rw [List.forall_mem_cons]
    refine ⟨fun _ hempty => h.segment.ne_nil ?_, ih⟩
    rw [(h.token_eq event).1] at hempty
    simpa using congrArg String.length hempty

/-- No two tokens start at the same place. -/
theorem eq_of_location (h : Spells s ts failure) {t t' : Token} (ht : t ∈ ts) (ht' : t' ∈ ts)
    (heq : t.location = t'.location) : t = t' := by
  have hplaces := (List.pairwise_append.1 h.increasing.2).1
  have hnodup : (ts.map Token.location).Nodup :=
    hplaces.imp fun hlt hsame => by simp [hsame] at hlt
  exact List.inj_on_of_nodup_map hnodup ht ht' heq

theorem offset_le (h : Spells s ts failure) (hts : ts = before ++ (first :: us) ++ after)
    {t : Token} (ht : t ∈ first :: us) : first.location.offset ≤ t.location.offset := by
  have hplaces := (List.pairwise_append.1 h.increasing.2).1
  rw [List.pairwise_map, hts, List.append_assoc, List.pairwise_append] at hplaces
  have hlt := (List.pairwise_cons.1 hplaces.2.1).1
  rcases List.mem_cons.1 ht with rfl | ht
  · exact Int.le_refl _
  · exact Int.le_of_lt (hlt t (List.mem_append_left _ ht))

/-- A stretch of tokens spells the bytes from the place of its first token through its last. -/
theorem slice_eq (h : Spells s ts failure) (hts : ts = before ++ (first :: us) ++ after)
    {init : List Token} {last : Token} (hlast : first :: us = init ++ [last]) :
    ∃ k m : Nat, first.location.offset = (s.position.offset + k : Nat) ∧
      last.location.offset = (s.position.offset + m : Nat) ∧
      Byte.text (Byte.visible (Byte.slice s.rest k (m + last.lexeme.length))) =
        lexemes (first :: us) := by
  have hfirst : ts = before ++ first :: (us ++ after) := by simp [hts]
  have hend : ts = (before ++ init) ++ last :: after := by simp [hts, hlast]
  obtain ⟨k, hk, hbefore, _⟩ := h.text_eq hfirst
  obtain ⟨m, hm, _, htoken⟩ := h.text_eq hend
  have hle := h.offset_le hts (t := last) (by simp [hlast])
  have hkm : k ≤ m + last.lexeme.length := by omega
  refine ⟨k, m, hk, hm, ?_⟩
  rw [Byte.take_eq_append_slice s.rest hkm, Byte.visible_append,
    Byte.text_append, hbefore, lexemes_append, String.append_assoc, String.append_right_inj]
    at htoken
  rw [htoken, hlast, lexemes_append, lexemes_cons, lexemes_nil, String.append_empty]

end Scanner.Spells

namespace Parser

variable {p : Parser Scanner} {ts : List Token} {failure : Option ScanError}
  {bytes : List UInt8}

/-- How the texts that calls leave make up the source `bytes`, of which a scanner yields `ts`. -/
structure Accounts (bytes : List UInt8) (ts : List Token) (p : Parser Scanner) : Prop where
  /-- Apart from calls that only repeat a failure, the texts are the source up to the lookahead. -/
  texts_eq : ∀ n, ∃ k : Nat, (p.after n).reader.lookahead.location.offset = k ∧
    String.join (p.texts n) = Byte.text (Byte.visible (bytes.take k))
  /-- The token that was to be consumed when the one behind it could not be scanned is still the
  lookahead, and no text has it. -/
  unscanned : ∀ n e, (p.after n).failure = some (.scan e) →
    ∃ before, ts = before ++ [(p.after n).reader.lookahead] ∧
      String.join (p.texts n) = lexemes before
  function_eq : ∀ n f q, (p.after n).next = (.ok (some f), q) → q.consumedText ≠ "" ∧
    ∃ span, f.span = some span ∧ (∃ t ∈ ts, t.location = span.last) ∧
      ∀ t ∈ ts, t.location = span.last →
        ∃ k m : Nat, span.first.offset = k ∧ span.last.offset = m ∧
          q.consumedText =
            Byte.text (Byte.visible (Byte.slice bytes k (m + t.lexeme.length)))
  all_eq : ∀ fs q, p.all = (.ok fs, q) → ∃ items,
    p.take (p.reader.remaining + 1) = (items, none, q) ∧ fs = items.map Prod.fst ∧
      String.join (items.map Prod.snd) =
        Byte.text (Byte.visible (bytes.take (inputLength bytes)))

variable {s : Scanner}

/-- What has been consumed is the source up to the lookahead. -/
theorem Serves.text_eq {history : List Token} (h : Serves ts failure history p)
    (hspells : s.Spells ts failure) (hoffset : s.position.offset = 0) :
    ∃ k : Nat, p.reader.lookahead.location.offset = k ∧
      lexemes history = Byte.text (Byte.visible (s.rest.take k)) := by
  obtain ⟨rest, hrest⟩ := h.split
  obtain ⟨k, hk, hbefore, _⟩ := hspells.text_eq hrest
  exact ⟨k, by rw [hk, hoffset, Nat.zero_add], hbefore.symm⟩

/-- A statement's text is not empty, and it is the source from the start of its span through the
token at the span's end. -/
theorem Serves.function_eq {history : List Token} {f : Function} {q : Parser Scanner}
    (h : Serves ts failure history p) (hspells : s.Spells ts failure)
    (hoffset : s.position.offset = 0) (hnext : p.next = (.ok (some f), q)) :
    q.consumedText ≠ "" ∧ ∃ span, f.span = some span ∧ (∃ t ∈ ts, t.location = span.last) ∧
      ∀ t ∈ ts, t.location = span.last →
        ∃ k m : Nat, span.first.offset = k ∧ span.last.offset = m ∧
          q.consumedText =
            Byte.text (Byte.visible (Byte.slice s.rest k (m + t.lexeme.length))) := by
  obtain ⟨rest, hrest⟩ := h.next.split
  obtain ⟨_, _, _, hconsumes, _, d, _, hderives⟩ := next_some hnext
  have htext : q.consumedText = lexemes p.taken := consumedText_of_next hnext
  have hspan := hderives.span_eq
  have hgoing := hconsumes.isEnd_eq_false
  cases htaken : p.taken with
  | nil => exact absurd htaken hderives.ne_nil
  | cons first us =>
    rw [htaken] at hrest htext hspan hgoing
    obtain ⟨init, last, hlast⟩ : ∃ init last, first :: us = init ++ [last] :=
      ⟨_, _, (List.dropLast_append_getLast (List.cons_ne_nil first us)).symm⟩
    rw [Span.over_eq hlast] at hspan
    obtain ⟨k, m, hk, hm, hslice⟩ := hspells.slice_eq hrest hlast
    have hmem : last ∈ ts := by simp [hrest, hlast]
    rw [hoffset, Nat.zero_add] at hk hm
    refine ⟨fun hempty => ?_, _, hspan, ⟨last, hmem, rfl⟩, fun t ht heq => ?_⟩
    · rw [htext, lexemes_cons, String.append_eq_empty_iff] at hempty
      exact hspells.lexeme_ne_empty first (by simp [hrest]) (hgoing first (by simp)) hempty.1
    · obtain rfl := hspells.eq_of_location ht hmem heq
      exact ⟨k, m, hk, hm, htext.trans hslice.symm⟩

/-- At the end of input everything before it has been consumed. -/
theorem Serves.text_eq_of_isEnd {history : List Token} (h : Serves ts failure history p)
    (hspells : s.Spells ts failure) (hnone : p.failure = none)
    (hend : p.reader.lookahead.isEnd = true) :
    lexemes history = Byte.text (Byte.visible (s.rest.take (inputLength s.rest))) := by
  obtain ⟨rfl, hts⟩ := h.eq_of_isEnd hnone hend
  obtain ⟨before, ending, hsplit, hending⟩ := hspells.last_eq
  obtain ⟨k, hk, hbefore, _⟩ := hspells.text_eq hts
  obtain ⟨_, hlast⟩ := List.append_inj' (hts.symm.trans hsplit) rfl
  obtain rfl := List.head_eq_of_cons_eq hlast
  rw [hending] at hk
  obtain rfl : k = inputLength s.rest := by omega
  exact hbefore.symm

/-- The texts that the calls of a parser leave account for every byte of its source. -/
theorem texts_account_for_source (file : String) (bits : Int) (bytes : List UInt8) {s : Scanner}
    (hs : Scanner.start file bits bytes = .ok s) (maxDepth : Int) {p : Parser Scanner}
    (hp : start maxDepth s = .ok p) :
    ∃ ts failure, s.Yields ts failure ∧ Accounts bytes ts p := by
  obtain rfl := Scanner.eq_ofBytes_of_start hs
  obtain ⟨ts, failure, hyields⟩ := Scanner.exists_yields (Scanner.ofBytes file bits.toNat bytes)
  have hspells := hyields.spells rfl
  refine ⟨ts, failure, hyields, ?_⟩
  obtain ⟨t, s₁, hpull, hstart⟩ := eq_of_start hp
  have hserves : Serves ts failure [] p := by
    subst hstart
    exact serves_of_faces (.of_yields hyields hpull) rfl
  have hcalls (n : Nat) : ∃ history, Serves ts failure history (p.after n) ∧
      String.join (p.texts n) = lexemes history := by
    obtain ⟨history, hcalls, htexts⟩ := calls_after p n
    exact ⟨history, hserves.calls hcalls, htexts⟩
  refine ⟨fun n => ?_, fun n e he => ?_, fun n f q hnext => ?_, fun fs q hall => ?_⟩
  · obtain ⟨history, hn, htexts⟩ := hcalls n
    rw [htexts]
    exact hn.text_eq hspells rfl
  · obtain ⟨history, hn, htexts⟩ := hcalls n
    exact ⟨history, (hn.scan e he).2, htexts⟩
  · obtain ⟨history, hn, _⟩ := hcalls n
    exact hn.function_eq hspells rfl hnext
  · obtain ⟨_, _, hnone, hend⟩ := (all_eq_ok.1 hall).calls
    have hq : q.failure = none := hnone
    unfold all at hall
    rcases htake : p.take (p.reader.remaining + 1) with ⟨items, failure', q'⟩
    cases failure' with
    | some e => simp [htake] at hall
    | none =>
      simp only [htake, Prod.mk.injEq, Except.ok.injEq] at hall
      obtain ⟨rfl, rfl⟩ := hall
      obtain ⟨history, hhistory, htexts⟩ := calls_take htake
      refine ⟨items, rfl, rfl, htexts.trans ?_⟩
      exact (hserves.calls hhistory).text_eq_of_isEnd hspells hq (hend rfl)

/-- An operand, and behind it a byte that begins no token. -/
theorem texts_account_for_invalid_byte :
    Scanner.start "f" 64 [0x31, 0x20, 0x2b, 0x24] =
        .ok (Scanner.ofBytes "f" 64 [0x31, 0x20, 0x2b, 0x24]) ∧
      ∃ p, start 3 (Scanner.ofBytes "f" 64 [0x31, 0x20, 0x2b, 0x24]) = .ok p ∧
        ∃ ts failure, (Scanner.ofBytes "f" 64 [0x31, 0x20, 0x2b, 0x24]).Yields ts failure ∧
          Accounts [0x31, 0x20, 0x2b, 0x24] ts p := by
  have hs : Scanner.start "f" 64 [0x31, 0x20, 0x2b, 0x24] =
    .ok (Scanner.ofBytes "f" 64 [0x31, 0x20, 0x2b, 0x24]) := rfl
  obtain ⟨p, hp⟩ :
    ∃ p, start 3 (Scanner.ofBytes "f" 64 [0x31, 0x20, 0x2b, 0x24]) = .ok p := ⟨_, rfl⟩
  exact ⟨hs, p, hp, texts_account_for_source "f" 64 _ hs 3 hp⟩

end Parser
end ExprLang
