import ExprLang.Proofs.ConsumedText
import Mathlib.Data.List.DropRight

/-!
# Places in a source

Where a scanner stands is told by the bytes that it has read: one line more than there are line
feeds among them, and one column more than there are bytes behind the last line feed. Every call
keeps this, one that fails too, so the location of each token and of each error is that same
function of its offset. The offsets grow from call to call until the input ends, and the text of
a token is the stretch of its line that begins there.
-/
namespace ExprLang

def Byte.lineFeed : UInt8 := 0x0a

namespace Position

/-- The position behind some bytes, told by the bytes as a whole. -/
def behind (read : List UInt8) : Position :=
  ⟨1 + read.count Byte.lineFeed, 1 + (read.rtakeWhile (· != Byte.lineFeed)).length, read.length⟩

theorem behind_concat (read : List UInt8) (byte : UInt8) :
    behind (read ++ [byte]) = (behind read).advance byte := by
  by_cases hbyte : byte = Byte.lineFeed
  · have hfeed : byte = 0x0a := hbyte
    rw [advance, if_pos hfeed]
    simp [behind, hbyte, Nat.add_assoc]
  · have hfeed : ¬ byte = 0x0a := hbyte
    rw [advance, if_neg hfeed]
    simp [behind, hbyte, Nat.add_assoc]

/-- Counting byte by byte comes to the same. -/
theorem after_start (read : List UInt8) : start.after read = behind read := by
  induction read using List.reverseRecOn with
  | nil => rfl
  | append_singleton read byte ih => rw [after_append, ih, behind_concat]; rfl

theorem after_behind (read more : List UInt8) :
    (behind read).after more = behind (read ++ more) := by
  rw [← after_start, ← after_start, after_append]

end Position

/-- A location in a source whose line and column are told by the bytes in front of its offset. -/
structure Location.Marks (bytes : List UInt8) (l : Location) : Prop where
  nonneg : 0 ≤ l.offset
  le_length : l.offset ≤ bytes.length
  line_eq : l.line = 1 + ((bytes.take l.offset.toNat).count Byte.lineFeed : Nat)
  column_eq : l.column =
    1 + (((bytes.take l.offset.toNat).rtakeWhile (· != Byte.lineFeed)).length : Nat)

theorem Location.marks_behind {bytes read rest : List UInt8} (h : bytes = read ++ rest)
    (file : String) : ((Position.behind read).location file).Marks bytes := by
  have htake : bytes.take ((Position.behind read).location file).offset.toNat = read := by
    rw [h]
    exact List.take_left
  refine ⟨Int.natCast_nonneg _, ?_, ?_, ?_⟩
  · rw [h]
    exact Int.ofNat_le.2 (by simp [Position.behind])
  · rw [htake]
    simp [Position.behind, Position.location]
  · rw [htake]
    simp [Position.behind, Position.location]

namespace Scanner

def after (s : Scanner) : Nat → Scanner
  | 0 => s
  | n + 1 => (s.after n).next.2

def place : Except ScanError Token → Location
  | .ok t => t.location
  | .error e => e.diagnostic.location

def endsInput : Except ScanError Token → Bool
  | .ok t => t.isEnd
  | .error _ => false

variable {bytes read : List UInt8} {s : Scanner}

/-- The scanner `s` has read the bytes `read` of a source and has what follows them ahead. -/
structure Behind (bytes read : List UInt8) (s : Scanner) : Prop where
  split : bytes = read ++ s.rest
  position_eq : s.position = .behind read
  ended_eq : ∀ l, s.ended = some l → l = s.location

/-- A call behind `read` that skips the bytes `gap` and then takes the bytes `segment`. -/
structure Passes (bytes read gap segment : List UInt8) (s : Scanner) : Prop where
  behind : Behind bytes (read ++ (gap ++ segment)) s.next.2
  place_eq : place s.next.1 = (Position.behind (read ++ gap)).location s.file
  ne_nil : endsInput s.next.1 = false → segment ≠ []
  lexeme_eq : ∀ t, s.next.1 = .ok t → t.lexeme = Byte.text segment
  lineFeed_notMem : Byte.lineFeed ∉ segment

theorem lineFeed_notMem_of_visible {segment : List UInt8} (h : Byte.visible segment = segment) :
    Byte.lineFeed ∉ segment := by
  intro hmem
  rw [← h, Byte.visible, List.mem_filter] at hmem
  simp [Byte.isBlank, Byte.blanks, Byte.lineFeed] at hmem

/-- What a call does, whether it delivers a token, fails or finds the end of input. -/
theorem Behind.exists_passes (h : Behind bytes read s) :
    ∃ gap segment, Passes bytes read gap segment s := by
  cases hended : s.ended with
  | some l =>
    have hnext := next_of_ended hended
    refine ⟨[], [], ?_, ?_, ?_, ?_, List.not_mem_nil⟩
    · simpa [hnext] using h
    · rw [hnext, List.append_nil, ← h.position_eq]
      exact h.ended_eq l hended
    · simp [hnext, endsInput, Token.isEnd, Token.endOfInput]
    · rintro t ht
      rw [hnext, Except.ok.injEq] at ht
      rw [← ht]
      rfl
  | none =>
    rcases delivers_or_finishes hended with ⟨p, rest, hp⟩ | ⟨gap, rest, hfinish⟩
    · have hplace : place p.event = (s.position.after p.gap).location s.file := by
        cases hevent : p.event with
        | ok t => exact (hp.token_eq hevent).2.1
        | error e => exact Segment.error_location (hevent ▸ hp.segment)
      refine ⟨p.gap, p.segment, ⟨?_, ?_, ?_⟩, ?_, fun _ => hp.segment.ne_nil, fun t ht => ?_,
        lineFeed_notMem_of_visible hp.segment.visible_eq⟩
      · rw [hp.next_eq, h.split, hp.rest_eq, List.append_assoc]
        rfl
      · rw [hp.next_eq, ← Position.after_behind, ← h.position_eq]
        rfl
      · rw [hp.next_eq]
        intro l hl
        exact absurd (hended.symm.trans hl) (Option.some_ne_none l).symm
      · rw [hp.next_eq, ← Position.after_behind, ← h.position_eq]
        exact hplace
      · rw [hp.next_eq] at ht
        exact (hp.token_eq ht).1
    · refine ⟨gap, [], ⟨?_, ?_, ?_⟩, ?_, ?_, fun t ht => ?_, List.not_mem_nil⟩
      · rw [hfinish.next_eq, h.split, hfinish.rest_eq, List.append_nil, List.append_assoc]
        rfl
      · rw [hfinish.next_eq, List.append_nil, ← Position.after_behind, ← h.position_eq]
        rfl
      · rw [hfinish.next_eq]
        intro l hl
        exact (Option.some.inj hl).symm
      · rw [hfinish.next_eq, ← Position.after_behind, ← h.position_eq]
        rfl
      · simp [hfinish.next_eq, endsInput, Token.isEnd, Token.endOfInput]
      · rw [hfinish.next_eq, Except.ok.injEq] at ht
        rw [← ht]
        rfl

theorem Behind.after (h : Behind bytes read s) (n : Nat) :
    ∃ more, Behind bytes more (s.after n) := by
  induction n with
  | zero => exact ⟨read, h⟩
  | succ n ih =>
    obtain ⟨more, hmore⟩ := ih
    obtain ⟨gap, segment, hpasses⟩ := hmore.exists_passes
    exact ⟨_, hpasses.behind⟩

theorem behind_ofBytes (file : String) (bits : Nat) (bytes : List UInt8) :
    Behind bytes [] (ofBytes file bits bytes) where
  split := rfl
  position_eq := rfl
  ended_eq := by simp [ofBytes]

/-- A place lies where the call begins to look for it or later, and unless the input has ended
the scanner then stands behind it. -/
theorem Behind.place_between (h : Behind bytes read s) :
    (s.position.offset : Int) ≤ (place s.next.1).offset ∧
      (place s.next.1).offset ≤ s.next.2.position.offset ∧
      (endsInput s.next.1 = false → (place s.next.1).offset < s.next.2.position.offset) := by
  obtain ⟨gap, segment, hpasses⟩ := h.exists_passes
  have hplace : (place s.next.1).offset = (read.length + gap.length : Nat) := by
    rw [hpasses.place_eq]
    simp [Position.behind, Position.location]
  rw [hplace, h.position_eq, hpasses.behind.position_eq]
  simp only [Position.behind, List.length_append]
  refine ⟨by omega, by omega, fun hgoing => ?_⟩
  have hpos := List.length_pos_iff.2 (hpasses.ne_nil hgoing)
  omega

theorem Behind.place_increasing (h : Behind bytes read s) {m n : Nat} (hlt : m < n)
    (hgoing : ∀ k < n, endsInput (s.after k).next.1 = false) :
    (place (s.after m).next.1).offset < (place (s.after n).next.1).offset := by
  induction n with
  | zero => omega
  | succ n ih =>
    obtain ⟨more, hmore⟩ := h.after n
    obtain ⟨more', hmore'⟩ := h.after (n + 1)
    have hbehind := hmore.place_between.2.2 (hgoing n (Nat.lt_succ_self n))
    have hahead := hmore'.place_between.1
    have hstep : (place (s.after n).next.1).offset < (place (s.after (n + 1)).next.1).offset :=
      Int.lt_of_lt_of_le hbehind hahead
    rcases Nat.lt_succ_iff_lt_or_eq.1 hlt with hlt | rfl
    · exact Int.lt_trans (ih hlt fun k hk => hgoing k (Nat.lt_succ_of_lt hk)) hstep
    · exact hstep

/-- The calls of a scanner in front of `bytes` know their places. -/
structure Placed (bytes : List UInt8) (s : Scanner) : Prop where
  state : ∀ n, (s.after n).location.Marks bytes ∧
    (s.after n).rest = bytes.drop (s.after n).position.offset
  event : ∀ n, (place (s.after n).next.1).Marks bytes
  increasing : ∀ m n, m < n → (∀ k < n, endsInput (s.after k).next.1 = false) →
    (place (s.after m).next.1).offset < (place (s.after n).next.1).offset
  lexeme : ∀ n t, (s.after n).next.1 = .ok t → t.isEnd = false →
    ∃ k : Nat, t.location.offset = k ∧
      Byte.text (Byte.slice bytes k (k + t.lexeme.length)) = t.lexeme ∧
      Byte.lineFeed ∉ Byte.slice bytes k (k + t.lexeme.length)

theorem Behind.marks (h : Behind bytes read s) : s.location.Marks bytes := by
  rw [location, h.position_eq]
  exact Location.marks_behind h.split s.file

theorem Passes.marks {gap segment : List UInt8} (h : Passes bytes read gap segment s) :
    (place s.next.1).Marks bytes := by
  rw [h.place_eq]
  have hsplit := h.behind.split
  rw [← List.append_assoc, List.append_assoc] at hsplit
  exact Location.marks_behind hsplit s.file

theorem Behind.placed (h : Behind bytes read s) : Placed bytes s where
  state n := by
    obtain ⟨more, hmore⟩ := h.after n
    refine ⟨hmore.marks, ?_⟩
    rw [hmore.position_eq, hmore.split]
    exact List.drop_left.symm
  event n := by
    obtain ⟨more, hmore⟩ := h.after n
    obtain ⟨gap, segment, hpasses⟩ := hmore.exists_passes
    exact hpasses.marks
  increasing m n hlt hgoing := h.place_increasing hlt hgoing
  lexeme n t ht _ := by
    obtain ⟨more, hmore⟩ := h.after n
    obtain ⟨gap, segment, hpasses⟩ := hmore.exists_passes
    have hlexeme := hpasses.lexeme_eq t ht
    have hplace := hpasses.place_eq
    rw [ht] at hplace
    have hslice : Byte.slice bytes (more ++ gap).length ((more ++ gap).length + segment.length) =
        segment :=
      Byte.slice_of_split (by simpa using hpasses.behind.split)
    refine ⟨(more ++ gap).length, congrArg Location.offset hplace, ?_⟩
    rw [hlexeme, Byte.length_text, hslice]
    exact ⟨rfl, hpasses.lineFeed_notMem⟩

end Scanner

def Failure.location : Failure → Location
  | .scan e => e.diagnostic.location
  | .grammar e => e.diagnostic.location

namespace Parser

open Reader

variable {bytes : List UInt8}

structure Inside (bytes : List UInt8) (r : Reader Scanner) : Prop where
  behind : ∃ read, Scanner.Behind bytes read r.source
  lookahead : r.lookahead.location.Marks bytes

theorem inside_advance {t : Token} {r r' : Reader Scanner} (h : Inside bytes r)
    (hend : r.lookahead.isEnd = false) (hadvance : advance r = .ok t r') : Inside bytes r' := by
  obtain ⟨read, hread⟩ := h.behind
  obtain ⟨gap, segment, hpasses⟩ := hread.exists_passes
  have hmarks := hpasses.marks
  have hbehind := hpasses.behind
  rcases hnext : r.source.next with ⟨e | t', s⟩
  all_goals
    have hpull : TokenSource.pull r.source = _ := hnext
    rw [hnext] at hmarks hbehind
    simp only [Reader.advance, hend, Bool.false_eq_true, if_false, hpull] at hadvance
  · contradiction
  · simp only [EStateM.Result.ok.injEq] at hadvance
    obtain ⟨_, rfl⟩ := hadvance
    exact ⟨⟨_, hbehind⟩, hmarks⟩

theorem inside_consumes {us : List Token} {r r' : Reader Scanner} (h : Inside bytes r)
    (hus : Consumes r us r') : Inside bytes r' := by
  induction hus with
  | nil => exact h
  | cons hend first _ ih =>
    obtain ⟨rfl, _⟩ := advance_eq_ok first
    exact ih (inside_advance h hend first)

structure Placed (bytes : List UInt8) (p : Parser Scanner) : Prop where
  inside : p.failure = none → Inside bytes p.reader
  failure : ∀ e, p.failure = some e → e.location.Marks bytes

theorem Placed.next {p : Parser Scanner} (h : Placed bytes p) : Placed bytes p.next.2 := by
  cases hfailure : p.failure with
  | some e => simpa [next_of_failure hfailure] using h
  | none =>
    have hfresh : Inside bytes p.reader.fresh := ⟨(h.inside hfailure).1, (h.inside hfailure).2⟩
    rcases hnext : p.next with ⟨e | _ | f, q⟩
    · rcases next_eq_error.1 hnext with ⟨hsome, _⟩ | ⟨_, r', hstatement, rfl⟩
      · simp [hfailure] at hsome
      obtain ⟨us, r₁, hus, _, _, hcause⟩ := stops_of_statement hstatement
      obtain ⟨⟨read, hread⟩, hlookahead⟩ := inside_consumes hfresh hus
      refine ⟨by simp, fun e' he' => ?_⟩
      obtain rfl := Option.some.inj he'
      rcases hcause with ⟨x, rfl, htoken, _⟩ | ⟨x, rfl, _, hpull⟩
      · rw [Failure.location, SyntaxError.diagnostic, htoken]
        exact hlookahead
      · obtain ⟨gap, segment, hpasses⟩ := hread.exists_passes
        have hmarks := hpasses.marks
        have hevent : r₁.source.next.1 = .error x := congrArg Prod.fst hpull
        rwa [hevent] at hmarks
    · obtain ⟨_, _, _, rfl⟩ := next_none hnext
      exact ⟨fun _ => hfresh, by simp [hfailure]⟩
    · obtain ⟨_, hnone, _, hus, _⟩ := next_some hnext
      exact ⟨fun _ => inside_consumes hfresh hus, by simp [hnone]⟩

theorem Placed.calls {p q : Parser Scanner} {us : List Token} (h : Placed bytes p)
    (hcalls : Calls p us q) : Placed bytes q := by
  induction hcalls with
  | none => exact h
  | next _ ih => exact ih.next

theorem placed_of_start {s : Scanner} {read : List UInt8} (h : Scanner.Behind bytes read s)
    {maxDepth : Int} {p : Parser Scanner} (hp : start maxDepth s = .ok p) : Placed bytes p := by
  obtain ⟨t, s', hpull, rfl⟩ := eq_of_start hp
  obtain ⟨gap, segment, hpasses⟩ := h.exists_passes
  have hnext : s.next = (.ok t, s') := hpull
  have hmarks := hpasses.marks
  have hbehind := hpasses.behind
  rw [hnext] at hmarks hbehind
  exact ⟨fun _ => ⟨⟨_, hbehind⟩, hmarks⟩, by simp⟩

theorem pull_of_start_error {s : Scanner} {maxDepth : Int} {e : ScanError}
    (h : start maxDepth s = .error (.scan e)) : s.next.1 = .error e := by
  by_cases hdepth : 0 < maxDepth
  · rw [start_eq hdepth] at h
    rcases hnext : s.next with ⟨e' | t, s'⟩
    all_goals
      have hpull : TokenSource.pull s = _ := hnext
      simp only [hpull] at h
    · injection h with h
      injection h with h
      rw [h]
    · contradiction
  · rw [start_of_nonpos (Int.not_lt.1 hdepth)] at h
    cases h

/-- Positions are right: those of a scanner after any calls, of what its calls deliver, and of
what a parser on it reports, however many tokens have been taken before. -/
theorem places_are_right (file : String) (bits : Int) (bytes : List UInt8) {s : Scanner}
    (hs : Scanner.start file bits bytes = .ok s) :
    Scanner.Placed bytes s ∧ ∀ n maxDepth,
      (∀ e, start maxDepth (s.after n) = .error (.scan e) → e.diagnostic.location.Marks bytes) ∧
      ∀ p, start maxDepth (s.after n) = .ok p → ∀ e, p.Raises e → e.location.Marks bytes := by
  obtain rfl := Scanner.eq_ofBytes_of_start hs
  have hstart := Scanner.behind_ofBytes file bits.toNat bytes
  refine ⟨hstart.placed, fun n maxDepth => ?_⟩
  obtain ⟨read, hread⟩ := hstart.after n
  refine ⟨fun e he => ?_, fun p hp e he => ?_⟩
  · obtain ⟨gap, segment, hpasses⟩ := hread.exists_passes
    have hmarks := hpasses.marks
    rwa [pull_of_start_error he] at hmarks
  · obtain ⟨us, q, hcalls, hfailure⟩ := he.calls
    exact ((placed_of_start hread hp).calls hcalls).failure e hfailure

/-- Behind a line feed a byte that begins nothing, a name, and a parenthesis that closes nothing. -/
theorem places_are_right_resumed :
    let bytes : List UInt8 := [0x31, 0x0a, 0x20, 0x24, 0x78, 0x29]
    let s := Scanner.ofBytes "f" 64 bytes
    let e : SyntaxError := ⟨.invalidExpression, ⟨.rightParen, ")", ⟨"f", 2, 4, 5⟩, none⟩⟩
    Scanner.start "f" 64 bytes = .ok s ∧ Scanner.Placed bytes s ∧
      (s.after 1).next.1 = .error ⟨.invalidByte 0x24, ⟨"f", 2, 2, 3⟩⟩ ∧
      Location.Marks bytes ⟨"f", 2, 2, 3⟩ ∧
      (s.after 2).next.1 = .ok ⟨.identifier "x", "x", ⟨"f", 2, 3, 4⟩, none⟩ ∧
      Location.Marks bytes ⟨"f", 2, 3, 4⟩ ∧
      ∃ p, start 1 (s.after 2) = .ok p ∧ p.Raises (.grammar e) ∧
        Location.Marks bytes ⟨"f", 2, 4, 5⟩ := by
  intro bytes s e
  obtain ⟨hplaced, hparsers⟩ := places_are_right "f" 64 bytes (s := s) rfl
  obtain ⟨p, hstart, q, hall⟩ : ∃ p, start 1 (s.after 2) = .ok p ∧
      ∃ q, p.all = (.error (.grammar e), q) := ⟨_, rfl, _, rfl⟩
  have hraises : p.Raises (.grammar e) := ⟨q, .inl hall⟩
  exact ⟨rfl, hplaced, rfl, hplaced.event 1, rfl, hplaced.event 2, p, hstart, hraises,
    (hparsers 2 1).2 p hstart _ hraises⟩

end Parser
end ExprLang
