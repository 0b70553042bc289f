import ExprLang.Scanner
import Mathlib.Algebra.Group.Nat.Defs

/-!
# Segments of a source

The stretches of bytes that a scanner turns into tokens and errors, told apart by the bytes alone:
the longest runs of digits and of letters and digits, single bytes of punctuation, and single
bytes that begin nothing. A call of the scanner skips the blanks in front of it and then delivers
what the segment behind them stands for.
-/
namespace ExprLang

namespace Numeral

def decimal : List UInt8 → Nat
  | [] => 0
  | digit :: digits => digitValue digit * 10 ^ digits.length + decimal digits

theorem foldl_step_none (limit : Nat) (digits : List UInt8) :
    digits.foldl (step limit) none = none := by
  induction digits with
  | nil => rfl
  | cons digit digits ih => exact ih

/-- Giving up early loses nothing, since further digits never make a number smaller. -/
theorem foldl_step (limit : Nat) (digits : List UInt8) {n : Nat} (hn : n ≤ limit) :
    digits.foldl (step limit) (some n) =
      if limit < n * 10 ^ digits.length + decimal digits then none
      else some (n * 10 ^ digits.length + decimal digits) := by
  induction digits generalizing n with
  | nil =>
    have hle : ¬ limit < n := by omega
    simp [decimal, hle]
  | cons digit digits ih =>
    have hvalue : n * 10 ^ (digit :: digits).length + decimal (digit :: digits) =
        (n * 10 + digitValue digit) * 10 ^ digits.length + decimal digits := by
      simp only [decimal, List.length_cons, Nat.pow_succ, Nat.add_mul, Nat.mul_assoc, Nat.add_assoc,
        Nat.mul_comm 10]
    rw [hvalue, List.foldl_cons]
    by_cases hlarge : limit < n * 10 + digitValue digit
    · -- the full value is larger still, however many digits follow
      have hpos : 0 < 10 ^ digits.length := Nat.pow_pos (by omega)
      have hle := Nat.le_mul_of_pos_right (n * 10 + digitValue digit) hpos
      rw [if_pos (by omega)]
      simp only [step, hlarge, if_true]
      exact foldl_step_none limit digits
    · simp only [step, hlarge, if_false]
      exact ih (by omega)

theorem read_eq (limit : Nat) (digits : List UInt8) :
    read limit digits = if limit < decimal digits then none else some (decimal digits) := by
  simpa [read] using foldl_step limit digits (Nat.zero_le limit)

end Numeral

theorem Keyword.spelling_of_ofSpelling? {word : String} {k : Keyword}
    (h : Keyword.ofSpelling? word = some k) : word = k.spelling := by
  have hfound := List.find?_some h
  exact (beq_iff_eq.1 hfound).symm

theorem Keyword.mem_all (k : Keyword) : k ∈ Keyword.all := by
  cases k <;> simp [Keyword.all]

theorem Keyword.ne_spelling_of_ofSpelling? {word : String} (h : Keyword.ofSpelling? word = none)
    (k : Keyword) : word ≠ k.spelling := by
  have hne := List.find?_eq_none.1 h k k.mem_all
  intro heq
  subst heq
  exact hne (beq_self_eq_true _)

theorem Byte.symbol_of_punctuation {byte : UInt8} {op : Operator}
    (h : (byte, Terminal.operator op) ∈ Byte.punctuation) : Byte.text [byte] = op.symbol := by
  simp only [Byte.punctuation, List.mem_cons, Prod.mk.injEq, reduceCtorEq, Terminal.operator.injEq,
    and_false, false_or, List.not_mem_nil, or_false] at h
  rcases h with ⟨rfl, rfl⟩ | ⟨rfl, rfl⟩ | ⟨rfl, rfl⟩ | ⟨rfl, rfl⟩ | ⟨rfl, rfl⟩ <;> decide

theorem Byte.mem_of_lookup {byte : UInt8} {terminal : Terminal}
    (h : punctuation.lookup byte = some terminal) : (byte, terminal) ∈ punctuation := by
  obtain ⟨before, after, hsplit, _⟩ := List.lookup_eq_some_iff.1 h
  simp [hsplit]

/-- No byte of the class comes next. -/
def EndsRun (p : UInt8 → Bool) (rest : List UInt8) : Prop :=
  ∀ byte, rest.head? = some byte → p byte = false

/-- `Segment bits place segment rest event`: the bytes `segment` in front of `rest` are one token
or one error, `event`, where numbers are `bits` wide. -/
inductive Segment (bits : Nat) (place : Location) :
    List UInt8 → List UInt8 → Except ScanError Token → Prop
  | number {digits rest : List UInt8} (nonempty : digits ≠ [])
      (inside : ∀ byte ∈ digits, Numeral.isDigit byte = true)
      (maximal : EndsRun Numeral.isDigit rest) (fits : Numeral.decimal digits ≤ 2 ^ bits - 1) :
      Segment bits place digits rest
        (.ok ⟨.number (Numeral.decimal digits), Byte.text digits, place, none⟩)
  | overflow {digits rest : List UInt8} (nonempty : digits ≠ [])
      (inside : ∀ byte ∈ digits, Numeral.isDigit byte = true)
      (maximal : EndsRun Numeral.isDigit rest) (large : 2 ^ bits - 1 < Numeral.decimal digits) :
      Segment bits place digits rest (.error ⟨.numberOverflow (Byte.text digits) bits, place⟩)
  | identifier {letter : UInt8} {bytes rest : List UInt8} (begins : Byte.isLetter letter = true)
      (inside : ∀ byte ∈ bytes, Byte.isWordByte byte = true)
      (maximal : EndsRun Byte.isWordByte rest)
      (free : ∀ k : Keyword, Byte.text (letter :: bytes) ≠ k.spelling) :
      Segment bits place (letter :: bytes) rest
        (.ok ⟨.identifier (Byte.text (letter :: bytes)), Byte.text (letter :: bytes), place, none⟩)
  | keyword {letter : UInt8} {bytes rest : List UInt8} {k : Keyword}
      (begins : Byte.isLetter letter = true)
      (inside : ∀ byte ∈ bytes, Byte.isWordByte byte = true)
      (maximal : EndsRun Byte.isWordByte rest)
      (spelt : Byte.text (letter :: bytes) = k.spelling) :
      Segment bits place (letter :: bytes) rest
        (.ok ⟨.keyword k, Byte.text (letter :: bytes), place, none⟩)
  | punctuation {byte : UInt8} {rest : List UInt8} {terminal : Terminal}
      (listed : (byte, terminal) ∈ Byte.punctuation)
      (matching : ∀ op, terminal = .operator op → Byte.text [byte] = op.symbol) :
      Segment bits place [byte] rest (.ok ⟨terminal, Byte.text [byte], place, none⟩)
  | invalid {byte : UInt8} {rest : List UInt8} (nonzero : byte ≠ Byte.sentinel)
      (visible : Byte.isBlank byte = false) (noDigit : Numeral.isDigit byte = false)
      (noLetter : Byte.isLetter byte = false)
      (unlisted : ∀ terminal, (byte, terminal) ∉ Byte.punctuation) :
      Segment bits place [byte] rest (.error ⟨.invalidByte byte.toNat, place⟩)

namespace Segment

variable {bits : Nat} {place : Location} {segment rest : List UInt8}
  {event : Except ScanError Token}

theorem ne_nil (h : Segment bits place segment rest event) : segment ≠ [] := by
  cases h with
  | number nonempty | overflow nonempty => exact nonempty
  | _ => simp

theorem isDigit_ne_sentinel {byte : UInt8} (h : Numeral.isDigit byte = true) :
    byte ≠ Byte.sentinel := by
  intro heq
  subst heq
  simp [Numeral.isDigit, Byte.sentinel] at h

theorem isWordByte_ne_sentinel {byte : UInt8} (h : Byte.isWordByte byte = true) :
    byte ≠ Byte.sentinel := by
  intro heq
  subst heq
  revert h
  decide

/-- A word is a segment where it is over, whether it is a keyword or not. -/
theorem of_word {letter : UInt8} {bytes : List UInt8} (begins : Byte.isLetter letter = true)
    (inside : ∀ byte ∈ bytes, Byte.isWordByte byte = true)
    (maximal : EndsRun Byte.isWordByte rest) :
    Segment bits place (letter :: bytes) rest
      (.ok ⟨.ofWord (Byte.text (letter :: bytes)), Byte.text (letter :: bytes), place, none⟩) := by
  unfold Terminal.ofWord
  cases hkeyword : Keyword.ofSpelling? (Byte.text (letter :: bytes)) with
  | none => exact .identifier begins inside maximal (Keyword.ne_spelling_of_ofSpelling? hkeyword)
  | some k => exact .keyword begins inside maximal (Keyword.spelling_of_ofSpelling? hkeyword)

/-- The byte that ends the input is in no segment. -/
theorem ne_sentinel (h : Segment bits place segment rest event) :
    ∀ byte ∈ segment, byte ≠ Byte.sentinel := by
  intro byte hbyte
  cases h with
  | number _ inside | overflow _ inside => exact isDigit_ne_sentinel (inside byte hbyte)
  | identifier begins inside | keyword begins inside =>
    rcases List.mem_cons.1 hbyte with rfl | hbyte
    · exact isWordByte_ne_sentinel (by simp [Byte.isWordByte, begins])
    · exact isWordByte_ne_sentinel (inside byte hbyte)
  | @punctuation b _ terminal listed =>
    obtain rfl := List.mem_singleton.1 hbyte
    intro heq
    subst heq
    simp [Byte.punctuation, Byte.sentinel] at listed
  | invalid nonzero =>
    obtain rfl := List.mem_singleton.1 hbyte
    exact nonzero

theorem error_location {e : ScanError} (h : Segment bits place segment rest (.error e)) :
    e.location = place := by
  cases h <;> rfl

end Segment

theorem Position.after_append (p : Position) (bytes more : List UInt8) :
    p.after (bytes ++ more) = (p.after bytes).after more := by
  simp [Position.after]

theorem Position.offset_after (p : Position) (bytes : List UInt8) :
    (p.after bytes).offset = p.offset + bytes.length := by
  induction bytes generalizing p with
  | nil => rfl
  | cons byte bytes ih =>
    have hone : (p.advance byte).offset = p.offset + 1 := by
      unfold Position.advance
      split <;> rfl
    have hrest := ih (p.advance byte)
    simp only [Position.after, List.foldl_cons, List.length_cons] at hrest ⊢
    omega

theorem endsRun_dropWhile (p : UInt8 → Bool) (bytes : List UInt8) :
    EndsRun p (bytes.dropWhile p) := by
  intro byte hbyte
  have hhead := List.head?_dropWhile_not p bytes
  rwa [hbyte] at hhead

theorem inside_takeWhile (p : UInt8 → Bool) (bytes : List UInt8) :
    ∀ byte ∈ bytes.takeWhile p, p byte = true :=
  List.all_eq_true.1 List.all_takeWhile

namespace Scanner

variable {s : Scanner} {byte : UInt8} {rest : List UInt8}

def past (s : Scanner) (bytes rest : List UInt8) : Scanner :=
  { s with rest, position := s.position.after bytes }

/-- A scan in front of a segment has read it and stands right behind it. -/
def Reads (s : Scanner) (result : Except ScanError Token × Scanner) : Prop :=
  ∃ segment rest, s.rest = segment ++ rest ∧ result.2 = s.past segment rest ∧
    Segment s.numberBits s.location segment rest result.1

theorem maxNumber_eq (s : Scanner) : s.maxNumber = 2 ^ s.numberBits - 1 := rfl

theorem reads_scanNumber (hrest : s.rest = byte :: rest) (hdigit : Numeral.isDigit byte = true) :
    Reads s s.scanNumber := by
  have hnonempty : s.run Numeral.isDigit ≠ [] := by
    simp [run, hrest, List.takeWhile_cons_of_pos hdigit]
  have hinside := inside_takeWhile Numeral.isDigit s.rest
  have hmaximal := endsRun_dropWhile Numeral.isDigit s.rest
  refine ⟨s.run Numeral.isDigit, s.rest.dropWhile Numeral.isDigit,
    List.takeWhile_append_dropWhile.symm, rfl, ?_⟩
  simp only [scanNumber, Numeral.read_eq, maxNumber_eq]
  by_cases hlarge : 2 ^ s.numberBits - 1 < Numeral.decimal (s.run Numeral.isDigit)
  · simpa only [hlarge, if_true] using Segment.overflow hnonempty hinside hmaximal hlarge
  · simpa only [hlarge, if_false] using
      Segment.number hnonempty hinside hmaximal (Nat.le_of_not_lt hlarge)

theorem reads_scanWord (hrest : s.rest = byte :: rest) (hletter : Byte.isLetter byte = true) :
    Reads s s.scanWord := by
  have hword : Byte.isWordByte byte = true := by simp [Byte.isWordByte, hletter]
  have hrun : s.run Byte.isWordByte = byte :: rest.takeWhile Byte.isWordByte := by
    rw [run, hrest, List.takeWhile_cons_of_pos hword]
  have hinside := inside_takeWhile Byte.isWordByte rest
  have hmaximal := endsRun_dropWhile Byte.isWordByte s.rest
  refine ⟨s.run Byte.isWordByte, s.rest.dropWhile Byte.isWordByte,
    List.takeWhile_append_dropWhile.symm, rfl, ?_⟩
  simp only [scanWord, hrun]
  exact .of_word hletter hinside hmaximal

theorem reads_scanByte (hrest : s.rest = byte :: rest) (hnonzero : byte ≠ Byte.sentinel)
    (hvisible : Byte.isBlank byte = false) (hdigit : Numeral.isDigit byte = false)
    (hletter : Byte.isLetter byte = false) : Reads s (s.scanByte byte rest) := by
  refine ⟨[byte], rest, hrest, rfl, ?_⟩
  simp only [scanByte]
  cases hlookup : Byte.punctuation.lookup byte with
  | some terminal =>
    have hlisted := Byte.mem_of_lookup hlookup
    refine .punctuation hlisted fun op hop => ?_
    exact Byte.symbol_of_punctuation (hop ▸ hlisted)
  | none =>
    refine .invalid hnonzero hvisible hdigit hletter fun terminal hlisted => ?_
    have hne := List.lookup_eq_none_iff.1 hlookup _ hlisted
    simp at hne

end Scanner

structure Piece where
  gap : List UInt8
  segment : List UInt8
  event : Except ScanError Token

def Piece.bytes (p : Piece) : List UInt8 := p.gap ++ p.segment

namespace Scanner

/-- A call that delivers the event of a piece and stands right behind the piece. -/
structure Delivers (s : Scanner) (p : Piece) (rest : List UInt8) : Prop where
  next_eq : s.next = (p.event, s.past p.bytes rest)
  rest_eq : s.rest = p.bytes ++ rest
  blank : ∀ byte ∈ p.gap, Byte.isBlank byte = true
  segment : Segment s.numberBits ((s.position.after p.gap).location s.file) p.segment rest p.event

/-- A call that finds the end of input behind some blanks. -/
structure Finishes (s : Scanner) (gap rest : List UInt8) : Prop where
  next_eq : s.next = (.ok (.endOfInput ((s.position.after gap).location s.file)),
    { s.past gap rest with ended := some ((s.position.after gap).location s.file) })
  rest_eq : s.rest = gap ++ rest
  blank : ∀ byte ∈ gap, Byte.isBlank byte = true
  ends : EndsRun (· != Byte.sentinel) rest

theorem next_of_ended {s : Scanner} {place : Location} (h : s.ended = some place) :
    s.next = (.ok (.endOfInput place), s) := by
  simp only [next, h]

theorem delivers_of_reads {s : Scanner} (h : s.ended = none)
    (hreads : Reads s.skipBlanks s.skipBlanks.scan) : ∃ p rest, Delivers s p rest := by
  obtain ⟨segment, rest, hrest, hstate, hsegment⟩ := hreads
  refine ⟨⟨s.run Byte.isBlank, segment, s.skipBlanks.scan.1⟩, rest, ?_, ?_, ?_, hsegment⟩
  · have hnext : s.next = s.skipBlanks.scan := by simp only [next, h]
    rw [hnext, past, Piece.bytes, Position.after_append]
    exact Prod.ext rfl hstate
  · have hsplit : s.rest = s.run Byte.isBlank ++ s.skipBlanks.rest :=
      List.takeWhile_append_dropWhile.symm
    simp only [Piece.bytes, List.append_assoc]
    rw [← hrest, ← hsplit]
  · exact inside_takeWhile Byte.isBlank s.rest

theorem finishes_of_ends {s : Scanner} (h : s.ended = none)
    (hscan : s.skipBlanks.scan = s.skipBlanks.finish)
    (hends : EndsRun (· != Byte.sentinel) s.skipBlanks.rest) :
    Finishes s (s.run Byte.isBlank) s.skipBlanks.rest where
  next_eq := by
    simp only [next, h, hscan]
    rfl
  rest_eq := List.takeWhile_append_dropWhile.symm
  blank := inside_takeWhile Byte.isBlank s.rest
  ends := hends

/-- Before the input has ended a call delivers a piece or the end of input. -/
theorem delivers_or_finishes {s : Scanner} (h : s.ended = none) :
    (∃ p rest, Delivers s p rest) ∨ ∃ gap rest, Finishes s gap rest := by
  have hvisible := endsRun_dropWhile Byte.isBlank s.rest
  cases hrest : s.skipBlanks.rest with
  | nil =>
    refine .inr ⟨_, _, finishes_of_ends h ?_ ?_⟩
    · simp [scan, hrest]
    · simp [EndsRun, hrest]
  | cons byte rest =>
    have hblank : Byte.isBlank byte = false := hvisible byte (congrArg List.head? hrest)
    by_cases hzero : byte = Byte.sentinel
    · refine .inr ⟨_, _, finishes_of_ends h ?_ ?_⟩
      · simp [scan, hrest, hzero]
      · simp [EndsRun, hrest, hzero]
    refine .inl (delivers_of_reads h ?_)
    by_cases hdigit : Numeral.isDigit byte = true
    · simpa [scan, hrest, hzero, hdigit] using reads_scanNumber hrest hdigit
    by_cases hletter : Byte.isLetter byte = true
    · simpa [scan, hrest, hzero, hdigit, hletter] using reads_scanWord hrest hletter
    · simpa [scan, hrest, hzero, hdigit, hletter] using
        reads_scanByte hrest hzero hblank (by simpa using hdigit) (by simpa using hletter)

/-- What a call delivers is the end of input, or a segment stands for it. -/
theorem ends_or_segment (s : Scanner) : (∃ place, s.next.1 = .ok (.endOfInput place)) ∨
    ∃ place segment rest, Segment s.numberBits place segment rest s.next.1 := by
  cases hended : s.ended with
  | some place => exact .inl ⟨place, congrArg Prod.fst (next_of_ended hended)⟩
  | none =>
    rcases delivers_or_finishes hended with ⟨p, rest, hp⟩ | ⟨gap, rest, hfinish⟩
    · rw [hp.next_eq]
      exact .inr ⟨_, _, _, hp.segment⟩
    · exact .inl ⟨_, congrArg Prod.fst hfinish.next_eq⟩

end Scanner
end ExprLang
