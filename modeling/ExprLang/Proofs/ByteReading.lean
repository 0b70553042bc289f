import ExprLang.Proofs.Places
import ExprLang.Proofs.Shortages

/-!
# Reading byte by byte

Scanning with a cursor in the source. Nothing checks whether there is a byte to take before one is
taken, whether a stretch of bytes is ASCII before it becomes text, or whether the host writes the
numbers in the text of an error; each would be a crash. From no state is there one of the first two
kinds: each byte is taken where a byte other than the sentinel has been seen, and the runs that
become text have ASCII bytes only. One of the last kind there is exactly where a number is too large
for a width whose largest number the host does not write. All else comes to what the scanner makes
of the bytes ahead.
-/
namespace ExprLang

/-- A source as it is given; a text stands for its encoding. -/
inductive Source
  | bytes (bytes : List UInt8)
  | text (text : String)
  deriving DecidableEq, Repr

def Source.toBytes : Source → List UInt8
  | .bytes given => given
  | .text given => Byte.ofText given

/-- What no caller of a scanner is prepared for. -/
inductive Crash
  | outOfBounds (offset : Nat)
  | notAscii (bytes : List UInt8)
  | unwritten (number : Int)
  deriving DecidableEq, Repr

inductive Raised
  | crash (c : Crash)
  | error (e : ScanError)
  deriving DecidableEq, Repr

/-- What is raised for an error: its texts are written first, number by number. -/
def Raised.ofError (host : Host) (e : ScanError) : Raised :=
  match e.fault.numbers.find? fun n => !host.writes n with
  | some n => .crash (.unwritten n)
  | none => .error e

namespace Raised

variable {host : Host} {e : ScanError}

theorem unwritten_of_ofError {crash : Crash} (h : ofError host e = .crash crash) :
    ∃ n, crash = .unwritten n := by
  unfold ofError at h
  split at h
  · next n _ => exact ⟨n, (Raised.crash.inj h).symm⟩
  · contradiction

theorem exists_crash_iff : (∃ crash, ofError host e = .crash crash) ↔
    ∃ n ∈ e.fault.numbers, host.writes n = false := by
  unfold ofError
  cases hfind : e.fault.numbers.find? fun n => !host.writes n with
  | none =>
    have hall := List.find?_eq_none.1 hfind
    simpa using hall
  | some n =>
    have hn := List.find?_some hfind
    simp only [Raised.crash.injEq, exists_eq', true_iff]
    exact ⟨n, List.mem_of_find?_eq_some hfind, by simpa using hn⟩

end Raised

/-- A token as the parts it is made from, where nothing ties the value to the kind. -/
structure RawToken where
  kind : Kind
  lexeme : String
  value : Option TokenValue
  location : Location
  deriving DecidableEq, Repr

namespace RawToken

def endOfInput (location : Location) : RawToken := ⟨.endOfInput, "", none, location⟩

def ofToken (t : Token) : RawToken := ⟨t.kind, t.lexeme, t.value?, t.location⟩

/-- An operator token carries its operator. -/
theorem operator_of_kind {t : Token} (h : (ofToken t).kind = .operator) :
    ∃ op, (ofToken t).value = some (.operator op) := by
  obtain ⟨terminal, lexeme, location, note⟩ := t
  cases terminal with
  | operator op => exact ⟨op, rfl⟩
  | _ => simp [ofToken, Token.kind, Terminal.kind] at h

theorem isEnd_of_kind {t : Token} (h : (ofToken t).kind ≠ .endOfInput) : t.isEnd = false := by
  refine beq_eq_false_iff_ne.2 fun hend => h ?_
  simp [ofToken, Token.kind, hend, Terminal.kind]

end RawToken

structure Cursor where
  file : String
  numberBits : Nat
  source : List UInt8
  position : Position
  ended : Option Location
  deriving DecidableEq, Repr

abbrev ByteReading := EStateM Raised Cursor

namespace Byte

def kinds : List (UInt8 × Kind) :=
  [(0x28, .leftParen), (0x29, .rightParen), (0x2c, .comma)]
    ++ operators.map fun (byte, _) => (byte, .operator)

/-- A byte is in both tables with its kind and its operator. -/
theorem entry_of_lookup {byte : UInt8} {terminal : Terminal}
    (h : punctuation.lookup byte = some terminal) : kinds.lookup byte = some terminal.kind ∧
      (if terminal.kind = .operator then (operators.lookup byte).map .operator else none) =
        terminal.value? := by
  have hentries : ∀ entry ∈ punctuation, kinds.lookup entry.1 = some entry.2.kind ∧
      (if entry.2.kind = .operator then (operators.lookup entry.1).map .operator else none) =
        entry.2.value? := by decide
  exact hentries (byte, terminal) (mem_of_lookup h)

theorem kinds_eq_none {byte : UInt8} (h : punctuation.lookup byte = none) :
    kinds.lookup byte = none := by
  have hkeys : ∀ entry ∈ kinds, ∃ listed ∈ punctuation, listed.1 = entry.1 := by decide
  refine List.lookup_eq_none_iff.2 fun entry hentry => ?_
  obtain ⟨listed, hlisted, hkey⟩ := hkeys entry hentry
  exact hkey ▸ List.lookup_eq_none_iff.1 h listed hlisted

theorem ascii_of_isWordByte {byte : UInt8} (h : isWordByte byte = true) : byte < 0x80 := by
  have hascii := ascii_of_isAlphanum (isAlphanum_ofUInt8 h)
  rw [toNat_ofUInt8] at hascii
  exact UInt8.lt_iff_toNat_lt.2 hascii

end Byte

theorem Scanner.numberBits_after (s : Scanner) (n : Nat) :
    (s.after n).numberBits = s.numberBits := by
  induction n with
  | zero => rfl
  | succ n ih => rw [after, numberBits_next, ih]

theorem Scanner.offset_lt_next (s : Scanner) (h : endsInput s.next.1 = false) :
    s.position.offset < s.next.2.position.offset := by
  cases hended : s.ended with
  | some place => simp [next_of_ended hended, endsInput, Token.isEnd, Token.endOfInput] at h
  | none =>
    rcases delivers_or_finishes hended with ⟨p, rest, hp⟩ | ⟨gap, rest, hfinish⟩
    · have hpos := List.length_pos_iff.2 hp.segment.ne_nil
      simp only [hp.next_eq, past, Position.offset_after, Piece.bytes, List.length_append]
      omega
    · simp [hfinish.next_eq, endsInput, Token.isEnd, Token.endOfInput] at h

namespace Cursor

def start (file : String) (numberBits : Nat) (source : Source) : Cursor :=
  ⟨file, numberBits, source.toBytes, Position.start, none⟩

def location (c : Cursor) : Location := c.position.location c.file

/-- The byte at the cursor, with the sentinel past the end of the source. -/
def ahead (c : Cursor) : UInt8 :=
  if h : c.position.offset < c.source.length then c.source[c.position.offset] else Byte.sentinel

def consume : ByteReading UInt8 := fun c =>
  match c.source[c.position.offset]? with
  | some byte => .ok byte { c with position := c.position.advance byte }
  | none => .error (.crash (.outOfBounds c.position.offset)) c

/-- The bytes from an offset up to the cursor as text, which must be ASCII. -/
def decode (first : Nat) : ByteReading String := fun c =>
  let bytes := Byte.slice c.source first c.position.offset
  if bytes.all (· < 0x80) then .ok (Byte.text bytes) c else .error (.crash (.notAscii bytes)) c

theorem length_sub_consume {c c' : Cursor} {byte : UInt8} (h : c.consume = .ok byte c') :
    c'.source.length - c'.position.offset < c.source.length - c.position.offset := by
  unfold consume at h
  split at h
  · next hbyte =>
    obtain ⟨hlt, _⟩ := List.getElem?_eq_some_iff.1 hbyte
    rw [EStateM.Result.ok.injEq] at h
    obtain ⟨rfl, rfl⟩ := h
    have hoffset := Position.offset_after c.position [‹UInt8›]
    exact Nat.sub_lt_sub_left hlt (hoffset ▸ Nat.lt_succ_self _)
  · contradiction

/-- While the byte ahead is of a class, take it and reckon it in. -/
def consumeWhile {α : Type} (p : UInt8 → Bool) (f : α → UInt8 → α) (a : α) (c : Cursor) :
    EStateM.Result Raised Cursor α :=
  if p c.ahead then
    match _ : c.consume with
    | .ok byte c' => consumeWhile p f (f a byte) c'
    | .error e c' => .error e c'
  else .ok a c
termination_by c.source.length - c.position.offset
decreasing_by exact length_sub_consume (by assumption)

/-- A run of digits; what they come to is given up once it is too large. -/
def number (host : Host) (location : Location) : ByteReading RawToken := do
  let c ← get
  let value ← consumeWhile Numeral.isDigit (Numeral.step (Nat.pow 2 c.numberBits - 1)) (some 0)
  let lexeme ← decode c.position.offset
  match value with
  | some n => return ⟨.number, lexeme, some (.number n), location⟩
  | none => throw (.ofError host ⟨.numberOverflow lexeme c.numberBits, location⟩)

def word (location : Location) : ByteReading RawToken := do
  let c ← get
  consumeWhile Byte.isWordByte (fun _ _ => ()) ()
  let lexeme ← decode c.position.offset
  match Keyword.ofSpelling? lexeme with
  | some k => return ⟨.keyword k, lexeme, none, location⟩
  | none => return ⟨.identifier, lexeme, some (.text lexeme), location⟩

/-- One byte, whose operator is looked up apart from its kind. -/
def punctuation (host : Host) (location : Location) : ByteReading RawToken := do
  let byte ← consume
  match Byte.kinds.lookup byte with
  | none => throw (.ofError host ⟨.invalidByte byte.toNat, location⟩)
  | some kind =>
      let value := if kind = .operator then (Byte.operators.lookup byte).map .operator else none
      return ⟨kind, Byte.text [byte], value, location⟩

def scan (host : Host) : ByteReading RawToken := do
  let c ← get
  if c.ahead = Byte.sentinel then
    set { c with ended := some c.location }
    return .endOfInput c.location
  else if Numeral.isDigit c.ahead then number host c.location
  else if Byte.isLetter c.ahead then word c.location
  else punctuation host c.location

def next (host : Host) : ByteReading RawToken := do
  match (← get).ended with
  | some place => return .endOfInput place
  | none =>
      consumeWhile Byte.isBlank (fun _ _ => ()) ()
      scan host

def afterCall : EStateM.Result Raised Cursor RawToken → Cursor
  | .ok _ c => c
  | .error _ c => c

def after (host : Host) (c : Cursor) : Nat → Cursor
  | 0 => c
  | n + 1 => afterCall (next host (c.after host n))

def scanner (c : Cursor) : Scanner :=
  ⟨c.file, c.numberBits, c.source.drop c.position.offset, c.position, c.ended⟩

def follow (c : Cursor) (s : Scanner) : Cursor :=
  { c with position := s.position, ended := s.ended }

/-- What a call of a scanner comes to, for a cursor that goes where the scanner goes. -/
def reply (host : Host) (c : Cursor) :
    Except ScanError Token × Scanner → EStateM.Result Raised Cursor RawToken
  | (.ok t, s) => .ok (.ofToken t) (c.follow s)
  | (.error e, s) => .error (.ofError host e) (c.follow s)

section Reading

variable {α β : Type} {host : Host} {c c' : Cursor} {bytes more : List UInt8} {byte : UInt8}

theorem bind_of_ok {x : ByteReading α} {f : α → ByteReading β} {a : α} (h : x c = .ok a c') :
    (x >>= f) c = f a c' := by
  simp [bind, EStateM.bind, h]

theorem get_bind {f : Cursor → ByteReading β} : (get >>= f) c = f c c := rfl

def past (c : Cursor) (bytes : List UInt8) : Cursor :=
  { c with position := c.position.after bytes }

theorem past_append : (c.past bytes).past more = c.past (bytes ++ more) := by
  simp [past, Position.after_append]

theorem rest_past (h : c.scanner.rest = bytes ++ more) : (c.past bytes).scanner.rest = more := by
  have hdrop : c.source.drop c.position.offset = bytes ++ more := h
  simp only [scanner, past, Position.offset_after]
  rw [← List.drop_drop, hdrop, List.drop_left]

theorem ahead_eq (c : Cursor) : c.ahead = c.scanner.rest.headD Byte.sentinel := by
  simp only [ahead, scanner]
  split
  · next h => rw [List.drop_eq_getElem_cons h]; rfl
  · next h => rw [List.drop_eq_nil_of_le (Nat.le_of_not_lt h)]; rfl

theorem consume_of_rest (h : c.scanner.rest = byte :: more) :
    c.consume = .ok byte (c.past [byte]) := by
  have hdrop : c.source.drop c.position.offset = byte :: more := h
  have hbyte : c.source[c.position.offset]? = some byte := by
    rw [← List.head?_drop, hdrop, List.head?_cons]
  simp only [consume, hbyte]
  rfl

/-- A loop over a class of bytes takes the longest run of them; the sentinel, which may be no byte
of the source, is in no class. -/
theorem consumeWhile_eq {p : UInt8 → Bool} (hp : p Byte.sentinel = false) (f : α → UInt8 → α)
    (a : α) (c : Cursor) : consumeWhile p f a c =
      .ok ((c.scanner.run p).foldl f a) (c.past (c.scanner.run p)) := by
  rw [Scanner.run]
  generalize hrest : c.scanner.rest = bytes
  induction bytes generalizing c a with
  | nil =>
    rw [consumeWhile, ahead_eq, hrest]
    simp [hp, past, Position.after]
  | cons byte bytes ih =>
    rw [consumeWhile, ahead_eq, hrest, List.headD_cons]
    by_cases hbyte : p byte = true
    · rw [if_pos hbyte, List.takeWhile_cons_of_pos hbyte]
      have htail := ih (f a byte) (c.past [byte]) (rest_past hrest)
      split
      · next b c' hconsume =>
        rw [consume_of_rest hrest, EStateM.Result.ok.injEq] at hconsume
        obtain ⟨rfl, rfl⟩ := hconsume
        rw [htail, past_append]
        rfl
      · next hconsume =>
        rw [consume_of_rest hrest] at hconsume
        contradiction
    · rw [if_neg hbyte, List.takeWhile_cons_of_neg hbyte]
      rfl

/-- A run of a class of ASCII bytes becomes text. -/
theorem decode_run {p : UInt8 → Bool} (hp : ∀ byte, p byte = true → byte < 0x80) (c : Cursor) :
    decode c.position.offset (c.past (c.scanner.run p)) =
      .ok (Byte.text (c.scanner.run p)) (c.past (c.scanner.run p)) := by
  have hdrop : c.source.drop c.position.offset = c.scanner.run p ++ c.scanner.rest.dropWhile p :=
    List.takeWhile_append_dropWhile.symm
  have hslice : Byte.slice c.source c.position.offset
      (c.position.offset + (c.scanner.run p).length) = c.scanner.run p := by
    rw [Byte.slice, List.drop_take, hdrop, Nat.add_sub_cancel_left, List.take_left]
  have hascii : (c.scanner.run p).all (· < 0x80) = true :=
    List.all_eq_true.2 fun byte hbyte => decide_eq_true (hp byte (inside_takeWhile p _ byte hbyte))
  simp only [decode, past, Position.offset_after, hslice, hascii, if_true]

theorem number_eq (c : Cursor) : number host c.location c = c.reply host c.scanner.scanNumber := by
  have hascii {byte : UInt8} (h : Numeral.isDigit byte = true) : byte < 0x80 :=
    Byte.ascii_of_isWordByte (by simp [Byte.isWordByte, h])
  have hread : (c.scanner.run Numeral.isDigit).foldl
      (Numeral.step (Nat.pow 2 c.numberBits - 1)) (some 0) =
        Numeral.read c.scanner.maxNumber (c.scanner.run Numeral.isDigit) := rfl
  rw [number, get_bind, bind_of_ok (consumeWhile_eq rfl _ _ c),
    bind_of_ok (decode_run (fun _ => hascii) c), hread, Scanner.scanNumber]
  cases Numeral.read c.scanner.maxNumber (c.scanner.run Numeral.isDigit) <;> rfl

theorem word_eq (c : Cursor) : word c.location c = c.reply host c.scanner.scanWord := by
  rw [word, get_bind, bind_of_ok (consumeWhile_eq rfl _ _ c),
    bind_of_ok (decode_run (fun _ => Byte.ascii_of_isWordByte) c), Scanner.scanWord,
    Terminal.ofWord]
  cases Keyword.ofSpelling? (Byte.text (c.scanner.run Byte.isWordByte)) <;> rfl

theorem punctuation_eq (h : c.scanner.rest = byte :: more) :
    punctuation host c.location c = c.reply host (c.scanner.scanByte byte more) := by
  rw [punctuation, bind_of_ok (consume_of_rest h), Scanner.scanByte]
  cases hlookup : Byte.punctuation.lookup byte with
  | none =>
    rw [Byte.kinds_eq_none hlookup]
    rfl
  | some terminal =>
    obtain ⟨hkind, hvalue⟩ := Byte.entry_of_lookup hlookup
    simp only [hkind, hvalue]
    cases terminal <;> rfl

theorem scan_eq (c : Cursor) : scan host c = c.reply host c.scanner.scan := by
  rw [scan, get_bind, ahead_eq, Scanner.scan]
  cases hrest : c.scanner.rest with
  | nil => rfl
  | cons byte more =>
    rw [List.headD_cons]
    by_cases hzero : byte = Byte.sentinel
    · simp only [hzero, if_true]
      rfl
    by_cases hdigit : Numeral.isDigit byte = true
    · simp only [hzero, hdigit, if_true, if_false]
      exact number_eq c
    by_cases hletter : Byte.isLetter byte = true
    · simp only [hzero, hdigit, hletter, if_true, if_false]
      exact word_eq c
    · simp only [hzero, hdigit, hletter, if_false]
      exact punctuation_eq hrest

theorem scanner_past (h : c.scanner.rest = bytes ++ more) :
    (c.past bytes).scanner = c.scanner.past bytes more := by
  rw [Scanner.past, ← rest_past h]
  rfl

/-- A call comes to what the scanner makes of the bytes ahead. -/
theorem next_eq (c : Cursor) : next host c = c.reply host c.scanner.next := by
  have hended : c.scanner.ended = c.ended := rfl
  rw [next, get_bind, Scanner.next, hended]
  cases c.ended with
  | some place => rfl
  | none =>
    have hskip : (c.past (c.scanner.run Byte.isBlank)).scanner = c.scanner.skipBlanks :=
      scanner_past List.takeWhile_append_dropWhile.symm
    refine (bind_of_ok (consumeWhile_eq rfl _ _ c)).trans ?_
    rw [scan_eq, hskip]
    rfl

theorem scanner_follow (c : Cursor) : (c.follow c.scanner.next.2).scanner = c.scanner.next.2 := by
  cases hended : c.scanner.ended with
  | some place =>
    rw [Scanner.next_of_ended hended]
    rfl
  | none =>
    rcases Scanner.delivers_or_finishes hended with ⟨p, rest, hp⟩ | ⟨gap, rest, hfinish⟩
    · rw [hp.next_eq]
      exact scanner_past hp.rest_eq
    · rw [hfinish.next_eq, Scanner.past, ← rest_past hfinish.rest_eq]
      rfl

theorem afterCall_reply (c : Cursor) (result : Except ScanError Token × Scanner) :
    afterCall (c.reply host result) = c.follow result.2 := by
  obtain ⟨_ | _, _⟩ := result <;> rfl

/-- Whatever the calls raise, the cursor goes where the scanner goes. -/
theorem scanner_after (c : Cursor) (n : Nat) : (c.after host n).scanner = c.scanner.after n := by
  induction n with
  | zero => rfl
  | succ n ih => rw [after, next_eq, afterCall_reply, scanner_follow, Scanner.after, ih]

end Reading

/-- A call from `c` that takes a byte at least unless it delivers the end of input, ties the value
of an operator token to its kind, and crashes over nothing but a number in the text of an error. -/
def Safe (c : Cursor) : EStateM.Result Raised Cursor RawToken → Prop
  | .ok t c' => (t.kind = .operator → ∃ op, t.value = some (.operator op)) ∧
      (t.kind ≠ .endOfInput → c.position.offset < c'.position.offset)
  | .error (.error _) c' => c.position.offset < c'.position.offset
  | .error (.crash crash) c' => (∃ n, crash = .unwritten n) ∧
      c.position.offset < c'.position.offset

theorem safe_next (host : Host) (c : Cursor) : Safe c (next host c) := by
  have hadvances := c.scanner.offset_lt_next
  rw [next_eq]
  generalize c.scanner.next = result at hadvances ⊢
  obtain ⟨e | t, s⟩ := result
  · have hlt : c.position.offset < s.position.offset := hadvances rfl
    rw [reply]
    cases hraised : Raised.ofError host e with
    | crash crash => exact ⟨Raised.unwritten_of_ofError hraised, hlt⟩
    | error e => exact hlt
  · exact ⟨RawToken.operator_of_kind, fun hkind => hadvances (RawToken.isEnd_of_kind hkind)⟩

def Crashes (host : Host) (c : Cursor) : Prop :=
  ∃ crash c', next host c = .error (.crash crash) c'

def Overflows (c : Cursor) : Prop :=
  ∃ digits place, c.scanner.next.1 = .error ⟨.numberOverflow digits c.numberBits, place⟩

theorem crashes_iff (host : Host) (c : Cursor) : Crashes host c ↔
    c.Overflows ∧ host.writes ((2 ^ c.numberBits - 1 : Nat) : Int) = false := by
  rw [Crashes, next_eq, Overflows]
  have hfault {e : ScanError} (h : c.scanner.next.1 = .error e) :
      (∃ byte : UInt8, e.fault = .invalidByte byte.toNat) ∨
        ∃ digits, e.fault = .numberOverflow digits c.numberBits := Scanner.fault_of_next h
  generalize c.scanner.next = result at hfault ⊢
  obtain ⟨⟨fault, place⟩ | t, s⟩ := result
  · have hcrash : (∃ crash c', reply host c (.error ⟨fault, place⟩, s) =
        .error (.crash crash) c') ↔ ∃ n ∈ fault.numbers, host.writes n = false := by
      rw [← Raised.exists_crash_iff (e := ⟨fault, place⟩)]
      simp [reply]
    rw [hcrash]
    rcases hfault rfl with ⟨byte, rfl⟩ | ⟨digits, rfl⟩
    · have hwrites := ScanFault.writes_invalidByte host byte
      simp_all
    · exact ScanFault.exists_unwritten_iff.trans (by simp)
  · simp [reply]

/-- No call reads out of bounds or fails to decode, however many calls went before it and whatever
they raised; and a call crashes exactly if it meets a number too large for a width whose largest
number the host does not write. -/
theorem reading_is_safe (host : Host) (file : String) (numberBits : Nat) (source : Source)
    (n : Nat) :
    let c := (start file numberBits source).after host n
    c.scanner = (Scanner.ofBytes file numberBits source.toBytes).after n ∧
      next host c = c.reply host c.scanner.next ∧ Safe c (next host c) ∧
      (Crashes host c ↔
        c.Overflows ∧ host.writes ((2 ^ numberBits - 1 : Nat) : Int) = false) := by
  intro c
  have hscanner : c.scanner = (Scanner.ofBytes file numberBits source.toBytes).after n :=
    scanner_after _ n
  have hbits : c.numberBits = numberBits :=
    (congrArg Scanner.numberBits hscanner).trans (Scanner.numberBits_after _ n)
  have hcrashes := crashes_iff host c
  rw [hbits] at hcrashes
  exact ⟨hscanner, next_eq c, safe_next host c, hcrashes⟩

theorem next_of_nines {n bits most : Nat} {h : 640 ≤ most} (file : String) (hn : 0 < n)
    (hlarge : 2 ^ bits - 1 < 10 ^ n - 1) (hbits : bits < Nat.pow 10 most)
    (hlong : Nat.pow 10 most ≤ 2 ^ bits - 1) :
    let c := start file bits (.bytes (List.replicate n 0x39))
    next (.writing most h) c = .error (.crash (.unwritten (2 ^ bits - 1 : Nat)))
      (c.past (List.replicate n 0x39)) := by
  intro c
  have hwide : ¬ 10 ^ n - 1 ≤ 2 ^ c.scanner.numberBits - 1 := Nat.not_le_of_lt hlarge
  have hscanned := Scanner.next_of_nines (s := c.scanner) rfl rfl hn
  rw [if_neg hwide] at hscanned
  have hwrites : (Host.writing most h).writes bits = true := Host.writes_writing.2 hbits
  have hrefuses : (Host.writing most h).writes (2 ^ bits - 1 : Nat) = false :=
    Bool.eq_false_iff.2 fun h => Nat.not_lt_of_le hlong (Host.writes_writing.1 h)
  have hraised (digits : String) (place : Location) :
      Raised.ofError (.writing most h) ⟨.numberOverflow digits bits, place⟩ =
        .crash (.unwritten (2 ^ bits - 1 : Nat)) := by
    simp only [Raised.ofError, ScanFault.numbers_numberOverflow, List.find?_cons, hwrites,
      hrefuses, Bool.not_true, Bool.not_false]
  rw [next_eq, hscanned]
  exact congrArg (EStateM.Result.error · _) (hraised _ _)

/-- Where numbers of up to 4300 digits are written, 4301 nines are no error of the scanner at a
width that they exceed: the call crashes over the largest number of that width. -/
theorem overflow_is_a_crash :
    let host := Host.writing 4300 (by decide)
    let digits := List.replicate 4301 0x39
    let c := start "<input>" 14285 (.bytes digits)
    next host c = .error (.crash (.unwritten (2 ^ 14285 - 1 : Nat))) (c.past digits) :=
  next_of_nines "<input>" (by decide) (by decide +kernel) (by decide +kernel) (by decide +kernel)

end Cursor
end ExprLang
