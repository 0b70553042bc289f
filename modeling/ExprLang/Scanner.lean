import ExprLang.Numeral
import ExprLang.ScanError
import ExprLang.Setting
import ExprLang.Token

/-!
# Scanner

A scanner reads a source of bytes from front to back and delivers one token at a time. Space,
carriage return and line feed separate tokens; a zero byte, like the end of the bytes, ends the
input for good. An error consumes the stretch it concerns, so the next token is looked for
right after it.
-/
namespace ExprLang

/-- A place in the source: line and column counted from one, offset from zero. -/
structure Position where
  line : Nat
  column : Nat
  offset : Nat
  deriving DecidableEq, Repr

namespace Position

def start : Position := ⟨1, 1, 0⟩

def advance (p : Position) (byte : UInt8) : Position :=
  if byte = 0x0a then ⟨p.line + 1, 1, p.offset + 1⟩ else ⟨p.line, p.column + 1, p.offset + 1⟩

def after (p : Position) (bytes : List UInt8) : Position := bytes.foldl advance p

def location (p : Position) (file : String) : Location := ⟨file, p.line, p.column, p.offset⟩

end Position

namespace Byte

def blanks : List UInt8 := [0x0a, 0x0d, 0x20]

def isBlank (byte : UInt8) : Bool := blanks.contains byte

/-- The byte that stands for the end of input. -/
def sentinel : UInt8 := 0

def isLetter (byte : UInt8) : Bool :=
  (0x41 ≤ byte && byte ≤ 0x5a) || (0x61 ≤ byte && byte ≤ 0x7a)

def isWordByte (byte : UInt8) : Bool := Numeral.isDigit byte || isLetter byte

/-- The bytes that are a token by themselves, in byte order. -/
def punctuation : List (UInt8 × Terminal) :=
  [(0x28, .leftParen), (0x29, .rightParen), (0x2a, .operator .mul), (0x2b, .operator .add),
    (0x2c, .comma), (0x2d, .operator .sub), (0x2f, .operator .div), (0x3c, .operator .less)]

def operators : List (UInt8 × Operator) :=
  punctuation.filterMap fun (byte, terminal) =>
    match terminal with
    | .operator op => some (byte, op)
    | _ => none

/-- Bytes of the source as text; every byte of a token is ASCII. -/
def text (bytes : List UInt8) : String := String.ofList (bytes.map Char.ofUInt8)

end Byte

def Terminal.ofWord (word : String) : Terminal :=
  match Keyword.ofSpelling? word with
  | some k => .keyword k
  | none => .identifier word

def Token.endOfInput (location : Location) : Token :=
  { terminal := .endOfInput, lexeme := "", location }

/-- `ended` holds the place of the end of input once it has been delivered. -/
structure Scanner where
  file : String
  numberBits : Nat
  rest : List UInt8
  position : Position
  ended : Option Location
  deriving DecidableEq, Repr

namespace Scanner

def ofBytes (file : String) (numberBits : Nat) (bytes : List UInt8) : Scanner :=
  ⟨file, numberBits, bytes, Position.start, none⟩

/-- A scanner at the start of a source, if the width of numbers is positive. -/
def start (file : String) (numberBits : Int) (bytes : List UInt8) :
    Except SettingError Scanner := do
  return ofBytes file (← Setting.positive .numberBits numberBits) bytes

def maxNumber (s : Scanner) : Nat := Nat.pow 2 s.numberBits - 1

def isExhausted (s : Scanner) : Bool := s.ended.isSome

def location (s : Scanner) : Location := s.position.location s.file

def run (s : Scanner) (p : UInt8 → Bool) : List UInt8 := s.rest.takeWhile p

def pastRun (s : Scanner) (p : UInt8 → Bool) : Scanner :=
  { s with rest := s.rest.dropWhile p, position := s.position.after (s.run p) }

def skipBlanks (s : Scanner) : Scanner := s.pastRun Byte.isBlank

def finish (s : Scanner) : Except ScanError Token × Scanner :=
  (.ok (.endOfInput s.location), { s with ended := some s.location })

/-- A number is the longest run of digits; one that is too large is consumed as a whole. -/
def scanNumber (s : Scanner) : Except ScanError Token × Scanner :=
  let digits := s.run Numeral.isDigit
  let lexeme := Byte.text digits
  let result :=
    match Numeral.read s.maxNumber digits with
    | some value => .ok { terminal := .number value, lexeme, location := s.location }
    | none => .error ⟨.numberOverflow lexeme s.numberBits, s.location⟩
  (result, s.pastRun Numeral.isDigit)

def scanWord (s : Scanner) : Except ScanError Token × Scanner :=
  let lexeme := Byte.text (s.run Byte.isWordByte)
  (.ok { terminal := .ofWord lexeme, lexeme, location := s.location }, s.pastRun Byte.isWordByte)

/-- Exactly one byte is consumed, whether or not it is punctuation. -/
def scanByte (s : Scanner) (byte : UInt8) (rest : List UInt8) :
    Except ScanError Token × Scanner :=
  let result :=
    match Byte.punctuation.lookup byte with
    | some terminal => .ok { terminal, lexeme := Byte.text [byte], location := s.location }
    | none => .error ⟨.invalidByte byte.toNat, s.location⟩
  (result, { s with rest, position := s.position.advance byte })

def scan (s : Scanner) : Except ScanError Token × Scanner :=
  match s.rest with
  | [] => s.finish
  | byte :: rest =>
      if byte = Byte.sentinel then s.finish
      else if Numeral.isDigit byte then s.scanNumber
      else if Byte.isLetter byte then s.scanWord
      else s.scanByte byte rest

/-- The next token, or the error at its place, with the scanner that goes on from there. Once
the input has ended, the same end-of-input token is delivered without reading on. -/
def next (s : Scanner) : Except ScanError Token × Scanner :=
  match s.ended with
  | some place => (.ok (.endOfInput place), s)
  | none => s.skipBlanks.scan

theorem length_dropWhile_lt {p : UInt8 → Bool} {byte : UInt8} (rest : List UInt8)
    (h : p byte = true) : ((byte :: rest).dropWhile p).length < (byte :: rest).length := by
  rw [List.dropWhile_cons_of_pos h]
  exact Nat.lt_succ_of_le (List.dropWhile_sublist p).length_le

theorem length_rest_scan {s s' : Scanner} {token : Token} (h : s.scan = (.ok token, s'))
    (hend : token.isEnd = false) : s'.rest.length < s.rest.length := by
  unfold scan at h
  split at h
  · simp only [finish, Prod.mk.injEq, Except.ok.injEq] at h
    simp [← h.1, Token.isEnd, Token.endOfInput] at hend
  · next byte rest hrest =>
    split at h
    · simp only [finish, Prod.mk.injEq, Except.ok.injEq] at h
      simp [← h.1, Token.isEnd, Token.endOfInput] at hend
    split at h
    · next hdigit =>
      simp only [scanNumber, Prod.mk.injEq] at h
      rw [← h.2, hrest]
      simpa [pastRun, hrest] using length_dropWhile_lt rest hdigit
    split at h
    · next hletter =>
      have hword : Byte.isWordByte byte = true := by simp [Byte.isWordByte, hletter]
      simp only [scanWord, Prod.mk.injEq] at h
      rw [← h.2, hrest]
      simpa [pastRun, hrest] using length_dropWhile_lt rest hword
    · simp only [scanByte, Prod.mk.injEq] at h
      simp [← h.2, hrest]

/-- Each token before the end of input takes at least one byte. -/
theorem length_rest_next {s s' : Scanner} {token : Token} (h : s.next = (.ok token, s'))
    (hend : token.isEnd = false) : s'.rest.length < s.rest.length := by
  unfold next at h
  split at h
  · simp only [Prod.mk.injEq, Except.ok.injEq] at h
    simp [← h.1, Token.isEnd, Token.endOfInput] at hend
  · exact Nat.lt_of_lt_of_le (length_rest_scan h hend)
      (List.dropWhile_sublist Byte.isBlank).length_le

/-- `n` further tokens, fewer if the input ends or an error comes first. -/
def take : Nat → Scanner → List Token × Option ScanError × Scanner
  | 0, s => ([], none, s)
  | n + 1, s =>
      match s.next with
      | (.error e, s') => ([], some e, s')
      | (.ok token, s') =>
          if token.isEnd then ([token], none, s')
          else
            let (tokens, failure, s'') := take n s'
            (token :: tokens, failure, s'')

/-- Every token but the last one takes at least one byte of the rest. -/
def all (s : Scanner) : Except ScanError (List Token) × Scanner :=
  match s.take (s.rest.length + 1) with
  | (tokens, none, s') => (.ok tokens, s')
  | (_, some e, s') => (.error e, s')

end Scanner
end ExprLang
