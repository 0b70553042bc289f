import ExprLang.Proofs.OnDemand
import ExprLang.Proofs.Scanning
import Mathlib.Data.List.TakeWhile

/-!
# The width of numbers

A run of digits is read as the number it denotes, however long it is and however many zeros it
begins with, unless that number is too large for the width; then the whole run is an error. The
width decides about nothing else. So a narrower scanner delivers what a wider one does, up to the
first number that is too large for it.
-/
namespace ExprLang

def Token.exceeds (limit : Nat) (t : Token) : Bool :=
  match t.terminal with
  | .number value => (limit : Int) < value
  | _ => false

namespace ScanError

/-- The refusal of a number that a wider scanner delivers. -/
def overflow (bits : Nat) (t : Token) : ScanError := ⟨.numberOverflow t.lexeme bits, t.location⟩

def ofWidth (bits : Nat) (e : ScanError) : ScanError :=
  match e.fault with
  | .numberOverflow digits _ => ⟨.numberOverflow digits bits, e.location⟩
  | .invalidByte _ => e

end ScanError

theorem Terminal.ofWord_ne_number (word : String) (value : Int) :
    Terminal.ofWord word ≠ .number value := by
  unfold Terminal.ofWord
  cases Keyword.ofSpelling? word <;> simp

theorem Byte.punctuation_ne_number {byte : UInt8} {terminal : Terminal}
    (h : punctuation.lookup byte = some terminal) (value : Int) : terminal ≠ .number value := by
  have hlisted : ∀ entry ∈ punctuation, entry.2.kind ≠ .number := by decide
  have hkind := hlisted (byte, terminal) (mem_of_lookup h)
  rintro rfl
  exact hkind rfl

theorem Token.exceeds_of_ne {t : Token} (h : ∀ value, t.terminal ≠ .number value) (limit : Nat) :
    t.exceeds limit = false := by
  unfold exceeds
  split
  · next value hvalue => exact absurd hvalue (h value)
  · rfl

namespace Scanner

variable {s s' : Scanner} {bits : Nat} {ts : List Token} {failure : Option ScanError}

def withBits (s : Scanner) (bits : Nat) : Scanner := { s with numberBits := bits }

/-- What a call delivers where numbers are `bits` wide, if it delivers `event` where they are
wider. -/
def narrowed (bits : Nat) : Except ScanError Token → Except ScanError Token
  | .ok t => if t.exceeds (2 ^ bits - 1) then .error (.overflow bits t) else .ok t
  | .error e => .error (e.ofWidth bits)

theorem narrowed_ok {t : Token} (h : ∀ value, t.terminal ≠ .number value) :
    narrowed bits (.ok t) = .ok t := by
  rw [narrowed, Token.exceeds_of_ne h, if_neg Bool.false_ne_true]

/-- A scan of a number, told by the number that its digits denote. -/
theorem scanNumber_eq (s : Scanner) :
    s.scanNumber = (if s.maxNumber < Numeral.decimal (s.run Numeral.isDigit) then
        .error ⟨.numberOverflow (Byte.text (s.run Numeral.isDigit)) s.numberBits, s.location⟩
      else .ok ⟨.number (Numeral.decimal (s.run Numeral.isDigit)),
        Byte.text (s.run Numeral.isDigit), s.location, none⟩, s.pastRun Numeral.isDigit) := by
  rw [scanNumber, Numeral.read_eq]
  by_cases hlarge : s.maxNumber < Numeral.decimal (s.run Numeral.isDigit) <;> simp [hlarge]

/-- A number too large for the greater width is too large for the smaller one. -/
theorem scanNumber_withBits (h : bits ≤ s.numberBits) :
    (s.withBits bits).scanNumber =
      (narrowed bits s.scanNumber.1, s.scanNumber.2.withBits bits) := by
  have hpow : 2 ^ bits ≤ 2 ^ s.numberBits := Nat.pow_le_pow_right (by omega) h
  have hmax : (s.withBits bits).maxNumber ≤ s.maxNumber := Nat.sub_le_sub_right hpow 1
  have hrun : (s.withBits bits).run Numeral.isDigit = s.run Numeral.isDigit := rfl
  have hlocation : (s.withBits bits).location = s.location := rfl
  rw [scanNumber_eq, scanNumber_eq, hrun, hlocation]
  by_cases hlarge : s.maxNumber < Numeral.decimal (s.run Numeral.isDigit)
  · rw [if_pos hlarge, if_pos (by omega)]
    rfl
  · rw [if_neg hlarge]
    by_cases hfits : (s.withBits bits).maxNumber < Numeral.decimal (s.run Numeral.isDigit)
    · have hexceeds : 2 ^ bits - 1 < Numeral.decimal (s.run Numeral.isDigit) := hfits
      simp only [if_pos hfits, narrowed, Token.exceeds, Int.ofNat_lt, hexceeds, decide_true,
        if_true]
      rfl
    · have hexceeds : ¬ 2 ^ bits - 1 < Numeral.decimal (s.run Numeral.isDigit) := hfits
      simp only [if_neg hfits, narrowed, Token.exceeds, Int.ofNat_lt, hexceeds, decide_false,
        Bool.false_eq_true, if_false]
      rfl

theorem scanByte_withBits (byte : UInt8) (rest : List UInt8) :
    (s.withBits bits).scanByte byte rest =
      (narrowed bits (s.scanByte byte rest).1, (s.scanByte byte rest).2.withBits bits) := by
  simp only [scanByte]
  cases hlookup : Byte.punctuation.lookup byte with
  | none => rfl
  | some terminal =>
    rw [narrowed_ok (Byte.punctuation_ne_number hlookup)]
    rfl

theorem scan_withBits (h : bits ≤ s.numberBits) :
    (s.withBits bits).scan = (narrowed bits s.scan.1, s.scan.2.withBits bits) := by
  have hrest : (s.withBits bits).rest = s.rest := rfl
  unfold scan
  rw [hrest]
  cases s.rest with
  | nil => rfl
  | cons byte rest =>
    by_cases hzero : byte = Byte.sentinel
    · simp only [hzero, if_true]
      rfl
    by_cases hdigit : Numeral.isDigit byte = true
    · simpa only [hzero, hdigit, if_true, if_false] using scanNumber_withBits h
    by_cases hletter : Byte.isLetter byte = true
    · simp only [hzero, hdigit, hletter, if_true, if_false, Bool.false_eq_true, scanWord]
      rw [narrowed_ok (Terminal.ofWord_ne_number _)]
      rfl
    · simpa only [hzero, hdigit, hletter, if_false, Bool.false_eq_true] using
        scanByte_withBits byte rest

theorem next_withBits (h : bits ≤ s.numberBits) :
    (s.withBits bits).next = (narrowed bits s.next.1, s.next.2.withBits bits) := by
  have hended : (s.withBits bits).ended = s.ended := rfl
  have hskip : (s.withBits bits).skipBlanks = s.skipBlanks.withBits bits := rfl
  unfold next
  rw [hended, hskip]
  cases s.ended with
  | some place => rfl
  | none => exact scan_withBits h

theorem numberBits_next (s : Scanner) : s.next.2.numberBits = s.numberBits := by
  unfold next
  split
  · rfl
  · unfold scan
    split
    · rfl
    · split
      · rfl
      · split
        · rfl
        · split <;> rfl

/-- A narrower scanner delivers the same tokens up to the first number that is too large for it. -/
theorem Yields.withBits (h : Yields s ts failure) (hbits : bits ≤ s.numberBits) :
    Yields (s.withBits bits) (ts.takeWhile fun t => !t.exceeds (2 ^ bits - 1))
      (((ts.find? (Token.exceeds (2 ^ bits - 1))).map (.overflow bits)).or
        (failure.map (.ofWidth bits))) := by
  induction h with
  | @fail s s' e h =>
    have hnext := next_withBits hbits
    rw [h] at hnext
    exact .fail hnext
  | @finish s s' t h hend =>
    have hnext := next_withBits hbits
    have hends : t.exceeds (2 ^ bits - 1) = false := by
      rw [Token.isEnd, beq_iff_eq] at hend
      simp [Token.exceeds, hend]
    simp only [h, narrowed, hends, Bool.false_eq_true, if_false] at hnext
    simpa [hends] using Yields.finish hnext hend
  | @more s s' t ts failure h hend _ ih =>
    have hnext := next_withBits hbits
    have hsame := numberBits_next s
    rw [h] at hnext hsame
    cases hexceeds : t.exceeds (2 ^ bits - 1) with
    | true =>
      simp only [narrowed, hexceeds, if_true] at hnext
      simpa [hexceeds] using Yields.fail hnext
    | false =>
      simp only [narrowed, hexceeds, Bool.false_eq_true, if_false] at hnext
      simpa [hexceeds] using Yields.more hnext hend (ih (hsame ▸ hbits))

/-- A run of digits in front of a scanner is read to its end, as the number it denotes if that fits
the width. -/
theorem next_of_digits {digits rest : List UInt8} (hended : s.ended = none)
    (hrest : s.rest = digits ++ rest) (hne : digits ≠ [])
    (inside : ∀ byte ∈ digits, Numeral.isDigit byte = true)
    (maximal : EndsRun Numeral.isDigit rest) :
    s.next = (if Numeral.decimal digits ≤ 2 ^ s.numberBits - 1 then
        .ok ⟨.number (Numeral.decimal digits), Byte.text digits, s.location, none⟩
      else .error ⟨.numberOverflow (Byte.text digits) s.numberBits, s.location⟩,
      s.past digits rest) := by
  by_cases hfits : Numeral.decimal digits ≤ 2 ^ s.numberBits - 1
  · rw [if_pos hfits]
    exact next_of_segment hended hrest (.number hne inside maximal hfits)
  · rw [if_neg hfits]
    exact next_of_segment hended hrest (.overflow hne inside maximal (Nat.lt_of_not_le hfits))

theorem decimal_nines (n : Nat) :
    Numeral.decimal (List.replicate n 0x39) = 10 ^ n - 1 := by
  induction n with
  | zero => rfl
  | succ n ih =>
    have hnine : Numeral.digitValue 0x39 = 9 := rfl
    have hpos : 0 < 10 ^ n := Nat.pow_pos (by decide)
    rw [List.replicate_succ, Numeral.decimal, ih, List.length_replicate, hnine, Nat.pow_succ]
    omega

theorem next_of_nines {n : Nat} (hended : s.ended = none)
    (hrest : s.rest = List.replicate n 0x39) (hn : 0 < n) :
    s.next = (if 10 ^ n - 1 ≤ 2 ^ s.numberBits - 1 then
        .ok ⟨.number (10 ^ n - 1 : Nat), Byte.text (List.replicate n 0x39), s.location, none⟩
      else .error ⟨.numberOverflow (Byte.text (List.replicate n 0x39)) s.numberBits, s.location⟩,
      s.past (List.replicate n 0x39) []) := by
  have hne : List.replicate n (0x39 : UInt8) ≠ [] := by simp; omega
  have inside : ∀ byte ∈ List.replicate n 0x39, Numeral.isDigit byte = true := by
    intro byte hbyte
    rw [List.eq_of_mem_replicate hbyte]
    rfl
  rw [next_of_digits hended (hrest.trans (List.append_nil _).symm) hne inside (by simp [EndsRun]),
    decimal_nines]

/-- Where every number fits, a narrower scanner delivers all that a wider one does. -/
theorem Yields.withBits_of_fits (h : Yields s ts failure) (hbits : bits ≤ s.numberBits)
    (hfits : ts.find? (Token.exceeds (2 ^ bits - 1)) = none) :
    Yields (s.withBits bits) ts (failure.map (.ofWidth bits)) := by
  have hall : (ts.takeWhile fun t => !t.exceeds (2 ^ bits - 1)) = ts :=
    List.takeWhile_eq_self_iff.2 fun t ht => by simpa using List.find?_eq_none.1 hfits t ht
  simpa [hall, hfits] using h.withBits hbits

/-- Otherwise the first number that does not fit is an error there. -/
theorem Yields.all_withBits_of_exceeds (h : Yields s ts failure) (hbits : bits ≤ s.numberBits)
    {t : Token} (hlarge : ts.find? (Token.exceeds (2 ^ bits - 1)) = some t) :
    (s.withBits bits).all.1 = .error (.overflow bits t) := by
  obtain ⟨_, hall⟩ := (h.withBits hbits).all_eq
  rw [hall, hlarge]
  rfl

theorem all_withBits (h : s.all.1 = .ok ts) (hbits : bits ≤ s.numberBits) :
    (s.withBits bits).all.1 =
      match ts.find? (Token.exceeds (2 ^ bits - 1)) with
      | none => .ok ts
      | some t => .error (.overflow bits t) := by
  obtain ⟨us, failure, hyields⟩ := exists_yields s
  obtain ⟨_, hall⟩ := hyields.all_eq
  rw [hall] at h
  cases failure with
  | some e => contradiction
  | none =>
    obtain rfl : us = ts := Except.ok.inj h
    cases hfind : us.find? (Token.exceeds (2 ^ bits - 1)) with
    | none =>
      obtain ⟨_, hnarrow⟩ := (hyields.withBits_of_fits hbits hfind).all_eq
      rw [hnarrow]
      rfl
    | some t => exact hyields.all_withBits_of_exceeds hbits hfind

theorem all_of_withBits (h : (s.withBits bits).all.1 = .ok ts) (hbits : bits ≤ s.numberBits) :
    s.all.1 = .ok ts := by
  obtain ⟨us, failure, hyields⟩ := exists_yields s
  obtain ⟨_, hall⟩ := hyields.all_eq
  cases hfind : us.find? (Token.exceeds (2 ^ bits - 1)) with
  | some t =>
    rw [hyields.all_withBits_of_exceeds hbits hfind] at h
    contradiction
  | none =>
    obtain ⟨_, hnarrow⟩ := (hyields.withBits_of_fits hbits hfind).all_eq
    rw [hnarrow] at h
    rw [hall]
    cases failure with
    | some e => contradiction
    | none => exact h

/-- Numbers are read exactly. A run of digits is the number it denotes or, if that does not fit the
width, an error, and the scanner goes on behind it. What a source is scanned as depends on the width
only through the numbers that do not fit. -/
theorem numbers_are_exact :
    (∀ (s : Scanner) (digits rest : List UInt8), s.ended = none → s.rest = digits ++ rest →
      digits ≠ [] → (∀ byte ∈ digits, Numeral.isDigit byte = true) →
      EndsRun Numeral.isDigit rest →
      s.next = (if Numeral.decimal digits ≤ 2 ^ s.numberBits - 1 then
          .ok ⟨.number (Numeral.decimal digits), Byte.text digits, s.location, none⟩
        else .error ⟨.numberOverflow (Byte.text digits) s.numberBits, s.location⟩,
        s.past digits rest) ∧
      (s.past digits rest).rest = rest ∧
      (s.past digits rest).position.offset = s.position.offset + digits.length) ∧
    ∀ (file : String) (bits bits' : Int) (bytes : List UInt8) (s s' : Scanner),
      start file bits bytes = .ok s → start file bits' bytes = .ok s' → bits ≤ bits' →
      (∀ ts, s.all.1 = .ok ts → s'.all.1 = .ok ts) ∧
      ∀ ts, s'.all.1 = .ok ts → s.all.1 =
        match ts.find? (Token.exceeds (2 ^ bits.toNat - 1)) with
        | none => .ok ts
        | some t => .error ⟨.numberOverflow t.lexeme bits, t.location⟩ := by
  refine ⟨fun s digits rest hended hrest hne inside maximal =>
    ⟨next_of_digits hended hrest hne inside maximal, rfl, offset_past digits rest⟩, ?_⟩
  intro file bits bits' bytes s s' hs hs' hle
  have hpos := pos_of_start hs
  obtain rfl := eq_ofBytes_of_start hs
  obtain rfl := eq_ofBytes_of_start hs'
  have hbits : bits.toNat ≤ (ofBytes file bits'.toNat bytes).numberBits :=
    Int.toNat_le_toNat hle
  have hwidth : ((bits.toNat : Nat) : Int) = bits := Int.toNat_of_nonneg (Int.le_of_lt hpos)
  refine ⟨fun ts h => all_of_withBits (s := ofBytes file bits'.toNat bytes) h hbits,
    fun ts h => (all_withBits h hbits).trans ?_⟩
  simp only [ScanError.overflow, hwidth]

/-- Leading zeros count for nothing; and behind a number that fits three bits, one that needs
four. -/
theorem numbers_are_exact_nine :
    let zeros := ofBytes "f" 3 [0x30, 0x30, 0x37, 0x20]
    let bytes := [0x37, 0x20, 0x39]
    (zeros.next.1 = .ok ⟨.number 7, "007", ⟨"f", 1, 1, 0⟩, none⟩ ∧ zeros.next.2.rest = [0x20]) ∧
      ∃ s s' ts, start "f" 3 bytes = .ok s ∧ start "f" 4 bytes = .ok s' ∧ s'.all.1 = .ok ts ∧
        s.all.1 = .error ⟨.numberOverflow "9" 3, ⟨"f", 1, 3, 2⟩⟩ := by
  intro zeros bytes
  obtain ⟨hexact, hwidths⟩ := numbers_are_exact
  refine ⟨?_, ?_⟩
  · have hrun : EndsRun Numeral.isDigit [0x20] := by simp [EndsRun, Numeral.isDigit]
    obtain ⟨hnext, hrest, _⟩ := hexact zeros [0x30, 0x30, 0x37] [0x20] rfl rfl (by simp)
      (by simp [Numeral.isDigit]) hrun
    have htext : Byte.text [0x30, 0x30, 0x37] = "007" := by decide +kernel
    have hvalue : Numeral.decimal [0x30, 0x30, 0x37] = 7 := by decide
    have hfits : 7 ≤ 2 ^ zeros.numberBits - 1 := by decide
    rw [htext, hvalue, if_pos hfits] at hnext
    rw [hnext]
    exact ⟨rfl, hrest⟩
  · have hall : (ofBytes "f" 4 bytes).all.1 = .ok _ := rfl
    obtain ⟨_, hnarrow⟩ := hwidths "f" 3 4 bytes _ _ rfl rfl (by decide)
    exact ⟨_, _, _, rfl, rfl, hall, (hnarrow _ hall).trans rfl⟩

end Scanner
end ExprLang
