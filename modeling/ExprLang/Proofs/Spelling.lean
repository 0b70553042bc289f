import ExprLang.Proofs.Grammar
import ExprLang.Proofs.Scanning
import Mathlib.Data.List.Basic

/-!
# Spelling

How terminals are written so that a scanner reads them again: names and keywords by their letters,
numbers in base ten, and punctuation by single bytes. A text is put together from its end, since a
word is over only where no letter or digit follows it.
-/
namespace ExprLang

namespace Byte

def ofText (text : String) : List UInt8 := text.toUTF8.toList

theorem toList_loop (bytes : ByteArray) (i : Nat) (before : List UInt8) :
    ByteArray.toList.loop bytes i before = before.reverse ++ bytes.data.toList.drop i := by
  fun_induction ByteArray.toList.loop bytes i before with
  | case1 i before hlt ih =>
    have hlength : i < bytes.data.toList.length := by simpa using hlt
    have hget : bytes.get! i = bytes.data.toList[i] := getElem!_pos bytes.data i hlength
    rw [ih, List.drop_eq_getElem_cons hlength, hget]
    simp
  | case2 i before hlt =>
    have hlength : bytes.data.toList.length ≤ i := by simpa using hlt
    simp [List.drop_eq_nil_of_le hlength]

theorem ofText_eq (text : String) : ofText text = text.toList.flatMap String.utf8EncodeChar := by
  have hbytes : text.toByteArray = text.toList.utf8Encode := by
    rw [← String.toByteArray_ofList, String.ofList_toList]
  rw [ofText, String.toUTF8_eq_toByteArray, ByteArray.toList, toList_loop, hbytes]
  simp [List.utf8Encode]

@[simp] theorem ofText_empty : ofText "" = [] := by simp [ofText_eq]

@[simp] theorem ofText_append (text more : String) :
    ofText (text ++ more) = ofText text ++ ofText more := by
  simp [ofText_eq]

theorem encode_of_ascii {c : Char} (h : c.toNat < 128) :
    String.utf8EncodeChar c = [c.toUInt8] := by
  have hle : c.val ≤ 127 := UInt32.le_iff_toNat_le.2 (Nat.le_of_lt_succ h)
  exact String.utf8EncodeChar_eq_singleton (Char.utf8Size_eq_one_iff.2 hle)

theorem ofText_of_ascii {text : String} (h : ∀ c ∈ text.toList, c.toNat < 128) :
    ofText text = text.toList.map Char.toUInt8 := by
  rw [ofText_eq, List.map_eq_flatMap]
  exact List.flatMap_congr fun c hc => encode_of_ascii (h c hc)

theorem toNat_toUInt8 {c : Char} (h : c.toNat < 128) : c.toUInt8.toNat = c.toNat := by
  change c.val.toUInt8.toNat = c.val.toNat
  rw [UInt32.toNat_toUInt8]
  exact Nat.mod_eq_of_lt (Nat.lt_trans h (by decide))

theorem toNat_ofUInt8 (byte : UInt8) : (Char.ofUInt8 byte).toNat = byte.toNat :=
  UInt8.toNat_toUInt32 byte

theorem ofUInt8_toUInt8 {c : Char} (h : c.toNat < 128) : Char.ofUInt8 c.toUInt8 = c :=
  Char.toNat_inj.1 ((toNat_ofUInt8 c.toUInt8).trans (toNat_toUInt8 h))

theorem text_ofText {text : String} (h : ∀ c ∈ text.toList, c.toNat < 128) :
    Byte.text (ofText text) = text := by
  have hmap : (text.toList.map Char.toUInt8).map Char.ofUInt8 = text.toList := by
    rw [List.map_map]
    exact (List.map_congr_left fun c hc => ofUInt8_toUInt8 (h c hc)).trans (List.map_id _)
  rw [ofText_of_ascii h, Byte.text, hmap, String.ofList_toList]

theorem isAlpha_iff_toNat {c : Char} : c.isAlpha = true ↔
    (65 ≤ c.toNat ∧ c.toNat ≤ 90) ∨ (97 ≤ c.toNat ∧ c.toNat ≤ 122) := by
  have hupper : c.isUpper = true ↔ 'A'.val ≤ c.val ∧ c.val ≤ 'Z'.val := decide_eq_true_iff
  have hlower : c.isLower = true ↔ 'a'.val ≤ c.val ∧ c.val ≤ 'z'.val :=
    Bool.and_eq_true_iff.trans (and_congr decide_eq_true_iff decide_eq_true_iff)
  exact Bool.or_eq_true_iff.trans (or_congr hupper hlower)

theorem toNat_of_isDigit {c : Char} (h : c.isDigit = true) : 48 ≤ c.toNat ∧ c.toNat ≤ 57 :=
  Char.isDigit_iff_toNat.1 h

theorem isAlpha_ofUInt8 {byte : UInt8} (h : isLetter byte = true) :
    (Char.ofUInt8 byte).isAlpha = true := by
  rw [isAlpha_iff_toNat, toNat_ofUInt8]
  simpa [isLetter, UInt8.le_iff_toNat_le] using h

theorem isAlphanum_ofUInt8 {byte : UInt8} (h : isWordByte byte = true) :
    (Char.ofUInt8 byte).isAlphanum = true := by
  rcases Bool.or_eq_true_iff.1 h with hdigit | hletter
  · have hrange : 48 ≤ byte.toNat ∧ byte.toNat ≤ 57 := by
      simpa [Numeral.isDigit, UInt8.le_iff_toNat_le] using hdigit
    rw [Char.isAlphanum, Char.isDigit_iff_toNat.2 (by rwa [toNat_ofUInt8]), Bool.or_true]
  · rw [Char.isAlphanum, isAlpha_ofUInt8 hletter, Bool.true_or]

/-- A letter or digit is the same as a byte. -/
theorem ascii_of_isAlphanum {c : Char} (h : c.isAlphanum = true) : c.toNat < 128 := by
  rcases Bool.or_eq_true_iff.1 h with halpha | hdigit
  · have hrange := isAlpha_iff_toNat.1 halpha
    omega
  · have hrange := toNat_of_isDigit hdigit
    omega

theorem isLetter_toUInt8 {c : Char} (h : c.isAlpha = true) : isLetter c.toUInt8 = true := by
  have hrange := isAlpha_iff_toNat.1 h
  have hnat := toNat_toUInt8 (c := c) (by omega)
  simpa [isLetter, UInt8.le_iff_toNat_le, hnat] using hrange

theorem isDigit_toUInt8 {c : Char} (h : c.isDigit = true) :
    Numeral.isDigit c.toUInt8 = true := by
  have hrange := toNat_of_isDigit h
  have hnat := toNat_toUInt8 (c := c) (by omega)
  simpa [Numeral.isDigit, UInt8.le_iff_toNat_le, hnat] using hrange

theorem isWordByte_toUInt8 {c : Char} (h : c.isAlphanum = true) :
    isWordByte c.toUInt8 = true := by
  rcases Bool.or_eq_true_iff.1 h with halpha | hdigit
  · simp [isWordByte, isLetter_toUInt8 halpha]
  · simp [isWordByte, isDigit_toUInt8 hdigit]

theorem ofText_blank : ∀ byte ∈ blanks, ofText (text [byte]) = [byte] := by decide +kernel

theorem ofText_mark : ∀ entry ∈ punctuation, ofText (text [entry.1]) = [entry.1] := by
  decide +kernel

theorem exists_mark {op : Operator} (binary : op.isBinary = true) :
    ∃ byte, (byte, Terminal.operator op) ∈ punctuation ∧ text [byte] = op.symbol := by
  have hlisted : ∃ byte, (byte, Terminal.operator op) ∈ punctuation := by
    cases op <;> simp [punctuation, Operator.isBinary] at binary ⊢
  exact hlisted.imp fun _ h => ⟨h, symbol_of_punctuation h⟩

end Byte

def opens (text : String) : Bool := (Byte.ofText text).head?.any fun byte => !Byte.isWordByte byte

theorem opens_append {text : String} (h : opens text = true) (more : String) :
    opens (text ++ more) = true := by
  unfold opens at *
  rw [Byte.ofText_append]
  cases hbytes : Byte.ofText text with
  | nil => simp [hbytes] at h
  | cons byte bytes => simpa [hbytes] using h

theorem endsRun_append {text more : String}
    (h : EndsRun Byte.isWordByte (Byte.ofText text)) (hmore : opens more = true) :
    EndsRun Byte.isWordByte (Byte.ofText (text ++ more)) := by
  rw [Byte.ofText_append]
  cases hbytes : Byte.ofText text with
  | nil =>
    intro byte hbyte
    rw [List.nil_append] at hbyte
    simpa [opens, hbyte] using hmore
  | cons byte bytes => exact endsRun_cons (h byte (by simp [hbytes])) _

theorem endsRun_empty : EndsRun Byte.isWordByte (Byte.ofText "") := by
  simpa using endsRun_nil _

theorem endsRun_of_opens {text : String} (h : opens text = true) :
    EndsRun Byte.isWordByte (Byte.ofText text) := by
  simpa using endsRun_append endsRun_empty h

structure IsWord (word : String) : Prop where
  begins : word.toList.head?.any Char.isAlpha = true
  inside : word.toList.all Char.isAlphanum = true

theorem IsWord.ne_empty {word : String} (h : IsWord word) : word ≠ "" := by
  rintro rfl
  simpa using h.begins

structure IsName (name : String) : Prop extends IsWord name where
  free : ∀ k : Keyword, name ≠ k.spelling

instance (word : String) : Decidable (IsWord word) :=
  decidable_of_iff
    (word.toList.head?.any Char.isAlpha = true ∧ word.toList.all Char.isAlphanum = true)
    ⟨fun h => ⟨h.1, h.2⟩, fun h => ⟨h.begins, h.inside⟩⟩

instance (name : String) : Decidable (IsName name) :=
  decidable_of_iff (IsWord name ∧ ∀ k ∈ Keyword.all, name ≠ k.spelling)
    ⟨fun h => ⟨h.1, fun k => h.2 k k.mem_all⟩, fun h => ⟨h.toIsWord, fun k _ => h.free k⟩⟩

theorem IsName.ofWord_eq {name : String} (h : IsName name) :
    Terminal.ofWord name = .identifier name := by
  have hnone : Keyword.ofSpelling? name = none :=
    List.find?_eq_none.2 fun k _ => by simpa using (h.free k).symm
  rw [Terminal.ofWord, hnone]

/-- What a scanner takes for a word is one. -/
theorem isWord_text {letter : UInt8} {bytes : List UInt8} (begins : Byte.isLetter letter = true)
    (inside : ∀ byte ∈ bytes, Byte.isWordByte byte = true) :
    IsWord (Byte.text (letter :: bytes)) := by
  have hword : Byte.isWordByte letter = true := by simp [Byte.isWordByte, begins]
  constructor
  · simpa [Byte.text] using Byte.isAlpha_ofUInt8 begins
  · rw [Byte.text, String.toList_ofList, List.all_eq_true, List.forall_mem_map,
      List.forall_mem_cons]
    exact ⟨Byte.isAlphanum_ofUInt8 hword, fun byte hbyte =>
      Byte.isAlphanum_ofUInt8 (inside byte hbyte)⟩

theorem Keyword.isWord_spelling (k : Keyword) : IsWord k.spelling := by
  cases k <;> decide

theorem Keyword.ofWord_spelling (k : Keyword) : Terminal.ofWord k.spelling = .keyword k := by
  cases k <;> rfl

section Segment

variable {bits : Nat} {place : Location} {rest : List UInt8}

theorem IsWord.segment {word : String} (h : IsWord word)
    (maximal : EndsRun Byte.isWordByte rest) :
    Segment bits place (Byte.ofText word) rest (.ok ⟨.ofWord word, word, place, none⟩) := by
  have halphanum := List.all_eq_true.1 h.inside
  have hascii : ∀ c ∈ word.toList, c.toNat < 128 :=
    fun c hc => Byte.ascii_of_isAlphanum (halphanum c hc)
  obtain ⟨letter, hletter, halpha⟩ := (Option.any_eq_true _ _).1 h.begins
  obtain ⟨cs, hcs⟩ := List.head?_eq_some_iff.1 hletter
  have hbytes : Byte.ofText word = letter.toUInt8 :: cs.map Char.toUInt8 := by
    rw [Byte.ofText_of_ascii hascii, hcs, List.map_cons]
  have htext : Byte.text (letter.toUInt8 :: cs.map Char.toUInt8) = word :=
    hbytes ▸ Byte.text_ofText hascii
  have hinside : ∀ byte ∈ cs.map Char.toUInt8, Byte.isWordByte byte = true :=
    List.forall_mem_map.2 fun c hc => Byte.isWordByte_toUInt8 (halphanum c (by simp [hcs, hc]))
  rw [hbytes, ← htext]
  exact .of_word (Byte.isLetter_toUInt8 halpha) hinside maximal

/-- The digits of a number denote it. -/
theorem Numeral.decimal_toUInt8 {cs : List Char} (h : ∀ c ∈ cs, c.isDigit = true) :
    Numeral.decimal (cs.map Char.toUInt8) = Nat.ofDigitChars 10 cs 0 := by
  induction cs with
  | nil => rfl
  | cons c cs ih =>
    obtain ⟨hdigit, hdigits⟩ := List.forall_mem_cons.1 h
    have hascii : c.toNat < 128 := Nat.lt_of_le_of_lt (Byte.toNat_of_isDigit hdigit).2 (by decide)
    have hvalue : Numeral.digitValue c.toUInt8 = c.toNat - '0'.toNat := by
      rw [Numeral.digitValue, Byte.toNat_toUInt8 hascii]
      rfl
    calc Numeral.decimal ((c :: cs).map Char.toUInt8)
        = 10 ^ cs.length * (c.toNat - '0'.toNat) + Nat.ofDigitChars 10 cs 0 := by
          rw [List.map_cons, Numeral.decimal, ih hdigits, hvalue, List.length_map, Nat.mul_comm]
      _ = Nat.ofDigitChars 10 cs (10 * 0 + (c.toNat - '0'.toNat)) := by
          rw [Nat.mul_zero, Nat.zero_add, ← Nat.ofDigitChars_eq_ofDigitChars_zero]
      _ = Nat.ofDigitChars 10 (c :: cs) 0 := Nat.ofDigitChars_cons.symm

theorem segment_number {value : Nat} (fits : value ≤ 2 ^ bits - 1)
    (maximal : EndsRun Numeral.isDigit rest) :
    Segment bits place (Byte.ofText (toString value)) rest
      (.ok ⟨.number value, toString value, place, none⟩) := by
  have hchars : (toString value).toList = Nat.toDigits 10 value := by
    rw [Nat.toString_eq_repr, Nat.repr_eq_ofList_toDigits, String.toList_ofList]
  have hdigit : ∀ c ∈ Nat.toDigits 10 value, c.isDigit = true :=
    fun c hc => Nat.isDigit_of_mem_toDigits (by decide) (by decide) hc
  have hascii : ∀ c ∈ (toString value).toList, c.toNat < 128 := fun c hc =>
    Nat.lt_of_le_of_lt (Byte.toNat_of_isDigit (hdigit c (hchars ▸ hc))).2 (by decide)
  have hbytes : Byte.ofText (toString value) = (Nat.toDigits 10 value).map Char.toUInt8 := by
    rw [Byte.ofText_of_ascii hascii, hchars]
  have hvalue : Numeral.decimal (Byte.ofText (toString value)) = value := by
    rw [hbytes, Numeral.decimal_toUInt8 hdigit, Nat.ofDigitChars_ten_toDigits]
  have hne : Byte.ofText (toString value) ≠ [] := by
    rw [hbytes]
    simp [Nat.toDigits_ne_nil]
  have hinside : ∀ byte ∈ Byte.ofText (toString value), Numeral.isDigit byte = true := by
    rw [hbytes]
    exact List.forall_mem_map.2 fun c hc => Byte.isDigit_toUInt8 (hdigit c hc)
  have hsegment : Segment bits place (Byte.ofText (toString value)) rest _ :=
    .number hne hinside maximal (by rwa [hvalue])
  rwa [hvalue, Byte.text_ofText hascii] at hsegment

theorem segment_mark {byte : UInt8} {terminal : Terminal}
    (listed : (byte, terminal) ∈ Byte.punctuation) :
    Segment bits place [byte] rest (.ok ⟨terminal, Byte.text [byte], place, none⟩) :=
  .punctuation listed fun _ h => Byte.symbol_of_punctuation (h ▸ listed)

end Segment

/-- `Written bits ts text`: the text is the terminals `ts`, the one behind the other, where numbers
are `bits` wide. -/
inductive Written (bits : Nat) : List Terminal → String → Prop
  | nil : Written bits [] ""
  | blank (byte : UInt8) {text : String} {ts : List Terminal} (hblank : byte ∈ Byte.blanks)
      (rest : Written bits ts text) : Written bits ts (Byte.text [byte] ++ text)
  | mark (byte : UInt8) {t : Terminal} {text : String} {ts : List Terminal}
      (listed : (byte, t) ∈ Byte.punctuation) (rest : Written bits ts text) :
      Written bits (t :: ts) (Byte.text [byte] ++ text)
  | word {word text : String} {ts : List Terminal} (hword : IsWord word)
      (ends : EndsRun Byte.isWordByte (Byte.ofText text)) (rest : Written bits ts text) :
      Written bits (.ofWord word :: ts) (word ++ text)
  | number {value : Nat} {text : String} {ts : List Terminal} (fits : value ≤ 2 ^ bits - 1)
      (ends : EndsRun Byte.isWordByte (Byte.ofText text)) (rest : Written bits ts text) :
      Written bits (.number value :: ts) (toString value ++ text)

namespace Written

variable {bits : Nat} {ts us : List Terminal} {text more : String}

theorem append (h : Written bits ts text) (g : Written bits us more) (hmore : opens more = true) :
    Written bits (ts ++ us) (text ++ more) := by
  induction h with
  | nil => simpa using g
  | blank byte hblank _ ih => exact String.append_assoc .. ▸ .blank byte hblank ih
  | mark byte listed _ ih => exact String.append_assoc .. ▸ .mark byte listed ih
  | word hword ends _ ih =>
    exact String.append_assoc .. ▸ .word hword (endsRun_append ends hmore) ih
  | number fits ends _ ih =>
    exact String.append_assoc .. ▸ .number fits (endsRun_append ends hmore) ih

theorem length_le (h : Written bits ts text) : ts.length ≤ text.length := by
  induction h with
  | nil => exact Nat.zero_le _
  | blank _ _ _ ih =>
    rw [String.length_append]
    omega
  | mark _ _ _ ih =>
    rw [List.length_cons, String.length_append, Byte.length_text, List.length_singleton]
    omega
  | word hword _ _ ih =>
    have hlength := Nat.pos_of_ne_zero (mt String.length_eq_zero_iff.1 hword.ne_empty)
    rw [List.length_cons, String.length_append]
    omega
  | @number value _ _ _ _ _ ih =>
    have hlength : 0 < (toString value).length := Nat.length_repr_pos
    rw [List.length_cons, String.length_append]
    omega

end Written

/-- A scanner in front of these bytes delivers these terminals and then the end of input. -/
def Scans (bits : Nat) (ts : List Terminal) (bytes : List UInt8) : Prop :=
  ∀ s : Scanner, s.numberBits = bits → s.rest = bytes → s.ended = none →
    ∃ us last, s.Yields (us ++ [last]) none ∧ terminals us = ts ∧
      (∀ t ∈ us, t.isEnd = false) ∧ last.isEnd = true

namespace Scans

variable {bits : Nat} {ts : List Terminal} {bytes rest : List UInt8}

theorem nil : Scans bits [] [] := fun s _ hrest hended =>
  ⟨[], .endOfInput s.location, Scanner.yields_nil hended hrest, rfl, by simp, rfl⟩

theorem blank {byte : UInt8} (hblank : Byte.isBlank byte = true) (h : Scans bits ts rest) :
    Scans bits ts (byte :: rest) := by
  intro s hbits hrest hended
  obtain ⟨us, last, hyields, hus⟩ := h (s.past [byte] rest) hbits rfl hended
  exact ⟨us, last, hyields.of_next_eq (Scanner.next_of_blank hended hrest hblank), hus⟩

theorem segment {t : Terminal} {lexeme : String}
    (hsegment : ∀ place, Segment bits place bytes rest (.ok ⟨t, lexeme, place, none⟩))
    (h : Scans bits ts rest) : Scans bits (t :: ts) (bytes ++ rest) := by
  rintro s rfl hrest hended
  have hnext := Scanner.next_of_segment hended hrest (hsegment s.location)
  have hend := (hsegment s.location).token_eq.2.2
  obtain ⟨us, last, hyields, hus, hends, hlast⟩ := h (s.past bytes rest) rfl rfl hended
  exact ⟨_ :: us, last, .more hnext hend hyields, by simp [hus],
    List.forall_mem_cons.2 ⟨hend, hends⟩, hlast⟩

end Scans

theorem Written.scans {bits : Nat} {ts : List Terminal} {text : String}
    (h : Written bits ts text) : Scans bits ts (Byte.ofText text) := by
  induction h with
  | nil => simpa using Scans.nil
  | blank byte hblank _ ih =>
    rw [Byte.ofText_append, Byte.ofText_blank byte hblank]
    exact ih.blank (List.contains_iff_mem.2 hblank)
  | mark byte listed _ ih =>
    rw [Byte.ofText_append, Byte.ofText_mark _ listed]
    exact ih.segment fun _ => segment_mark listed
  | word hword ends _ ih =>
    rw [Byte.ofText_append]
    exact ih.segment fun _ => hword.segment ends
  | number fits ends _ ih =>
    rw [Byte.ofText_append]
    exact ih.segment fun _ => segment_number fits (ends.imp fun _ h => by simp [Byte.isWordByte, h])

end ExprLang
