import ExprLang.Proofs.TokenSequence

/-!
# What stands in front of a scanner

A segment in front of a scanner is what its next call delivers, and blanks in front of it make no
difference. So the tokens of a source can be told from its bytes, one segment after another.
-/
namespace ExprLang

theorem endsRun_nil (p : UInt8 → Bool) : EndsRun p [] := by simp [EndsRun]

theorem endsRun_cons {p : UInt8 → Bool} {byte : UInt8} (h : p byte = false)
    (rest : List UInt8) : EndsRun p (byte :: rest) := by
  simp [EndsRun, h]

theorem EndsRun.imp {p q : UInt8 → Bool} {rest : List UInt8} (h : EndsRun q rest)
    (himp : ∀ byte, p byte = true → q byte = true) : EndsRun p rest := by
  intro byte hbyte
  have hq := h byte hbyte
  cases hp : p byte with
  | false => rfl
  | true => simp [himp byte hp] at hq

theorem takeWhile_of_endsRun {p : UInt8 → Bool} {rest : List UInt8} (h : EndsRun p rest) :
    rest.takeWhile p = [] := by
  cases rest with
  | nil => rfl
  | cons byte rest => exact List.takeWhile_cons_of_neg (by simp [h byte rfl])

theorem dropWhile_of_endsRun {p : UInt8 → Bool} {rest : List UInt8} (h : EndsRun p rest) :
    rest.dropWhile p = rest := by
  cases rest with
  | nil => rfl
  | cons byte rest => exact List.dropWhile_cons_of_neg (by simp [h byte rfl])

namespace Scanner

variable {s : Scanner} {segment rest : List UInt8} {event : Except ScanError Token}

theorem run_eq {p : UInt8 → Bool} (hrest : s.rest = segment ++ rest)
    (inside : ∀ byte ∈ segment, p byte = true) (maximal : EndsRun p rest) :
    s.run p = segment ∧ s.pastRun p = s.past segment rest := by
  have hrun : s.run p = segment := by
    rw [run, hrest, List.takeWhile_append_of_pos inside, takeWhile_of_endsRun maximal,
      List.append_nil]
  have hdrop : s.rest.dropWhile p = rest := by
    rw [hrest, List.dropWhile_append_of_pos inside, dropWhile_of_endsRun maximal]
  exact ⟨hrun, by rw [pastRun, hrun, hdrop, past]⟩

theorem isDigit_of_isLetter {byte : UInt8} (h : Byte.isLetter byte = true) :
    Numeral.isDigit byte = false := by
  simp [Byte.isLetter, Numeral.isDigit, UInt8.le_iff_toNat_le] at *
  omega

theorem scan_of_isDigit {byte : UInt8} {bytes : List UInt8} (hrest : s.rest = byte :: bytes)
    (h : Numeral.isDigit byte = true) : s.scan = s.scanNumber := by
  simp only [scan, hrest, Segment.isDigit_ne_sentinel h, if_false, h, if_true]

theorem scan_of_isLetter {byte : UInt8} {bytes : List UInt8} (hrest : s.rest = byte :: bytes)
    (h : Byte.isLetter byte = true) : s.scan = s.scanWord := by
  have hword : Byte.isWordByte byte = true := by simp [Byte.isWordByte, h]
  simp only [scan, hrest, Segment.isWordByte_ne_sentinel hword, if_false, isDigit_of_isLetter h,
    h, if_true, Bool.false_eq_true]

theorem scanWord_eq {letter : UInt8} {bytes : List UInt8} {terminal : Terminal}
    (hrest : s.rest = letter :: bytes ++ rest) (begins : Byte.isLetter letter = true)
    (inside : ∀ byte ∈ bytes, Byte.isWordByte byte = true) (maximal : EndsRun Byte.isWordByte rest)
    (hterminal : Terminal.ofWord (Byte.text (letter :: bytes)) = terminal) :
    s.scanWord = (.ok ⟨terminal, Byte.text (letter :: bytes), s.location, none⟩,
      s.past (letter :: bytes) rest) := by
  have hinside : ∀ byte ∈ letter :: bytes, Byte.isWordByte byte = true :=
    List.forall_mem_cons.2 ⟨by simp [Byte.isWordByte, begins], inside⟩
  obtain ⟨hrun, hpast⟩ := run_eq hrest hinside maximal
  rw [scanWord, hrun, hpast, hterminal]

theorem scan_of_segment (hrest : s.rest = segment ++ rest)
    (h : Segment s.numberBits s.location segment rest event) :
    s.scan = (event, s.past segment rest) := by
  cases h with
  | @number digits _ nonempty inside maximal fits =>
    obtain ⟨hrun, hpast⟩ := run_eq hrest inside maximal
    obtain ⟨byte, bytes, rfl⟩ := List.exists_cons_of_ne_nil nonempty
    rw [scan_of_isDigit hrest (inside byte (by simp)), scanNumber, hrun, hpast, Numeral.read_eq,
      maxNumber_eq, if_neg (Nat.not_lt.2 fits)]
  | @overflow digits _ nonempty inside maximal large =>
    obtain ⟨hrun, hpast⟩ := run_eq hrest inside maximal
    obtain ⟨byte, bytes, rfl⟩ := List.exists_cons_of_ne_nil nonempty
    rw [scan_of_isDigit hrest (inside byte (by simp)), scanNumber, hrun, hpast, Numeral.read_eq,
      maxNumber_eq, if_pos large]
  | @identifier letter bytes _ begins inside maximal free =>
    have hkeyword : Keyword.ofSpelling? (Byte.text (letter :: bytes)) = none :=
      List.find?_eq_none.2 fun k _ => by simpa using (free k).symm
    rw [scan_of_isLetter hrest begins]
    exact scanWord_eq hrest begins inside maximal (by rw [Terminal.ofWord, hkeyword])
  | @keyword letter bytes _ k begins inside maximal spelt =>
    have hkeyword : Keyword.ofSpelling? k.spelling = some k := by cases k <;> rfl
    rw [scan_of_isLetter hrest begins]
    exact scanWord_eq hrest begins inside maximal (by rw [Terminal.ofWord, spelt, hkeyword])
  | @punctuation byte _ terminal listed matching =>
    have hentries : ∀ entry ∈ Byte.punctuation, entry.1 ≠ Byte.sentinel ∧
        Numeral.isDigit entry.1 = false ∧ Byte.isLetter entry.1 = false ∧
        Byte.punctuation.lookup entry.1 = some entry.2 := by decide
    obtain ⟨hnonzero, hdigit, hletter, hlookup⟩ := hentries _ listed
    simp [scan, scanByte, hrest, hnonzero, hdigit, hletter, hlookup, past, Position.after]
  | @invalid byte _ nonzero visible noDigit noLetter unlisted =>
    have hlookup : Byte.punctuation.lookup byte = none := by
      refine List.lookup_eq_none_iff.2 fun entry hentry => bne_iff_ne.2 ?_
      rintro rfl
      exact unlisted entry.2 hentry
    simp [scan, scanByte, hrest, nonzero, noDigit, noLetter, hlookup, past, Position.after]

theorem skipBlanks_of_endsRun (h : EndsRun Byte.isBlank s.rest) : s.skipBlanks = s := by
  have hrest : s.rest = [] ++ s.rest := rfl
  rw [skipBlanks, (run_eq hrest (by simp) h).2]
  rfl

theorem next_of_segment (hended : s.ended = none) (hrest : s.rest = segment ++ rest)
    (h : Segment s.numberBits s.location segment rest event) :
    s.next = (event, s.past segment rest) := by
  have hvisible : EndsRun Byte.isBlank s.rest := by
    obtain ⟨byte, bytes, rfl⟩ := List.exists_cons_of_ne_nil h.ne_nil
    have hfilter := List.filter_eq_self.1 h.visible_eq byte (by simp)
    rw [hrest]
    exact endsRun_cons (by simpa using hfilter) _
  simp only [next, hended, skipBlanks_of_endsRun hvisible]
  exact scan_of_segment hrest h

/-- A blank in front of the scanner changes nothing but places. -/
theorem next_of_blank {byte : UInt8} (hended : s.ended = none) (hrest : s.rest = byte :: rest)
    (hblank : Byte.isBlank byte = true) : s.next = (s.past [byte] rest).next := by
  have hskip : s.skipBlanks = (s.past [byte] rest).skipBlanks := by
    simp only [skipBlanks, pastRun, run, hrest, past, List.takeWhile_cons_of_pos hblank,
      List.dropWhile_cons_of_pos hblank, Position.after, List.foldl_cons, List.foldl_nil]
  simp only [next, hended, past] at hskip ⊢
  rw [hskip]

theorem next_of_gap {gap : List UInt8} (hended : s.ended = none) (hrest : s.rest = gap ++ rest)
    (hgap : ∀ byte ∈ gap, Byte.isBlank byte = true) : s.next = (s.past gap rest).next := by
  induction gap generalizing s with
  | nil =>
    have hsame : s.past [] rest = s := by rw [past, ← show s.rest = rest from hrest]; rfl
    rw [hsame]
  | cons byte gap ih =>
    obtain ⟨hbyte, hbehind⟩ := List.forall_mem_cons.1 hgap
    rw [next_of_blank hended hrest hbyte]
    exact ih (s := s.past [byte] (gap ++ rest)) hended rfl hbehind

theorem Yields.of_next_eq {s' : Scanner} {ts : List Token} {failure : Option ScanError}
    (h : s'.Yields ts failure) (hnext : s.next = s'.next) : s.Yields ts failure := by
  cases h with
  | fail h => exact .fail (hnext.trans h)
  | finish h hend => exact .finish (hnext.trans h) hend
  | more h hend rest => exact .more (hnext.trans h) hend rest

theorem yields_nil (hended : s.ended = none) (hrest : s.rest = []) :
    s.Yields [.endOfInput s.location] none := by
  have hvisible : EndsRun Byte.isBlank s.rest := hrest ▸ endsRun_nil _
  have hnext : s.next = s.finish := by
    simp only [next, hended, skipBlanks_of_endsRun hvisible]
    simp [scan, hrest]
  exact .finish hnext rfl

end Scanner
end ExprLang
