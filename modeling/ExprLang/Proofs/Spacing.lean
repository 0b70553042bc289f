import ExprLang.Proofs.Layout
import ExprLang.Proofs.Spelling
import Mathlib.Data.List.Chain

/-!
# Spacing

Texts of tokens, written the one behind the other with any blanks between them. A scanner reads
these tokens again unless one of them takes over the beginning of the next, and that happens only
where nothing separates a word from a word or a number, or a number from a number.
-/
namespace ExprLang

namespace Kind

def isWord : Kind → Bool
  | identifier | keyword _ => true
  | _ => false

/-- The bytes that a token of this kind takes as long as they come. -/
def continues : Kind → UInt8 → Bool
  | number => Numeral.isDigit
  | identifier | keyword _ => Byte.isWordByte
  | _ => fun _ => false

/-- A token of the one kind takes over the beginning of the other. -/
def RunsInto (a b : Kind) : Prop :=
  (a.isWord = true ∧ (b.isWord = true ∨ b = number)) ∨ (a = number ∧ b = number)

instance (a b : Kind) : Decidable (a.RunsInto b) := inferInstanceAs (Decidable (_ ∨ _))

theorem continues_iff (k : Kind) (byte : UInt8) : k.continues byte = true ↔
    (k.isWord = true ∧ Byte.isWordByte byte = true) ∨
      (k = number ∧ Numeral.isDigit byte = true) := by
  cases k <;> simp [continues, isWord]

theorem continues_of_isWord {k : Kind} (h : k.isWord = true) : k.continues = Byte.isWordByte := by
  cases k <;> first | rfl | simp [isWord] at h

theorem continues_of_blank (k : Kind) {byte : UInt8} (h : Byte.isBlank byte = true) :
    k.continues byte = false := by
  have hword : Byte.isWordByte byte = false := by
    cases hbyte : Byte.isWordByte byte with
    | false => rfl
    | true => simp [Byte.isBlank_of_isWordByte hbyte] at h
  have hdigit : Numeral.isDigit byte = false := (Bool.or_eq_false_iff.1 hword).1
  cases k <;> simp [continues, hword, hdigit]

end Kind

/-- `Spelt bits bytes t`: the bytes are a text of the terminal `t`, where numbers are `bits`
wide. -/
inductive Spelt (bits : Nat) : List UInt8 → Terminal → Prop
  | number {digits : List UInt8} (nonempty : digits ≠ [])
      (inside : ∀ byte ∈ digits, Numeral.isDigit byte = true)
      (fits : Numeral.decimal digits ≤ 2 ^ bits - 1) :
      Spelt bits digits (.number (Numeral.decimal digits))
  | word {letter : UInt8} {bytes : List UInt8} (begins : Byte.isLetter letter = true)
      (inside : ∀ byte ∈ bytes, Byte.isWordByte byte = true) :
      Spelt bits (letter :: bytes) (.ofWord (Byte.text (letter :: bytes)))
  | mark {byte : UInt8} {t : Terminal} (listed : (byte, t) ∈ Byte.punctuation) :
      Spelt bits [byte] t

theorem Terminal.isWord_ofWord (word : String) : (Terminal.ofWord word).kind.isWord = true := by
  unfold Terminal.ofWord
  split <;> rfl

theorem Terminal.continues_of_mark {byte : UInt8} {t : Terminal}
    (h : (byte, t) ∈ Byte.punctuation) : t.kind.continues = fun _ => false := by
  cases t with
  | number | identifier | keyword => simp [Byte.punctuation] at h
  | _ => rfl

namespace Spelt

variable {bits : Nat} {bytes rest : List UInt8} {t : Terminal} {place : Location}

/-- Where the token is over, its text is a segment. -/
theorem segment (h : Spelt bits bytes t) (hends : EndsRun t.kind.continues rest) :
    Segment bits place bytes rest (.ok ⟨t, Byte.text bytes, place, none⟩) := by
  cases h with
  | number nonempty inside fits => exact .number nonempty inside hends fits
  | word begins inside =>
    rw [Kind.continues_of_isWord (Terminal.isWord_ofWord _)] at hends
    exact .of_word begins inside hends
  | mark listed => exact segment_mark listed

/-- The first byte is seen, and its class tells the kind of the token. -/
theorem exists_cons (h : Spelt bits bytes t) : ∃ byte behind, bytes = byte :: behind ∧
    Byte.isBlank byte = false ∧
    (Byte.isWordByte byte = true ↔ t.kind.isWord = true ∨ t.kind = .number) ∧
    (Numeral.isDigit byte = true ↔ t.kind = .number) := by
  cases h with
  | @number digits nonempty inside =>
    obtain ⟨byte, behind, rfl⟩ := List.exists_cons_of_ne_nil nonempty
    have hdigit := inside byte (by simp)
    have hword : Byte.isWordByte byte = true := by simp [Byte.isWordByte, hdigit]
    refine ⟨byte, behind, rfl, Byte.isBlank_of_isWordByte hword, ?_, ?_⟩
    · simp [Terminal.kind, hword]
    · simp [Terminal.kind, hdigit]
  | @word letter bytes begins =>
    have hword : Byte.isWordByte letter = true := by simp [Byte.isWordByte, begins]
    have hkind := Terminal.isWord_ofWord (Byte.text (letter :: bytes))
    have hnumber : (Terminal.ofWord (Byte.text (letter :: bytes))).kind ≠ .number := by
      intro heq
      simp [heq, Kind.isWord] at hkind
    refine ⟨letter, bytes, rfl, Byte.isBlank_of_isWordByte hword, ?_, ?_⟩
    · simp [hkind, hword]
    · simp [hnumber, Scanner.isDigit_of_isLetter begins]
  | @mark byte t listed =>
    have hentries : ∀ entry ∈ Byte.punctuation, Byte.isBlank entry.1 = false ∧
        Byte.isWordByte entry.1 = false ∧ entry.2.kind.isWord = false ∧
        entry.2.kind ≠ .number := by decide
    obtain ⟨hblank, hword, hkind, hnumber⟩ := hentries _ listed
    have hdigit : Numeral.isDigit byte = false := (Bool.or_eq_false_iff.1 hword).1
    simp only at hblank hword hkind hnumber
    refine ⟨byte, [], rfl, hblank, ?_, ?_⟩
    · simp [hword, hkind, hnumber]
    · simp [hdigit, hnumber]

theorem continues_iff {byte : UInt8} {behind : List UInt8} (h : Spelt bits (byte :: behind) t)
    (k : Kind) : k.continues byte = true ↔ k.RunsInto t.kind := by
  obtain ⟨_, _, heq, _, hword, hdigit⟩ := h.exists_cons
  obtain ⟨rfl, rfl⟩ := List.cons.inj heq
  rw [Kind.continues_iff, hword, hdigit, Kind.RunsInto]

end Spelt

/-- A token takes all that it can. -/
theorem Segment.endsRun {bits : Nat} {place : Location} {segment rest : List UInt8} {t : Token}
    (h : Segment bits place segment rest (.ok t)) : EndsRun t.kind.continues rest := by
  cases h with
  | number _ _ maximal | identifier _ _ maximal | keyword _ _ maximal => exact maximal
  | punctuation listed =>
    rw [Token.kind, Terminal.continues_of_mark listed]
    exact fun _ _ => rfl

structure Spelling (bits : Nat) where
  bytes : List UInt8
  terminal : Terminal
  spelt : Spelt bits bytes terminal

namespace Spelling

variable {bits : Nat}

def kind (w : Spelling bits) : Kind := w.terminal.kind

/-- The token has this text, and the kind and the value that go with it. -/
structure Is (w : Spelling bits) (t : Token) : Prop where
  kind_eq : t.kind = w.kind
  lexeme_eq : t.lexeme = Byte.text w.bytes
  value_eq : t.value? = w.terminal.value?

end Spelling

structure Spaced (bits : Nat) where
  gap : List UInt8
  blank : ∀ byte ∈ gap, Byte.isBlank byte = true
  spelling : Spelling bits

namespace Spaced

variable {bits : Nat}

def bytes (i : Spaced bits) : List UInt8 := i.gap ++ i.spelling.bytes

/-- What follows stands apart, or it is not taken over. -/
def Apart (i next : Spaced bits) : Prop :=
  next.gap = [] → ¬ i.spelling.kind.RunsInto next.spelling.kind

instance (i next : Spaced bits) : Decidable (i.Apart next) :=
  inferInstanceAs (Decidable (_ → ¬ _))

def render (items : List (Spaced bits)) (ending : List UInt8) : List UInt8 :=
  items.flatMap bytes ++ ending

theorem render_cons (i : Spaced bits) (items : List (Spaced bits)) (ending : List UInt8) :
    render (i :: items) ending = i.gap ++ (i.spelling.bytes ++ render items ending) := by
  simp [render, bytes]

/-- Where a token of a kind would be over in front of a text. -/
theorem endsRun_render {ending : List UInt8} (hending : ∀ byte ∈ ending, Byte.isBlank byte = true)
    (k : Kind) (items : List (Spaced bits)) :
    EndsRun k.continues (render items ending) ↔
      ∀ i ∈ items.head?, i.gap = [] → ¬ k.RunsInto i.spelling.kind := by
  have hblank {gap : List UInt8} (hgap : ∀ byte ∈ gap, Byte.isBlank byte = true) (hne : gap ≠ [])
      (rest : List UInt8) : EndsRun k.continues (gap ++ rest) := by
    obtain ⟨byte, behind, rfl⟩ := List.exists_cons_of_ne_nil hne
    exact endsRun_cons (k.continues_of_blank (hgap byte (by simp))) _
  cases items with
  | nil =>
    refine iff_of_true ?_ (by simp)
    cases ending with
    | nil => exact endsRun_nil _
    | cons byte behind => simpa [render] using hblank hending (by simp) []
  | cons i items =>
    simp only [List.head?_cons, Option.mem_def, Option.some.injEq, forall_eq', render_cons]
    by_cases hgap : i.gap = []
    · obtain ⟨byte, behind, hbytes, _⟩ := i.spelling.spelt.exists_cons
      have hspelt := i.spelling.spelt
      rw [hbytes] at hspelt
      rw [Spelling.kind, ← hspelt.continues_iff k]
      simp [EndsRun, hgap, hbytes]
    · exact iff_of_true (hblank i.blank hgap _) fun h => absurd h hgap

end Spaced

namespace Scanner

variable {s s' : Scanner} {bits : Nat} {gap rest : List UInt8} {ws : List (Spelling bits)}

/-- All tokens that are left are of these spellings, and then the input ends. -/
def Recovers (s : Scanner) (ws : List (Spelling bits)) : Prop :=
  ∃ ts place r, s.all = (.ok (ts ++ [.endOfInput place]), r) ∧ List.Forall₂ Spelling.Is ws ts

theorem recovers_iff : s.Recovers ws ↔
    ∃ ts place, s.Yields (ts ++ [.endOfInput place]) none ∧ List.Forall₂ Spelling.Is ws ts := by
  constructor
  · intro h
    obtain ⟨ts, place, r, hall, hts⟩ := h
    exact ⟨ts, place, yields_of_all hall, hts⟩
  · intro h
    obtain ⟨ts, place, hyields, hts⟩ := h
    obtain ⟨r, hall⟩ := hyields.all_eq
    exact ⟨ts, place, r, hall, hts⟩

theorem Recovers.of_next_eq (hs : s.Recovers ws) (h : s'.next = s.next) : s'.Recovers ws := by
  rw [recovers_iff] at hs ⊢
  obtain ⟨ts, place, hyields, hts⟩ := hs
  exact ⟨ts, place, hyields.of_next_eq h, hts⟩

theorem recovers_of_next_eq (h : s.next = s'.next) : s.Recovers ws ↔ s'.Recovers ws :=
  ⟨fun hs => hs.of_next_eq h.symm, fun hs => hs.of_next_eq h⟩

theorem recovers_nil (hended : s.ended = none)
    (hblank : ∀ byte ∈ s.rest, Byte.isBlank byte = true) :
    s.Recovers ([] : List (Spelling bits)) := by
  have hnext : s.next = (s.past s.rest []).next :=
    next_of_gap hended (List.append_nil _).symm hblank
  rw [recovers_of_next_eq hnext, recovers_iff]
  exact ⟨[], _, yields_nil hended rfl, .nil⟩

/-- A token that is not the last one comes from a segment. -/
theorem Yields.exists_delivers {t : Token} {ts : List Token} {failure : Option ScanError}
    (h : s.Yields (t :: ts) failure) (hne : ts ≠ []) (hended : s.ended = none) :
    ∃ p rest, Delivers s p rest ∧ p.event = .ok t ∧ (s.past p.bytes rest).Yields ts failure := by
  cases h with
  | finish => contradiction
  | more hnext hend hyields =>
    rcases delivers_or_finishes hended with ⟨p, rest, hp⟩ | ⟨gap, rest, hfinish⟩
    · have hsame := hp.next_eq.symm.trans hnext
      rw [Prod.mk.injEq] at hsame
      obtain ⟨hevent, rfl⟩ := hsame
      exact ⟨p, rest, hp, hevent, hyields⟩
    · rw [hfinish.next_eq, Prod.mk.injEq, Except.ok.injEq] at hnext
      simp [← hnext.1, Token.isEnd, Token.endOfInput] at hend

/-- A text in front of the scanner that is read as one token is the piece that is delivered. -/
theorem Delivers.eq_of_text {p : Piece} {behind bytes : List UInt8} {t : Terminal}
    (h : Delivers s p behind) (hspelt : Spelt bits bytes t) (hrest : s.rest = bytes ++ rest)
    (htext : Byte.text p.segment = Byte.text bytes) :
    p.bytes = bytes ∧ p.segment = bytes ∧ behind = rest := by
  have hsegment := Byte.text_injective htext
  have hsplit := h.rest_eq.symm.trans hrest
  obtain ⟨byte, others, hbytes, hvisible, _⟩ := hspelt.exists_cons
  have hgap : p.gap = [] := by
    cases hgap : p.gap with
    | nil => rfl
    | cons b bs =>
      -- a blank would stand where the text begins
      rw [Piece.bytes, hgap, hbytes, List.cons_append, List.cons_append, List.cons_append,
        List.cons.injEq] at hsplit
      have hblank := h.blank b (by simp [hgap])
      simp [hsplit.1, hvisible] at hblank
  have hpbytes : p.bytes = bytes := by rw [Piece.bytes, hgap, hsegment, List.nil_append]
  rw [hpbytes] at hsplit
  exact ⟨hpbytes, hsegment, List.append_cancel_left hsplit⟩

/-- The first token is read again if it is over where its text ends, and only then. -/
theorem recovers_cons {w : Spelling bits} (hbits : s.numberBits = bits) (hended : s.ended = none)
    (hrest : s.rest = w.bytes ++ rest) :
    s.Recovers (w :: ws) ↔ EndsRun w.kind.continues rest ∧ (s.past w.bytes rest).Recovers ws := by
  subst hbits
  rw [recovers_iff, recovers_iff]
  constructor
  · intro h
    obtain ⟨_, place, hyields, hts⟩ := h
    cases hts with
    | @cons _ t _ ts hw hts =>
      obtain ⟨p, behind, hp, hevent, hyields⟩ := hyields.exists_delivers (by simp) hended
      have htext := (hp.token_eq hevent).1.symm.trans hw.lexeme_eq
      obtain ⟨hbytes, hsegment, rfl⟩ := hp.eq_of_text w.spelt hrest htext
      have hends := Segment.endsRun (hevent ▸ hp.segment)
      rw [hw.kind_eq] at hends
      rw [hbytes] at hyields
      exact ⟨hends, ts, place, hyields, hts⟩
  · intro h
    obtain ⟨hends, ts, place, hyields, hts⟩ := h
    have hsegment : Segment s.numberBits s.location w.bytes rest _ := w.spelt.segment hends
    have hnext := next_of_segment hended hrest hsegment
    have hvalue : Token.value? ⟨w.terminal, Byte.text w.bytes, s.location, none⟩ =
        w.terminal.value? := by
      unfold Token.value?
      cases w.terminal.value? <;> rfl
    exact ⟨_ :: ts, place, .more hnext hsegment.token_eq.2.2 hyields, .cons ⟨rfl, rfl, hvalue⟩ hts⟩

/-- Texts of tokens are read again where each of them is over before the next one begins. -/
theorem recovers_render {ending : List UInt8}
    (hending : ∀ byte ∈ ending, Byte.isBlank byte = true) {items : List (Spaced bits)}
    (hbits : s.numberBits = bits) (hended : s.ended = none)
    (hrest : s.rest = Spaced.render items ending) :
    s.Recovers (items.map Spaced.spelling) ↔ items.IsChain Spaced.Apart := by
  induction items generalizing s with
  | nil =>
    refine iff_of_true (recovers_nil hended ?_) .nil
    rw [hrest]
    simpa [Spaced.render] using hending
  | cons i items ih =>
    rw [Spaced.render_cons] at hrest
    have hothers := ih (s := (s.past i.gap (i.spelling.bytes ++ Spaced.render items ending)).past
      i.spelling.bytes (Spaced.render items ending)) hbits hended rfl
    rw [recovers_of_next_eq (next_of_gap hended hrest i.blank), List.map_cons,
      recovers_cons (s := s.past i.gap _) hbits hended rfl, Spaced.endsRun_render hending, hothers,
      List.isChain_cons]
    rfl

/-- Whether a word stands apart from the number before it makes no difference. -/
theorem isChain_apart_number {before after : List (Spaced bits)} {number word : Spaced bits}
    (hnumber : number.spelling.kind = .number) (hword : word.spelling.kind.isWord = true)
    (hgap : ∀ byte ∈ gap, Byte.isBlank byte = true) :
    (before ++ number :: word :: after).IsChain Spaced.Apart ↔
      (before ++ number :: ⟨gap, hgap, word.spelling⟩ :: after).IsChain Spaced.Apart := by
  have happart (next : Spaced bits) (hnext : next.spelling = word.spelling) :
      number.Apart next := by
    intro _ hruns
    rw [hnumber, hnext] at hruns
    rcases hruns with ⟨hfalse, _⟩ | ⟨_, heq⟩
    · simp [Kind.isWord] at hfalse
    · simp [heq, Kind.isWord] at hword
  have hafter : (word :: after).IsChain Spaced.Apart ↔
      ((⟨gap, hgap, word.spelling⟩ : Spaced bits) :: after).IsChain Spaced.Apart := by
    rw [List.isChain_cons, List.isChain_cons]
    rfl
  have htouching := happart word rfl
  have hspaced := happart ⟨gap, hgap, word.spelling⟩ rfl
  simp only [List.isChain_append, List.isChain_cons_cons (a := number), htouching, hspaced, hafter,
    List.head?_cons]

/-- Texts of tokens with any blanks between them are read as these tokens if nothing that runs into
the next one touches it, and only then; a word after a number never has to stand apart. -/
theorem recovers_render_iff (file : String) (bits : Nat) (hbits : 0 < bits)
    (ending : List UInt8) (hending : ∀ byte ∈ ending, Byte.isBlank byte = true)
    (items : List (Spaced bits)) :
    ∃ s, start file bits (Spaced.render items ending) = .ok s ∧
      (s.Recovers (items.map Spaced.spelling) ↔ items.IsChain Spaced.Apart) ∧
      ∀ before number word after gap (hgap : ∀ byte ∈ gap, Byte.isBlank byte = true),
        items = before ++ number :: word :: after → number.spelling.kind = .number →
        word.spelling.kind.isWord = true →
        ∃ s', start file bits (Spaced.render
            (before ++ number :: ⟨gap, hgap, word.spelling⟩ :: after) ending) = .ok s' ∧
          (s.Recovers (items.map Spaced.spelling) ↔ s'.Recovers (items.map Spaced.spelling)) := by
  have hpositive : (0 : Int) < bits := Int.natCast_pos.2 hbits
  have hread (items : List (Spaced bits)) :
      (ofBytes file (bits : Int).toNat (Spaced.render items ending)).Recovers
        (items.map Spaced.spelling) ↔ items.IsChain Spaced.Apart :=
    recovers_render hending (Int.toNat_natCast bits) rfl rfl
  refine ⟨_, start_eq_ofBytes hpositive file _, hread items, ?_⟩
  intro before number word after gap hgap hitems hnumber hword
  refine ⟨_, start_eq_ofBytes hpositive file _, ?_⟩
  have hsame : items.map Spaced.spelling =
      (before ++ number :: ⟨gap, hgap, word.spelling⟩ :: after).map Spaced.spelling := by
    simp [hitems]
  rw [hread, hsame, hread, hitems]
  exact isChain_apart_number hnumber hword hgap

/-- A number, and behind it an identifier that touches it. -/
theorem recovers_render_number_word :
    let number : Spaced 64 := ⟨[], by simp, [0x31, 0x32], _,
      .number (by simp) (by simp [Numeral.isDigit]) (by decide)⟩
    let word : Spaced 64 := ⟨[], by simp, [0x61], _, @Spelt.word _ 0x61 [] (by decide) (by simp)⟩
    0 < 64 ∧ ∃ s, start "f" 64 [0x31, 0x32, 0x61, 0x0a] = .ok s ∧
      s.Recovers [number.spelling, word.spelling] ∧
      ∃ s', start "f" 64 [0x31, 0x32, 0x20, 0x61, 0x0a] = .ok s' ∧
        s'.Recovers [number.spelling, word.spelling] := by
  intro number word
  have hapart : [number, word].IsChain Spaced.Apart := by decide
  obtain ⟨s, hs, hread, hspaced⟩ := recovers_render_iff "f" 64 (by decide) [0x0a]
    (by simp [Byte.isBlank, Byte.blanks]) [number, word]
  obtain ⟨s', hs', hsame⟩ := hspaced [] number word [] [0x20]
    (by simp [Byte.isBlank, Byte.blanks]) rfl rfl (by decide)
  exact ⟨by decide, s, hs, hread.2 hapart, s', hs', hsame.1 (hread.2 hapart)⟩

end Scanner
end ExprLang
