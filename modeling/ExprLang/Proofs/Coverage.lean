import ExprLang.Proofs.Segments

/-!
# Scanning a whole source

Calls of a scanner one after another, with errors caught, up to the end of input. The segments
they deliver and the blanks between them are the whole source, byte for byte, up to the first
zero byte; an error loses its own segment only.
-/
namespace ExprLang

/-- The place of the first zero byte, or the number of bytes if there is none. -/
def inputLength (bytes : List UInt8) : Nat := bytes.findIdx (· == Byte.sentinel)

theorem inputLength_append {bytes rest : List UInt8} (h : ∀ byte ∈ bytes, byte ≠ Byte.sentinel)
    (hends : EndsRun (· != Byte.sentinel) rest) : inputLength (bytes ++ rest) = bytes.length := by
  induction bytes with
  | nil =>
    cases rest with
    | nil => rfl
    | cons byte rest =>
      have hzero := hends byte rfl
      simp only [bne_eq_false_iff_eq] at hzero
      simp [inputLength, List.findIdx_cons, hzero]
  | cons byte bytes ih =>
    have hne : (byte == Byte.sentinel) = false := by simpa using h byte (by simp)
    have hrest := ih fun b hb => h b (by simp [hb])
    rw [List.cons_append, inputLength, List.findIdx_cons, hne, List.length_cons]
    simpa [inputLength] using hrest

theorem ne_sentinel_of_blank {bytes : List UInt8}
    (h : ∀ byte ∈ bytes, Byte.isBlank byte = true) : ∀ byte ∈ bytes, byte ≠ Byte.sentinel := by
  intro byte hbyte
  have hblank := h byte hbyte
  intro heq
  subst heq
  simp [Byte.isBlank, Byte.blanks, Byte.sentinel] at hblank

namespace Scanner

variable {s : Scanner} {pieces : List Piece} {gap rest : List UInt8}

def results : Nat → Scanner → List (Except ScanError Token)
  | 0, _ => []
  | n + 1, s => s.next.1 :: results n s.next.2

/-- `Covers s pieces gap rest`: calls from `s` deliver the pieces and then, behind the blanks
`gap` and in front of `rest`, the end of input. -/
inductive Covers : Scanner → List Piece → List UInt8 → List UInt8 → Prop
  | finish {s : Scanner} {gap rest : List UInt8} (h : Finishes s gap rest) : Covers s [] gap rest
  | piece {s : Scanner} {p : Piece} {pieces : List Piece} {behind gap rest : List UInt8}
      (h : Delivers s p behind)
      (others : Covers (s.past p.bytes behind) pieces gap rest) : Covers s (p :: pieces) gap rest

theorem exists_covers {n : Nat} (hn : s.rest.length ≤ n) (h : s.ended = none) :
    ∃ pieces gap rest, Covers s pieces gap rest := by
  induction n generalizing s with
  | zero =>
    rcases delivers_or_finishes h with ⟨p, behind, hp⟩ | ⟨gap, rest, hfinish⟩
    · have hlength := congrArg List.length hp.rest_eq
      have hpos := List.length_pos_iff.2 hp.segment.ne_nil
      simp only [Piece.bytes, List.length_append] at hlength
      omega
    · exact ⟨[], gap, rest, .finish hfinish⟩
  | succ n ih =>
    rcases delivers_or_finishes h with ⟨p, behind, hp⟩ | ⟨gap, rest, hfinish⟩
    · have hlength := congrArg List.length hp.rest_eq
      have hpos := List.length_pos_iff.2 hp.segment.ne_nil
      simp only [Piece.bytes, List.length_append] at hlength
      have hle : behind.length ≤ n := by omega
      obtain ⟨pieces, gap, rest, hothers⟩ :=
        ih (s := s.past p.bytes behind) hle h
      exact ⟨p :: pieces, gap, rest, .piece hp hothers⟩
    · exact ⟨[], gap, rest, .finish hfinish⟩

namespace Covers

theorem rest_eq (h : Covers s pieces gap rest) :
    s.rest = pieces.flatMap Piece.bytes ++ gap ++ rest := by
  induction h with
  | finish h => exact h.rest_eq
  | @piece s p pieces behind gap rest h _ ih =>
    have hbehind : behind = pieces.flatMap Piece.bytes ++ gap ++ rest := ih
    rw [h.rest_eq, hbehind]
    simp

theorem blank (h : Covers s pieces gap rest) : ∀ byte ∈ gap, Byte.isBlank byte = true := by
  induction h with
  | finish h => exact h.blank
  | piece _ _ ih => exact ih

theorem ends (h : Covers s pieces gap rest) : EndsRun (· != Byte.sentinel) rest := by
  induction h with
  | finish h => exact h.ends
  | piece _ _ ih => exact ih

/-- No piece goes past the end of the input. -/
theorem ne_sentinel (h : Covers s pieces gap rest) :
    ∀ byte ∈ pieces.flatMap Piece.bytes ++ gap, byte ≠ Byte.sentinel := by
  induction h with
  | finish h => exact ne_sentinel_of_blank h.blank
  | @piece s p pieces behind gap rest h _ ih =>
    intro byte hbyte
    simp only [List.flatMap_cons, Piece.bytes, List.append_assoc, List.mem_append] at hbyte
    rcases hbyte with hgap | hsegment | hothers
    · exact ne_sentinel_of_blank h.blank byte hgap
    · exact h.segment.ne_sentinel byte hsegment
    · exact ih byte (List.mem_append.2 hothers)

theorem length_le (h : Covers s pieces gap rest) :
    pieces.length ≤ (pieces.flatMap Piece.bytes).length := by
  induction h with
  | finish => simp
  | @piece s p pieces behind gap rest h _ ih =>
    have hpos := List.length_pos_iff.2 h.segment.ne_nil
    simp only [List.flatMap_cons, Piece.bytes, List.length_append, List.length_cons]
    omega

theorem results_eq (h : Covers s pieces gap rest) :
    s.results (pieces.length + 1) = pieces.map Piece.event ++ [.ok (.endOfInput
      ((s.position.after (pieces.flatMap Piece.bytes ++ gap)).location s.file))] := by
  induction h with
  | finish h => simp [results, h.next_eq]
  | @piece s p pieces behind gap rest h _ ih =>
    rw [List.length_cons, results, h.next_eq, ih, List.flatMap_cons, List.append_assoc,
      s.position.after_append]
    rfl

/-- What each piece is, by the bytes in front of it and those behind it. -/
theorem segment (h : Covers s pieces gap rest) {before after : List Piece} {p : Piece}
    (hsplit : pieces = before ++ p :: after) :
    (∀ byte ∈ p.gap, Byte.isBlank byte = true) ∧ Segment s.numberBits
      ((s.position.after (before.flatMap Piece.bytes ++ p.gap)).location s.file) p.segment
      (after.flatMap Piece.bytes ++ gap ++ rest) p.event := by
  induction h generalizing before with
  | finish => simp at hsplit
  | @piece s first pieces behind gap rest h others ih =>
    cases before with
    | nil =>
      simp only [List.nil_append, List.cons.injEq] at hsplit
      obtain ⟨rfl, rfl⟩ := hsplit
      rw [← others.rest_eq]
      exact ⟨h.blank, h.segment⟩
    | cons q before =>
      simp only [List.cons_append, List.cons.injEq] at hsplit
      obtain ⟨rfl, hsplit⟩ := hsplit
      rw [List.flatMap_cons, List.append_assoc, Position.after_append]
      exact ih hsplit

end Covers

/-- The input of a source, laid out in the pieces that calls from `s` deliver one after another
and the blanks behind the last of them. -/
structure Layout (bits : Nat) (bytes : List UInt8) (s : Scanner) (pieces : List Piece)
    (gap : List UInt8) : Prop where
  input_eq : bytes.take (inputLength bytes) = pieces.flatMap Piece.bytes ++ gap
  blank : ∀ byte ∈ gap, Byte.isBlank byte = true
  segment : ∀ before p after, pieces = before ++ p :: after →
    (∀ byte ∈ p.gap, Byte.isBlank byte = true) ∧ p.segment ≠ [] ∧
      ∃ place : Location, place.offset = (before.flatMap Piece.bytes ++ p.gap).length ∧
        Segment bits place p.segment
          (after.flatMap Piece.bytes ++ gap ++ bytes.drop (inputLength bytes)) p.event
  results_eq : ∃ place : Location, place.offset = inputLength bytes ∧
    s.results (pieces.length + 1) = pieces.map Piece.event ++ [.ok (.endOfInput place)]
  length_le : pieces.length ≤ inputLength bytes

theorem Layout.segment_pos {bits : Nat} {bytes : List UInt8} {after : List Piece} {p : Piece}
    (h : Layout bits bytes s pieces gap) (before : List Piece)
    (hsplit : pieces = before ++ p :: after) : 0 < p.segment.length :=
  List.length_pos_iff.2 (h.segment before p after hsplit).2.1

theorem Layout.offset_of_error {bits : Nat} {bytes : List UInt8} {after : List Piece} {p : Piece}
    {e : ScanError} (h : Layout bits bytes s pieces gap) (before : List Piece)
    (hsplit : pieces = before ++ p :: after) (he : p.event = .error e) :
    e.location.offset = (before.flatMap Piece.bytes ++ p.gap).length := by
  obtain ⟨_, _, place, hplace, hsegment⟩ := h.segment before p after hsplit
  rw [he] at hsegment
  rw [← hplace, hsegment.error_location]

/-- Calls of a scanner, with errors caught, lose nothing of the input and end where it ends. -/
theorem exists_layout (file : String) (bits : Int) (hbits : 0 < bits) (bytes : List UInt8) :
    ∃ s pieces gap, start file bits bytes = .ok s ∧ Layout bits.toNat bytes s pieces gap := by
  have hpositive : ¬ bits ≤ 0 := by omega
  have hstart : start file bits bytes = .ok (ofBytes file bits.toNat bytes) := by
    simp only [start, Setting.positive, hpositive, if_false]
    rfl
  obtain ⟨pieces, gap, rest, hcovers⟩ :=
    exists_covers (s := ofBytes file bits.toNat bytes) (Nat.le_refl _) rfl
  have hbytes : bytes = pieces.flatMap Piece.bytes ++ gap ++ rest := hcovers.rest_eq
  have hlength : inputLength bytes = (pieces.flatMap Piece.bytes ++ gap).length := by
    rw [hbytes]
    exact inputLength_append hcovers.ne_sentinel hcovers.ends
  have hdrop : bytes.drop (inputLength bytes) = rest := by
    rw [hlength, hbytes, List.drop_left]
  have hoffset (before : List UInt8) :
      (Position.start.after before).offset = before.length := by
    rw [Position.offset_after]
    exact Nat.zero_add _
  refine ⟨_, pieces, gap, hstart, ?_, hcovers.blank, fun before p after hsplit => ?_, ?_, ?_⟩
  · rw [hlength, hbytes, List.take_left]
  · obtain ⟨hblank, hsegment⟩ := hcovers.segment hsplit
    rw [hdrop]
    exact ⟨hblank, hsegment.ne_nil, _, congrArg Nat.cast (hoffset _), hsegment⟩
  · refine ⟨_, ?_, hcovers.results_eq⟩
    rw [hlength]
    exact congrArg Nat.cast (hoffset _)
  · have hle := hcovers.length_le
    rw [hlength, List.length_append]
    omega

/-- A number that is too large and a byte that begins nothing stand side by side. -/
theorem exists_layout_errors : (0 : Int) < 3 ∧ ∃ s, start "f" 3 [0x20, 0x39, 0x40] = .ok s ∧
    Layout 3 [0x20, 0x39, 0x40] s
      [⟨[0x20], [0x39], .error ⟨.numberOverflow "9" 3, ⟨"f", 1, 2, 1⟩⟩⟩,
        ⟨[], [0x40], .error ⟨.invalidByte 0x40, ⟨"f", 1, 3, 2⟩⟩⟩] [] := by
  refine ⟨by decide, ?_⟩
  obtain ⟨s, pieces, gap, hstart, hlayout⟩ := exists_layout "f" 3 (by decide) [0x20, 0x39, 0x40]
  obtain rfl : ofBytes "f" 3 [0x20, 0x39, 0x40] = s := Except.ok.inj hstart
  obtain ⟨place, _, hresults⟩ := hlayout.results_eq
  have hfirst : (ofBytes "f" 3 [0x20, 0x39, 0x40]).next.1 =
      .error ⟨.numberOverflow "9" 3, ⟨"f", 1, 2, 1⟩⟩ := rfl
  have hsecond : (ofBytes "f" 3 [0x20, 0x39, 0x40]).next.2.next.1 =
      .error ⟨.invalidByte 0x40, ⟨"f", 1, 3, 2⟩⟩ := rfl
  have hinput : [0x20, 0x39, 0x40] = pieces.flatMap Piece.bytes ++ gap := hlayout.input_eq
  match pieces with
  | [] => simp [results, hfirst] at hresults
  | [_] => simp [results, hsecond] at hresults
  | ⟨gap₁, segment₁, event₁⟩ :: ⟨gap₂, segment₂, event₂⟩ :: others =>
    simp only [List.length_cons, results, hfirst, hsecond, List.map_cons, List.cons_append,
      List.cons.injEq] at hresults
    obtain ⟨rfl, rfl, hresults⟩ := hresults
    have hgap₁ : (1 : Int) = _ := hlayout.offset_of_error [] rfl rfl
    have hgap₂ : (2 : Int) = _ := hlayout.offset_of_error [_] rfl rfl
    simp only [List.flatMap_nil, List.flatMap_cons, Piece.bytes, List.nil_append,
      List.append_nil, List.length_append] at hgap₁ hgap₂
    have hsegment₁ : 0 < segment₁.length := hlayout.segment_pos [] rfl
    have hsegment₂ : 0 < segment₂.length := hlayout.segment_pos [_] rfl
    have hlength := congrArg List.length hinput
    simp only [List.flatMap_cons, Piece.bytes, List.length_append, List.length_cons,
      List.length_nil] at hlength
    obtain ⟨a, rfl⟩ : ∃ a, gap₁ = [a] := List.length_eq_one_iff.1 (by omega)
    obtain ⟨b, rfl⟩ : ∃ b, segment₁ = [b] := List.length_eq_one_iff.1 (by omega)
    obtain rfl : gap₂ = [] := List.length_eq_zero_iff.1 (by omega)
    obtain ⟨c, rfl⟩ : ∃ c, segment₂ = [c] := List.length_eq_one_iff.1 (by omega)
    obtain rfl : others = [] := by
      cases others with
      | nil => rfl
      | cons r others =>
        -- a third piece would take a byte more than there are
        have hsegment₃ : 0 < r.segment.length := hlayout.segment_pos [_, _] rfl
        simp only [List.flatMap_cons, Piece.bytes, List.length_append] at hlength
        omega
    obtain rfl : gap = [] := List.length_eq_zero_iff.1 (by omega)
    obtain ⟨rfl, rfl, rfl⟩ : 0x20 = a ∧ 0x39 = b ∧ 0x40 = c := by simpa [Piece.bytes] using hinput
    exact ⟨_, hstart, hlayout⟩

end Scanner
end ExprLang
