import ExprLang.Proofs.Coverage

/-!
# The tokens of a source

The tokens that a scanner delivers one after another, up to the first error or through the end of
input. They come in the order of their places, and their texts are the source without its blanks:
what stands in front of a token's place spells the tokens before it.
-/
namespace ExprLang

namespace Byte

def visible (bytes : List UInt8) : List UInt8 := bytes.filter fun byte => !isBlank byte

@[simp] theorem visible_append (bytes more : List UInt8) :
    visible (bytes ++ more) = visible bytes ++ visible more :=
  List.filter_append ..

theorem visible_of_blank {bytes : List UInt8} (h : ∀ byte ∈ bytes, isBlank byte = true) :
    visible bytes = [] := by
  simpa [visible, List.filter_eq_nil_iff] using h

theorem visible_eq_self {bytes : List UInt8} (h : ∀ byte ∈ bytes, isBlank byte = false) :
    visible bytes = bytes := by
  simpa [visible, List.filter_eq_self] using h

@[simp] theorem text_nil : text [] = "" := rfl

@[simp] theorem text_append (bytes more : List UInt8) :
    text (bytes ++ more) = text bytes ++ text more := by
  simp [text]

@[simp] theorem length_text (bytes : List UInt8) : (text bytes).length = bytes.length := by
  simp [text]

theorem isBlank_of_isWordByte {byte : UInt8} (h : isWordByte byte = true) :
    isBlank byte = false := by
  cases hblank : isBlank byte with
  | false => rfl
  | true =>
    have hmem : byte = 0x0a ∨ byte = 0x0d ∨ byte = 0x20 := by
      simpa [isBlank, blanks] using hblank
    rcases hmem with rfl | rfl | rfl <;> revert h <;> decide

end Byte

def lexemes (ts : List Token) : String := String.join (ts.map Token.lexeme)

@[simp] theorem lexemes_nil : lexemes [] = "" := rfl

@[simp] theorem lexemes_cons (t : Token) (ts : List Token) :
    lexemes (t :: ts) = t.lexeme ++ lexemes ts := by
  simp [lexemes, String.join_cons]

@[simp] theorem lexemes_append (ts us : List Token) :
    lexemes (ts ++ us) = lexemes ts ++ lexemes us := by
  simp [lexemes, String.join_append]

namespace Segment

variable {bits : Nat} {place : Location} {segment rest : List UInt8}

/-- No byte of a segment is skipped. -/
theorem visible_eq {event : Except ScanError Token} (h : Segment bits place segment rest event) :
    Byte.visible segment = segment := by
  apply Byte.visible_eq_self
  intro byte hbyte
  cases h with
  | number _ inside | overflow _ inside =>
    exact Byte.isBlank_of_isWordByte (by simp [Byte.isWordByte, inside byte hbyte])
  | identifier begins inside | keyword begins inside =>
    rcases List.mem_cons.1 hbyte with rfl | hbyte
    · exact Byte.isBlank_of_isWordByte (by simp [Byte.isWordByte, begins])
    · exact Byte.isBlank_of_isWordByte (inside byte hbyte)
  | @punctuation b _ terminal listed =>
    obtain rfl := List.mem_singleton.1 hbyte
    have hlisted : ∀ entry ∈ Byte.punctuation, Byte.isBlank entry.1 = false := by decide
    exact hlisted _ listed
  | invalid _ visible =>
    obtain rfl := List.mem_singleton.1 hbyte
    exact visible

theorem token_eq {t : Token} (h : Segment bits place segment rest (.ok t)) :
    t.lexeme = Byte.text segment ∧ t.location = place ∧ t.isEnd = false := by
  cases h with
  | @punctuation byte _ terminal listed =>
    have hlisted : ∀ entry ∈ Byte.punctuation, entry.2 ≠ .endOfInput := by decide
    exact ⟨rfl, rfl, by simpa [Token.isEnd] using hlisted _ listed⟩
  | _ => exact ⟨rfl, rfl, rfl⟩

end Segment

theorem Position.offset_location_after (p : Position) (bytes : List UInt8) (file : String) :
    ((p.after bytes).location file).offset = (p.offset + bytes.length : Nat) :=
  congrArg Nat.cast (p.offset_after bytes)

namespace Scanner

variable {s : Scanner} {ts us : List Token} {failure failure' : Option ScanError}

/-- `Yields s ts failure`: calls of `next` deliver the tokens `ts`, and then the next call fails
or the last of them is the end of input. -/
inductive Yields : Scanner → List Token → Option ScanError → Prop
  | fail {s s' : Scanner} {e : ScanError} (h : s.next = (.error e, s')) : Yields s [] (some e)
  | finish {s s' : Scanner} {t : Token} (h : s.next = (.ok t, s')) (hend : t.isEnd = true) :
      Yields s [t] none
  | more {s s' : Scanner} {t : Token} {ts : List Token} {failure : Option ScanError}
      (h : s.next = (.ok t, s')) (hend : t.isEnd = false) (rest : Yields s' ts failure) :
      Yields s (t :: ts) failure

theorem Yields.unique (h : Yields s ts failure) (g : Yields s us failure') :
    ts = us ∧ failure = failure' := by
  induction h generalizing us with
  | fail h => cases g <;> simp_all
  | finish h => cases g <;> simp_all
  | more h hend _ ih =>
    cases g with
    | fail h' => simp [h] at h'
    | finish h' hend' => simp_all
    | more h' _ rest =>
      rw [h, Prod.mk.injEq, Except.ok.injEq] at h'
      obtain ⟨rfl, rfl⟩ := h'
      obtain ⟨rfl, hrest⟩ := ih rest
      exact ⟨rfl, hrest⟩

theorem yields_take {n : Nat} (h : s.rest.length < n) :
    Yields s (s.take n).1 (s.take n).2.1 := by
  induction n generalizing s with
  | zero => omega
  | succ n ih =>
    rcases hnext : s.next with ⟨e | t, s'⟩
    · simp only [take, hnext]
      exact .fail hnext
    · cases hend : t.isEnd with
      | true =>
        simp only [take, hnext, hend, if_true]
        exact .finish hnext hend
      | false =>
        have hlt := length_rest_next hnext hend
        have hrest := ih (s := s') (by omega)
        simp only [take, hnext, hend, Bool.false_eq_true, if_false]
        exact .more hnext hend hrest

theorem exists_yields (s : Scanner) : ∃ ts failure, Yields s ts failure :=
  ⟨_, _, yields_take (Nat.lt_succ_self s.rest.length)⟩

/-- All tokens are delivered unless an error comes first. -/
theorem Yields.all_eq (h : Yields s ts failure) :
    ∃ s', s.all = (failure.elim (.ok ts) .error, s') := by
  have htake := yields_take (Nat.lt_succ_self s.rest.length)
  unfold all
  rcases htokens : s.take (s.rest.length + 1) with ⟨tokens, failure', s'⟩
  rw [htokens] at htake
  obtain ⟨rfl, rfl⟩ := h.unique htake
  cases failure <;> exact ⟨s', rfl⟩

/-- The same calls with the bytes that each of them takes. -/
inductive Spells : Scanner → List Token → Option ScanError → Prop
  | fail {s : Scanner} {p : Piece} {behind : List UInt8} {e : ScanError}
      (h : Delivers s p behind) (event : p.event = .error e) : Spells s [] (some e)
  | finish {s : Scanner} {gap behind : List UInt8} (h : Finishes s gap behind) :
      Spells s [.endOfInput ((s.position.after gap).location s.file)] none
  | more {s : Scanner} {p : Piece} {behind : List UInt8} {t : Token} {ts : List Token}
      {failure : Option ScanError} (h : Delivers s p behind) (event : p.event = .ok t)
      (others : Spells (s.past p.bytes behind) ts failure) : Spells s (t :: ts) failure

theorem Delivers.token_eq {p : Piece} {behind : List UInt8} {t : Token}
    (h : Delivers s p behind) (event : p.event = .ok t) :
    t.lexeme = Byte.text p.segment ∧ t.location = (s.position.after p.gap).location s.file ∧
      t.isEnd = false :=
  Segment.token_eq (event ▸ h.segment)

theorem Yields.spells (h : Yields s ts failure) (hended : s.ended = none) :
    Spells s ts failure := by
  induction h with
  | @fail s s' e h =>
    rcases delivers_or_finishes hended with ⟨p, behind, hp⟩ | ⟨gap, behind, hfinish⟩
    · have hevent := hp.next_eq.symm.trans h
      exact .fail hp (congrArg Prod.fst hevent)
    · simp [hfinish.next_eq] at h
  | @finish s s' t h hend =>
    rcases delivers_or_finishes hended with ⟨p, behind, hp⟩ | ⟨gap, behind, hfinish⟩
    · have hevent := congrArg Prod.fst (hp.next_eq.symm.trans h)
      rw [(hp.token_eq hevent).2.2] at hend
      contradiction
    · have hnext := hfinish.next_eq.symm.trans h
      simp only [Prod.mk.injEq, Except.ok.injEq] at hnext
      exact hnext.1 ▸ .finish hfinish
  | @more s s' t ts failure h hend _ ih =>
    rcases delivers_or_finishes hended with ⟨p, behind, hp⟩ | ⟨gap, behind, hfinish⟩
    · have hnext := hp.next_eq.symm.trans h
      rw [Prod.mk.injEq] at hnext
      obtain ⟨hevent, rfl⟩ := hnext
      exact .more hp hevent (ih hended)
    · simp only [hfinish.next_eq, Prod.mk.injEq, Except.ok.injEq] at h
      simp [← h.1, Token.isEnd, Token.endOfInput] at hend

@[simp] theorem rest_past (bytes rest : List UInt8) : (s.past bytes rest).rest = rest := rfl

@[simp] theorem offset_past (bytes rest : List UInt8) :
    (s.past bytes rest).position.offset = s.position.offset + bytes.length :=
  Position.offset_after ..

theorem inputLength_append_of_ne {bytes : List UInt8} (h : ∀ byte ∈ bytes, byte ≠ Byte.sentinel)
    (rest : List UInt8) : inputLength (bytes ++ rest) = bytes.length + inputLength rest := by
  have hnone : bytes.findIdx (· == Byte.sentinel) = bytes.length := by
    simpa [List.findIdx_eq_length] using h
  simp [inputLength, List.findIdx_append, hnone, Nat.add_comm]

def places (ts : List Token) (failure : Option ScanError) : List Location :=
  ts.map Token.location ++ failure.toList.map ScanError.location

namespace Spells

/-- The bytes in front of a token's place spell the tokens before it, and its own text follows. -/
theorem text_eq (h : Spells s ts failure) {before after : List Token} {t : Token}
    (hts : ts = before ++ t :: after) :
    ∃ k : Nat, t.location.offset = (s.position.offset + k : Nat) ∧
      Byte.text (Byte.visible (s.rest.take k)) = lexemes before ∧
      Byte.text (Byte.visible (s.rest.take (k + t.lexeme.length))) =
        lexemes before ++ t.lexeme := by
  induction h generalizing before with
  | fail => simp at hts
  | @finish s gap behind h =>
    cases before with
    | cons => simp at hts
    | nil =>
      simp only [List.nil_append, List.cons.injEq] at hts
      obtain ⟨rfl, _⟩ := hts
      refine ⟨gap.length, s.position.offset_location_after gap s.file, ?_, ?_⟩
      · simp [h.rest_eq, Byte.visible_of_blank h.blank]
      · simp [h.rest_eq, Byte.visible_of_blank h.blank, Token.endOfInput]
  | @more s p behind t' ts failure h event others ih =>
    obtain ⟨hlexeme, hlocation, _⟩ := h.token_eq event
    have hgap := Byte.visible_of_blank h.blank
    have hsegment := h.segment.visible_eq
    cases before with
    | nil =>
      simp only [List.nil_append, List.cons.injEq] at hts
      obtain ⟨rfl, _⟩ := hts
      refine ⟨p.gap.length, by rw [hlocation, Position.offset_location_after], ?_, ?_⟩
      · simp [h.rest_eq, Piece.bytes, hgap]
      · rw [hlexeme, Byte.length_text, h.rest_eq, Piece.bytes, ← List.length_append,
          List.take_left]
        simp [hgap, hsegment]
    | cons first before =>
      simp only [List.cons_append, List.cons.injEq] at hts
      obtain ⟨rfl, hts⟩ := hts
      obtain ⟨k, hk, hbefore, htoken⟩ := ih hts
      refine ⟨p.bytes.length + k, by rw [hk, offset_past, Nat.add_assoc], ?_, ?_⟩
      · rw [h.rest_eq, List.take_length_add_append]
        simpa [Piece.bytes, hgap, hsegment, hlexeme] using hbefore
      · rw [h.rest_eq, Nat.add_assoc, List.take_length_add_append]
        simpa [Piece.bytes, hgap, hsegment, hlexeme, String.append_assoc] using htoken

/-- Every place lies behind those before it, and an error behind all tokens. -/
theorem increasing (h : Spells s ts failure) :
    (∀ l ∈ places ts failure, (s.position.offset : Int) ≤ l.offset) ∧
      (places ts failure).Pairwise fun l l' => l.offset < l'.offset := by
  induction h with
  | @fail s p behind e h event =>
    have hlocation := Segment.error_location (event ▸ h.segment)
    have hle : (s.position.offset : Int) ≤ e.location.offset := by
      rw [hlocation, Position.offset_location_after]
      omega
    simpa [places] using hle
  | @finish s gap behind h =>
    have hle : (s.position.offset : Int) ≤ ((s.position.after gap).location s.file).offset := by
      rw [Position.offset_location_after]
      omega
    simpa [places, Token.endOfInput] using hle
  | @more s p behind t ts failure h event others ih =>
    obtain ⟨_, hlocation, _⟩ := h.token_eq event
    have hplace : t.location.offset = (s.position.offset + p.gap.length : Nat) := by
      rw [hlocation, Position.offset_location_after]
    have hbehind : (s.past p.bytes behind).position.offset =
        s.position.offset + p.gap.length + p.segment.length := by
      simp [Piece.bytes, Nat.add_assoc]
    have hpos := List.length_pos_iff.2 h.segment.ne_nil
    obtain ⟨hle, hincreasing⟩ := ih
    rw [hbehind] at hle
    have hplaces : places (t :: ts) failure = t.location :: places ts failure := rfl
    rw [hplaces, List.pairwise_cons, List.forall_mem_cons]
    refine ⟨⟨by omega, fun l hl => ?_⟩, fun l hl => ?_, hincreasing⟩
    · have := hle l hl
      omega
    · have := hle l hl
      omega

/-- Without an error the last token is the end of input, and it stands where the input ends. -/
theorem last_eq (h : Spells s ts none) :
    ∃ (before : List Token) (ending : Token), ts = before ++ [ending] ∧
      ending.location.offset = (s.position.offset + inputLength s.rest : Nat) := by
  generalize hnone : none = failure at h
  induction h with
  | fail => simp at hnone
  | @finish s gap behind h =>
    refine ⟨[], _, rfl, ?_⟩
    rw [h.rest_eq, inputLength_append (ne_sentinel_of_blank h.blank) h.ends]
    exact s.position.offset_location_after gap s.file
  | @more s p behind t ts failure h event others ih =>
    obtain ⟨before, ending, rfl, hoffset⟩ := ih hnone
    refine ⟨t :: before, ending, rfl, ?_⟩
    have hne : ∀ byte ∈ p.bytes, byte ≠ Byte.sentinel := by
      intro byte hbyte
      rcases List.mem_append.1 hbyte with hgap | hsegment
      · exact ne_sentinel_of_blank h.blank byte hgap
      · exact h.segment.ne_sentinel byte hsegment
    rw [hoffset, h.rest_eq, inputLength_append_of_ne hne]
    simp [Nat.add_assoc]

end Spells
end Scanner
end ExprLang
