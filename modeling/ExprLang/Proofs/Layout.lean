import ExprLang.Proofs.OnDemand

/-!
# Layout

What a program means does not depend on where its tokens stand or, apart from messages, on how
they are written. Two runs on lists of tokens that agree in kind and value go along with each
other, call by call and token by token, and where the texts agree as well they report in the same
words. So sources that differ only in what lies between their tokens are the same program.
-/
namespace ExprLang

theorem Token.terminal_eq_of_kind_eq {t u : Token} (hkind : t.kind = u.kind)
    (hvalue : t.value? = u.value?) : t.terminal = u.terminal := by
  obtain ⟨terminal, _, _, _⟩ := t
  obtain ⟨terminal', _, _, _⟩ := u
  cases terminal <;> cases terminal' <;>
    simp_all [Token.kind, Token.value?, Terminal.kind, Terminal.value?]

theorem Token.terminal_of_kind_end {t : Token} (h : t.kind = .endOfInput) :
    t.terminal = .endOfInput := by
  rw [Token.kind] at h
  cases hterminal : t.terminal <;> simp_all [Terminal.kind]

/-- A message names a token by its terminal and its text. -/
theorem Token.description_eq {t u : Token} (hterminal : t.terminal = u.terminal)
    (hlexeme : t.lexeme = u.lexeme) : t.description = u.description := by
  obtain ⟨terminal, lexeme, _, _⟩ := t
  obtain ⟨_, _, _, _⟩ := u
  obtain rfl : terminal = _ := hterminal
  obtain rfl : lexeme = _ := hlexeme
  rfl

theorem SyntaxFault.keywordHints_eq {t u : Token} (hterminal : t.terminal = u.terminal)
    (hlexeme : t.lexeme = u.lexeme) : keywordHints t = keywordHints u := by
  have hidentifier : t.isIdentifier = u.isIdentifier := by
    rw [Token.isIdentifier, Token.isIdentifier, hterminal]
  rw [keywordHints, keywordHints, hidentifier, hlexeme]

structure SameWords (x y : SyntaxError) : Prop where
  message_eq : x.diagnostic.message = y.diagnostic.message
  help_eq : x.diagnostic.help = y.diagnostic.help
  suggestions_eq : x.diagnostic.suggestions = y.diagnostic.suggestions

theorem sameWords_of_token {x y : SyntaxError} (hfault : x.fault = y.fault)
    (h : (Likeness.layout True).token x.token y.token) : SameWords x y := by
  have hdescription := Token.description_eq h.1 (h.2 trivial)
  have hhints := SyntaxFault.keywordHints_eq h.1 (h.2 trivial)
  refine ⟨?_, ?_, ?_⟩
  · simp only [SyntaxError.diagnostic, hfault, hdescription]
  · simp only [SyntaxError.diagnostic, hfault]
  · simp only [SyntaxError.diagnostic, SyntaxFault.suggestions, hfault, hdescription, hhints]

namespace Reader

variable {like : Likeness} {ts us : List Token} {r r' : Reader TokenList}

/-- `Stands ts r`: the lookahead of `r` is the latest token taken from `ts`, and unless that is an
end of input the rest of `ts` is still to come. -/
def Stands (ts : List Token) (r : Reader TokenList) : Prop :=
  ∃ before rest, ts = before ++ r.lookahead :: rest ∧ r.source.taken = before.length + 1 ∧
    (r.lookahead.isEnd = false → rest = r.source.tokens ++ [r.source.last])

theorem Stands.getElem?_eq (h : Stands ts r) : ts[r.source.taken - 1]? = some r.lookahead := by
  obtain ⟨before, rest, rfl, htaken, _⟩ := h
  simp [htaken]

theorem Stands.lookahead_like (h : List.Forall₂ like.token ts us) (hr : Stands ts r)
    (hr' : Stands us r') (htaken : r.source.taken = r'.source.taken) :
    like.token r.lookahead r'.lookahead := by
  have hleft := hr.getElem?_eq
  have hright := hr'.getElem?_eq
  rw [← htaken] at hright
  obtain ⟨hlt, hleft⟩ := List.getElem?_eq_some_iff.1 hleft
  obtain ⟨hlt', hright⟩ := List.getElem?_eq_some_iff.1 hright
  rw [← hleft, ← hright]
  exact h.get hlt hlt'

/-- A list always has a token to take. -/
theorem Stands.advance (h : Stands ts r) :
    ∃ q, Reader.advance r = .ok r.lookahead q ∧ Stands ts q ∧
      q.consumed = r.lookahead :: r.consumed ∧
      q.source.taken = if r.lookahead.isEnd then r.source.taken else r.source.taken + 1 := by
  obtain ⟨source, lookahead, consumed⟩ := r
  obtain ⟨before, rest, hts, htaken, hrest⟩ := h
  simp only at hts htaken hrest ⊢
  cases hend : lookahead.isEnd with
  | true =>
    have hadvance : Reader.advance ⟨source, lookahead, consumed⟩ =
        .ok lookahead ⟨source, lookahead, lookahead :: consumed⟩ := by
      simp [Reader.advance, hend]
    exact ⟨_, hadvance, ⟨before, rest, hts, htaken, by simp [hend]⟩, rfl, rfl⟩
  | false =>
    obtain rfl := hrest hend
    obtain ⟨t, source', hpull, htaken'⟩ := exists_pull source
    have hadvance : Reader.advance ⟨source, lookahead, consumed⟩ =
        .ok lookahead ⟨source', t, lookahead :: consumed⟩ := by
      simp [Reader.advance, hend, hpull]
    refine ⟨_, hadvance, ?_, rfl, htaken'⟩
    simp only [TokenSource.pull, TokenList.pull] at hpull
    cases htokens : source.tokens with
    | nil =>
      simp only [htokens, Prod.mk.injEq, Except.ok.injEq] at hpull
      obtain ⟨rfl, rfl⟩ := hpull
      exact ⟨before ++ [lookahead], [], by simp [hts, htokens], by simp [htaken],
        by simp [source.last_isEnd]⟩
    | cons t' tokens =>
      simp only [htokens, Prod.mk.injEq, Except.ok.injEq] at hpull
      obtain ⟨rfl, rfl⟩ := hpull
      exact ⟨before ++ [lookahead], tokens ++ [source.last], by simp [hts, htokens],
        by simp [htaken], fun _ => rfl⟩

/-- Two readers that have taken the same number of tokens from lists that are alike. They never
part. -/
def abreast (h : List.Forall₂ like.token ts us) : Coupling like TokenList TokenList where
  matched r r' := Stands ts r ∧ Stands us r' ∧ r.source.taken = r'.source.taken ∧
    List.Forall₂ like.token r.consumed r'.consumed
  parts _ := False
  beyond _ _ := False
  lookahead_like := fun ⟨hr, hr', htaken, _⟩ => hr.lookahead_like h hr' htaken
  consumed_like h := h.2.2.2
  advance_agree := by
    rintro r r' ⟨hr, hr', htaken, hconsumed⟩
    have hlookahead := hr.lookahead_like h hr' htaken
    obtain ⟨q, hadvance, hq, hqconsumed, hqtaken⟩ := hr.advance
    obtain ⟨q', hadvance', hq', hqconsumed', hqtaken'⟩ := hr'.advance
    rw [hadvance, hadvance']
    refine .ok ⟨hq, hq', ?_, ?_⟩ hlookahead
    · rw [hqtaken, hqtaken', htaken, Likeness.isEnd_eq hlookahead]
    · rw [hqconsumed, hqconsumed']
      exact .cons hlookahead hconsumed
  advance_beyond h := h

end Reader

namespace Parser

open Reader

variable {like : Likeness} {ts us : List Token} {p q : Parser TokenList}

theorem stands_of_start {source : TokenList} (hsource : TokenList.ofList? ts = some source)
    {maxDepth : Int} (hp : start maxDepth source = .ok p) :
    Stands ts p.reader ∧ p.reader.source.taken = 1 ∧ p.reader.consumed = [] ∧
      p.failure = none ∧ p.maxDepth = maxDepth.toNat := by
  obtain ⟨t, source', hpull, rfl⟩ := eq_of_start hp
  have htaken := taken_of_ofList? hsource
  obtain rfl := append_of_ofList? hsource
  simp only [TokenSource.pull, TokenList.pull] at hpull
  cases htokens : source.tokens with
  | nil =>
    simp only [htokens, Prod.mk.injEq, Except.ok.injEq] at hpull
    obtain ⟨rfl, rfl⟩ := hpull
    exact ⟨⟨[], [], by simp, by simp [htaken], by simp [source.last_isEnd]⟩, by simp [htaken],
      rfl, rfl, rfl⟩
  | cons t' tokens =>
    simp only [htokens, Prod.mk.injEq, Except.ok.injEq] at hpull
    obtain ⟨rfl, rfl⟩ := hpull
    exact ⟨⟨[], tokens ++ [source.last], by simp, by simp [htaken], fun _ => rfl⟩,
      by simp [htaken], rfl, rfl, rfl⟩

theorem coupled_abreast (h : List.Forall₂ like.token ts us) {source source' : TokenList}
    (hsource : TokenList.ofList? ts = some source) (hsource' : TokenList.ofList? us = some source')
    {maxDepth : Int} (hp : start maxDepth source = .ok p) (hq : start maxDepth source' = .ok q) :
    Coupled (abreast h) p q := by
  obtain ⟨hstands, htaken, hconsumed, hnone, hmax⟩ := stands_of_start hsource hp
  obtain ⟨hstands', htaken', hconsumed', hnone', hmax'⟩ := stands_of_start hsource' hq
  refine ⟨?_, ?_, ⟨hstands, hstands', htaken.trans htaken'.symm, ?_⟩, ?_⟩
  · rw [hmax, hmax']
    exact follows_statement (follows_expression_self _ _)
  · exact fun ⟨hr, hr', htaken, _⟩ => ⟨hr, hr', htaken, .nil⟩
  · rw [hconsumed, hconsumed']
    exact .nil
  · rw [hnone, hnone']
    exact .none

def Blames (p : Parser TokenList) : Prop :=
  ∀ e, p.failure = some e → ∃ x, e = .grammar x ∧ x.token = p.reader.lookahead

theorem Blames.next (h : Blames p) : Blames p.next.2 := by
  rcases hnext : p.next with ⟨e | _ | f, q⟩
  · rcases next_eq_error.1 hnext with ⟨_, rfl⟩ | ⟨_, r', hstatement, rfl⟩
    · exact h
    · obtain ⟨_, r₁, _, hlookahead, _, ⟨x, rfl, htoken, _⟩ | ⟨_, _, _, hpull⟩⟩ :=
        stops_of_statement hstatement
      · rintro e' he
        obtain rfl := Option.some.inj he
        exact ⟨x, rfl, htoken.trans hlookahead.symm⟩
      · exact absurd hpull (pull_ne_error _ _ _)
  · obtain ⟨hnone, _, _, rfl⟩ := next_none hnext
    simp [Blames, hnone]
  · obtain ⟨_, hnone, _⟩ := next_some hnext
    simp [Blames, hnone]

theorem blames_after (h : p.failure = none) (n : Nat) : Blames (p.after n) := by
  induction n with
  | zero => simp [Blames, after, h]
  | succ n ih => exact ih.next

/-- Errors of one class with one code that had expected the same, about the tokens in place `i`. -/
structure SameError (ts us : List Token) (i : Nat) (x y : SyntaxError) : Prop where
  fault_eq : x.fault = y.fault
  code_eq : x.diagnostic.code = y.diagnostic.code
  expected_eq : x.fault.expected = y.fault.expected
  left_eq : ts[i]? = some x.token
  right_eq : us[i]? = some y.token

/-- Calls on the lists `ts` and `us` that deliver the same functions and take the same numbers of
tokens, and fail at the same token in the same way. -/
structure SameRun (ts us : List Token) (p q : Parser TokenList) : Prop where
  results : ∀ n, Alike (fun f g => f.same g = true)
    (fun e e' => ∃ x y, e = .grammar x ∧ e' = .grammar y ∧
      SameError ts us ((p.after (n + 1)).position - 1) x y)
    (p.after n).next.1 (q.after n).next.1
  position_eq : ∀ n, (p.after n).position = (q.after n).position

structure SameReport {σ : Type} [TokenSource σ] (p q : Parser σ) : Prop where
  texts_eq : ∀ n, (p.after n).answer.text = (q.after n).answer.text
  words : ∀ n x y, (p.after n).next.1 = .error (.grammar x) →
    (q.after n).next.1 = .error (.grammar y) → SameWords x y

theorem sameRun_of_coupled {h : List.Forall₂ like.token ts us} (hcoupled : Coupled (abreast h) p q)
    (hnone : p.failure = none) : SameRun ts us p q := by
  have hafter (n : Nat) := hcoupled.after n fun _ _ _ _ hparts => hparts
  have hposition (n : Nat) : (p.after n).position = (q.after n).position :=
    (hafter n).2.matched.2.2.1
  refine ⟨fun n => ?_, hposition⟩
  have hnone' := hcoupled.failure_eq_none hnone
  obtain ⟨hstands, hstands', _⟩ := (hafter (n + 1)).2.matched
  refine ((hafter (n + 1)).1 n (Nat.lt_succ_self n)).result.imp
    (fun f g hf => (Function.same_iff f g).2 hf.1) fun e e' he he' hsame => ?_
  obtain ⟨x, rfl, hx⟩ := blames_after hnone (n + 1) e (failure_of_next (Prod.ext he rfl))
  obtain ⟨y, rfl, hy⟩ := blames_after hnone' (n + 1) e' (failure_of_next (Prod.ext he' rfl))
  cases hsame with
  | grammar hfault htoken =>
    refine ⟨x, y, rfl, rfl, hfault, ?_, congrArg SyntaxFault.expected hfault, ?_, ?_⟩
    · simp only [SyntaxError.diagnostic, hfault]
    · rw [hx]
      exact hstands.getElem?_eq
    · rw [hy, hposition]
      exact hstands'.getElem?_eq

theorem sameReport_of_coupled {h : List.Forall₂ (Likeness.layout True).token ts us}
    (hcoupled : Coupled (abreast h) p q) : SameReport p q := by
  have hanswer (n : Nat) : AnswersAlike (.layout True) (p.after n).answer (q.after n).answer :=
    (hcoupled.after (n + 1) fun _ _ _ _ hparts => hparts).1 n (Nat.lt_succ_self n)
  refine ⟨fun n => (hanswer n).text fun h => h.2 trivial, fun n x y hx hy => ?_⟩
  have hresult := (hanswer n).result
  rw [answer, answer, hx, hy] at hresult
  cases hresult with
  | error he =>
    cases he with
    | grammar hfault htoken => exact sameWords_of_token hfault htoken

theorem sameRun_of_lists {source source' : TokenList} (hsource : TokenList.ofList? ts = some source)
    (hsource' : TokenList.ofList? us = some source') (h : List.Forall₂ like.token ts us)
    {maxDepth : Int} (hp : start maxDepth source = .ok p) :
    ∃ q, start maxDepth source' = .ok q ∧ SameRun ts us p q ∧ Coupled (abreast h) p q := by
  obtain ⟨q, hq, _⟩ := start_ahead hsource' (pos_of_start hp)
  have hcoupled := coupled_abreast h hsource hsource' hp hq
  exact ⟨q, hq, sameRun_of_coupled hcoupled (stands_of_start hsource hp).2.2.2.1, hcoupled⟩

end Parser

theorem Byte.text_injective : Function.Injective Byte.text := by
  have hchar : Function.Injective Char.ofUInt8 := by
    intro a b h
    have hval : a.toUInt32 = b.toUInt32 := congrArg Char.val h
    exact UInt8.toUInt32_inj.1 hval
  intro bytes bytes' h
  exact List.map_injective_iff.2 hchar (String.ofList_injective h)

theorem Operator.symbol_injective : Function.Injective Operator.symbol := by
  intro op op' h
  cases op <;> cases op' <;> first | rfl | simp [Operator.symbol] at h

namespace Segment

variable {bits bits' : Nat} {place place' : Location} {segment rest rest' : List UInt8}
  {t u : Token}

/-- The bytes of a token spell its value. -/
theorem spells_value (h : Segment bits place segment rest (.ok t)) :
    match t.terminal with
    | .number value => value = Numeral.decimal segment
    | .identifier name => name = Byte.text segment
    | .operator op => op.symbol = Byte.text segment
    | _ => True := by
  cases h with
  | @punctuation byte _ terminal listed matching =>
    cases terminal with
    | operator op => exact (matching op rfl).symm
    | number | identifier => simp [Byte.punctuation] at listed
    | _ => trivial
  | _ => simp only

theorem terminal_eq (ht : Segment bits place segment rest (.ok t))
    (hu : Segment bits' place' segment rest' (.ok u)) (hkind : t.kind = u.kind) :
    t.terminal = u.terminal := by
  have htvalue := ht.spells_value
  have huvalue := hu.spells_value
  rw [Token.kind, Token.kind] at hkind
  generalize t.terminal = terminal at *
  generalize u.terminal = terminal' at *
  cases terminal <;> cases terminal' <;> simp_all [Terminal.kind]
  exact Operator.symbol_injective (htvalue.trans huvalue.symm)

end Segment

namespace Scanner

variable {s s' : Scanner} {ts us : List Token} {failure : Option ScanError}

/-- A scanned token is the end of input or stands for a segment of the source. -/
theorem Spells.segment_of_mem (h : Spells s ts failure) :
    ∀ t ∈ ts, t.terminal = .endOfInput ∨
      ∃ place segment rest, Segment s.numberBits place segment rest (.ok t) := by
  induction h with
  | fail => simp
  | finish => simp [Token.endOfInput]
  | more h event _ ih =>
    rw [List.forall_mem_cons]
    exact ⟨.inr ⟨_, _, _, event ▸ h.segment⟩, ih⟩

theorem Spells.terminal_eq (h : Spells s ts none) (h' : Spells s' us none) {t u : Token}
    (ht : t ∈ ts) (hu : u ∈ us) (hkind : t.kind = u.kind) (hlexeme : t.lexeme = u.lexeme) :
    t.terminal = u.terminal := by
  rcases h.segment_of_mem t ht with hend | ⟨_, segment, _, hsegment⟩
  · rw [hend, Token.terminal_of_kind_end (hkind ▸ congrArg Terminal.kind hend)]
  rcases h'.segment_of_mem u hu with hend | ⟨_, segment', _, hsegment'⟩
  · rw [hend, Token.terminal_of_kind_end (hkind.trans (congrArg Terminal.kind hend))]
  rw [hsegment.token_eq.1, hsegment'.token_eq.1] at hlexeme
  obtain rfl := Byte.text_injective hlexeme
  exact hsegment.terminal_eq hsegment' hkind

theorem Spells.layout (h : Spells s ts none) (h' : Spells s' us none)
    (hsame : List.Forall₂ (fun t u => t.kind = u.kind ∧ t.lexeme = u.lexeme) ts us) :
    List.Forall₂ (Likeness.layout True).token ts us := by
  refine List.forall₂_iff_zip.2 ⟨hsame.length_eq, fun hmem => ?_⟩
  obtain ⟨ht, hu⟩ := List.of_mem_zip hmem
  obtain ⟨hkind, hlexeme⟩ := List.forall₂_zip hsame hmem
  exact ⟨h.terminal_eq h' ht hu hkind hlexeme, fun _ => hlexeme⟩

theorem yields_of_all {r : Scanner} (h : s.all = (.ok ts, r)) : s.Yields ts none := by
  obtain ⟨us, failure, hyields⟩ := exists_yields s
  obtain ⟨s', hall⟩ := hyields.all_eq
  rw [h] at hall
  cases failure with
  | none =>
    obtain rfl : ts = us := by simpa using congrArg Prod.fst hall
    exact hyields
  | some e => simp at hall

end Scanner

namespace Parser

/-- Calls on two sources that deliver the same functions with the same texts and fail in the same
way, and so does the parse of all that remains. -/
structure SameProgram (p q : Parser Scanner) : Prop where
  results : ∀ n, Alike (fun f g => f.same g = true)
    (fun e e' => ∃ x y, e = .grammar x ∧ e' = .grammar y ∧ x.fault = y.fault)
    (p.after n).next.1 (q.after n).next.1
  report : SameReport p q
  all_eq : ∀ fs p', p.all = (.ok fs, p') →
    ∃ gs q', q.all = (.ok gs, q') ∧ Function.sameAll fs gs = true

theorem sameProgram_of_yields {s s' : Scanner} {ts us : List Token} (h : s.Yields ts none)
    (h' : s'.Yields us none) (hlayout : List.Forall₂ (Likeness.layout True).token ts us)
    {maxDepth : Int} {p : Parser Scanner} (hp : start maxDepth s = .ok p) :
    ∃ q, start maxDepth s' = .ok q ∧ SameProgram p q := by
  obtain ⟨q, hq⟩ := exists_start h' (pos_of_start hp)
  obtain ⟨source, p₁, hsource, hp₁, hpanswer⟩ := exists_list h hp
  obtain ⟨source', q₁, hsource', hq₁, hqanswer⟩ := exists_list h' hq
  obtain ⟨q₂, hq₂, hrun, hcoupled⟩ := sameRun_of_lists hsource hsource' hlayout hp₁
  obtain rfl : q₁ = q₂ := Except.ok.inj (hq₁.symm.trans hq₂)
  have hreport := sameReport_of_coupled hcoupled
  have hpresult (n : Nat) : (p.after n).next.1 = (p₁.after n).next.1 :=
    congrArg Answer.result (hpanswer n)
  have hqresult (n : Nat) : (q.after n).next.1 = (q₁.after n).next.1 :=
    congrArg Answer.result (hqanswer n)
  have hresults (n : Nat) : Alike (fun f g => f.same g = true)
      (fun e e' => ∃ x y, e = .grammar x ∧ e' = .grammar y ∧ x.fault = y.fault)
      (p.after n).next.1 (q.after n).next.1 := by
    rw [hpresult, hqresult]
    exact (hrun.results n).imp (fun _ _ hf => hf)
      fun _ _ _ _ ⟨x, y, hx, hy, herror⟩ => ⟨x, y, hx, hy, herror.fault_eq⟩
  refine ⟨q, hq, hresults, ⟨fun n => ?_, fun n x y hx hy => ?_⟩, fun fs p' hall => ?_⟩
  · rw [hpanswer, hqanswer]
    exact hreport.texts_eq n
  · rw [hpresult] at hx
    rw [hqresult] at hy
    exact hreport.words n x y hx hy
  · obtain ⟨gs, failure, q', hyields, hgs, hfailure⟩ := (all_eq_ok.1 hall).transfer hresults
    cases hfailure
    exact ⟨gs, q', all_eq_ok.2 hyields, Function.sameAll_of_forall₂ hgs⟩

/-- Programs do not depend on layout: neither calls on lists of tokens that agree in kind and value
nor calls on sources whose tokens agree in kind and text tell the one from the other. -/
theorem layout_does_not_matter :
    (∀ ts us source source', TokenList.ofList? ts = some source →
      TokenList.ofList? us = some source' →
      List.Forall₂ (fun t u => t.kind = u.kind ∧ t.value? = u.value?) ts us →
      ∀ maxDepth p, start maxDepth source = .ok p →
        ∃ q, start maxDepth source' = .ok q ∧ SameRun ts us p q ∧
          (List.Forall₂ (fun t u => t.lexeme = u.lexeme) ts us → SameReport p q)) ∧
    ∀ file file' bits bits' bytes bytes' s s', Scanner.start file bits bytes = .ok s →
      Scanner.start file' bits' bytes' = .ok s' →
      ∀ ts us r r', s.all = (.ok ts, r) → s'.all = (.ok us, r') →
        List.Forall₂ (fun t u => t.kind = u.kind ∧ t.lexeme = u.lexeme) ts us →
        ∀ maxDepth p, start maxDepth s = .ok p →
          ∃ q, start maxDepth s' = .ok q ∧ SameProgram p q := by
  constructor
  · intro ts us source source' hsource hsource' hsame maxDepth p hp
    have hlayout (texts : Prop)
        (htexts : texts → List.Forall₂ (fun t u => t.lexeme = u.lexeme) ts us) :
        List.Forall₂ (Likeness.layout texts).token ts us := by
      refine List.forall₂_iff_zip.2 ⟨hsame.length_eq, fun hmem => ?_⟩
      obtain ⟨hkind, hvalue⟩ := List.forall₂_zip hsame hmem
      exact ⟨Token.terminal_eq_of_kind_eq hkind hvalue, fun h => List.forall₂_zip (htexts h) hmem⟩
    obtain ⟨q, hq, hrun, _⟩ := sameRun_of_lists hsource hsource' (hlayout False False.elim) hp
    refine ⟨q, hq, hrun, fun htexts => ?_⟩
    obtain ⟨q', hq', _, hcoupled⟩ :=
      sameRun_of_lists hsource hsource' (hlayout True fun _ => htexts) hp
    obtain rfl : q = q' := Except.ok.inj (hq.symm.trans hq')
    exact sameReport_of_coupled hcoupled
  · intro file file' bits bits' bytes bytes' s s' hs hs' ts us r r' hts hus hsame maxDepth p hp
    obtain rfl := Scanner.eq_ofBytes_of_start hs
    obtain rfl := Scanner.eq_ofBytes_of_start hs'
    have hyields := Scanner.yields_of_all hts
    have hyields' := Scanner.yields_of_all hus
    exact sameProgram_of_yields hyields hyields'
      ((hyields.spells rfl).layout (hyields'.spells rfl) hsame) hp

/-- A number that is written in two ways, and one with blanks around it. -/
theorem layout_does_not_matter_number :
    let ts : List Token := [⟨.number 1, "1", ⟨"f", 1, 1, 0⟩, none⟩, .bare .endOfInput]
    let us : List Token := [⟨.number 1, "01", ⟨"g", 2, 1, 4⟩, none⟩, .bare .endOfInput]
    (∃ source source' p q, TokenList.ofList? ts = some source ∧
      TokenList.ofList? us = some source' ∧ start 3 source = .ok p ∧ start 3 source' = .ok q ∧
      SameRun ts us p q) ∧
    ∃ p q, start 3 (Scanner.ofBytes "f" 64 [0x31]) = .ok p ∧
      start 3 (Scanner.ofBytes "g" 32 [0x20, 0x31, 0x0a]) = .ok q ∧ SameProgram p q := by
  intro ts us
  obtain ⟨hlists, hsources⟩ := layout_does_not_matter
  constructor
  · obtain ⟨q, hq, hrun, _⟩ := hlists ts us _ _ rfl rfl
      (.cons ⟨rfl, rfl⟩ (.cons ⟨rfl, rfl⟩ .nil)) 3 _ rfl
    exact ⟨_, _, _, q, rfl, rfl, rfl, hq, hrun⟩
  · obtain ⟨q, hq, hsame⟩ := hsources "f" "g" 64 32 [0x31] [0x20, 0x31, 0x0a] _ _ rfl rfl _ _ _ _
      rfl rfl (.cons ⟨rfl, rfl⟩ (.cons ⟨rfl, rfl⟩ .nil)) 3 _ rfl
    exact ⟨_, q, rfl, hq, hsame⟩

end Parser
end ExprLang
