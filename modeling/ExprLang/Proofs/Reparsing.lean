import ExprLang.Proofs.Places
import ExprLang.Proofs.Readings
import ExprLang.Proofs.RoundTrip
import ExprLang.Proofs.Spacing

/-!
# Nodes by themselves

A function, a call and a conditional are statements on their own: the tokens that such a node was
read from derive it whatever stands around them, and no deeper than before. The bytes from the first
of these tokens through the last are scanned as the same terminals when nothing is around them. So
the stretch of the source that a node's span names is parsed as the node and nothing else.
-/
namespace ExprLang

/-- The statement that a node is by itself: a call or a conditional is the body of a function
without a name. -/
def Node.statement? : Node → Option Function
  | function f => some f
  | expr (.call callee args span) => some (.anonymous (.call callee args span) span)
  | expr (.conditional p t e span) => some (.anonymous (.conditional p t e span) span)
  | _ => none

/-- A stretch of the tokens `ts` derives the function, and at most `limit` expressions are open at
once. -/
def Function.StandsAlone (limit : Nat) (ts : List Token) (f : Function) : Prop :=
  ∃ us d, us <:+: ts ∧ d ≤ limit ∧ DerivesStatement f d us

theorem Node.span_of_mem_statement? {n : Node} {f : Function} (h : f ∈ n.statement?) :
    n.span = f.span := by
  unfold statement? at h
  split at h
  · rw [Option.mem_some_iff.1 h, span]
  · rw [← Option.mem_some_iff.1 h, span, Expr.span, Function.span]
  · rw [← Option.mem_some_iff.1 h, span, Expr.span, Function.span]
  · contradiction

/-- A call or a conditional that stands without parentheses is a statement there. -/
theorem Expr.StandsBare.standsAlone {limit : Nat} {ts : List Token} {e : Expr} {f : Function}
    (h : e.StandsBare limit ts) (hf : f ∈ (Node.expr e).statement?) : f.StandsAlone limit ts := by
  obtain ⟨us, hus, ⟨d, hd, hderives⟩, hbare⟩ := h
  obtain rfl : f = .anonymous e e.span := by
    cases e <;> simp_all [Node.statement?, Expr.span]
  cases hbare with
  | operation => simp [Node.statement?] at hf
  | whole _ span_eq =>
    rw [span_eq]
    exact ⟨_, d, hus, hd, .anonymous hderives⟩

theorem DerivesStatement.allStandAlone {limit d : Nat} {ts : List Token} {f : Function}
    (h : DerivesStatement f d ts) (hd : d ≤ limit) :
    ∀ m ∈ (Node.function f).walk, ∀ g ∈ m.statement?, g.StandsAlone limit ts := by
  intro m hm g hg
  cases m with
  | expr e => exact (h.standsBare hd e hm).standsAlone hg
  | prototype => simp [Node.statement?] at hg
  | function f' =>
    obtain rfl : f' = g := Option.some.inj hg
    obtain rfl : f' = f := by cases f <;> simpa [Node.walk] using hm
    exact ⟨ts, d, List.infix_rfl, hd, h⟩

theorem EndsRun.of_append {p : UInt8 → Bool} {bytes rest : List UInt8}
    (h : EndsRun p (bytes ++ rest)) : EndsRun p bytes := by
  intro byte hbyte
  obtain ⟨behind, rfl⟩ := List.head?_eq_some_iff.1 hbyte
  exact h byte rfl

theorem Segment.spelt {bits : Nat} {place : Location} {segment rest : List UInt8} {t : Token}
    (h : Segment bits place segment rest (.ok t)) : Spelt bits segment t.terminal := by
  cases h with
  | number nonempty inside _ fits => exact .number nonempty inside fits
  | @identifier letter bytes _ begins inside _ free =>
    have hname : IsName (Byte.text (letter :: bytes)) := ⟨isWord_text begins inside, free⟩
    rw [← hname.ofWord_eq]
    exact .word begins inside
  | @keyword letter bytes _ k begins inside _ spelt =>
    rw [← Keyword.ofWord_spelling, ← spelt]
    exact .word begins inside
  | punctuation listed => exact .mark listed

theorem Scans.gap {bits : Nat} {ts : List Terminal} {gap rest : List UInt8}
    (h : Scans bits ts rest) (hgap : ∀ byte ∈ gap, Byte.isBlank byte = true) :
    Scans bits ts (gap ++ rest) := by
  induction gap with
  | nil => exact h
  | cons byte gap ih =>
    obtain ⟨hbyte, hbehind⟩ := List.forall_mem_cons.1 hgap
    exact (ih hbehind).blank hbyte

namespace Scanner

variable {s : Scanner} {p : Piece} {t u : Token} {us : List Token}
  {front gap text tail behind : List UInt8} {failure : Option ScanError}

/-- The bytes `text` behind the bytes `front` go from the first of the tokens `us` through the last,
and by themselves they are scanned as the same terminals. -/
structure Excerpt (s : Scanner) (us : List Token) (front text tail : List UInt8) : Prop where
  rest_eq : s.rest = front ++ (text ++ tail)
  first_eq : ∀ t ∈ us.head?, t.location.offset = (s.position.offset + front.length : Nat)
  last_eq : ∀ t ∈ us.getLast?, ∃ k : Nat, t.location.offset = k ∧
    k + t.lexeme.length = s.position.offset + (front.length + text.length)
  scans : Scans s.numberBits (terminals us) text

theorem Delivers.offset_eq (h : Delivers s p behind) (event : p.event = .ok t) :
    t.location.offset = (s.position.offset + p.gap.length : Nat) := by
  rw [(h.token_eq event).2.1, Position.offset_location_after]

/-- The text of a token scans as that token in front of what ended it and of any part of that. -/
theorem Delivers.scans {ts : List Terminal} {bytes : List UInt8} (h : Delivers s p (bytes ++ tail))
    (event : p.event = .ok t) (hbytes : Scans s.numberBits ts bytes) :
    Scans s.numberBits (t.terminal :: ts) (p.segment ++ bytes) := by
  have hsegment := event ▸ h.segment
  exact Scans.segment (fun _ => hsegment.spelt.segment hsegment.endsRun.of_append) hbytes

theorem Delivers.excerpt_singleton (h : Delivers s p behind) (event : p.event = .ok t) :
    Excerpt s [t] p.gap p.segment behind where
  rest_eq := by rw [h.rest_eq, Piece.bytes, List.append_assoc]
  first_eq := by
    rintro u ⟨⟩
    exact h.offset_eq event
  last_eq := by
    rintro u ⟨⟩
    refine ⟨_, h.offset_eq event, ?_⟩
    change _ + t.lexeme.length = _
    rw [(h.token_eq event).1, Byte.length_text, Nat.add_assoc]
  scans := by
    have hscans : Scans s.numberBits [t.terminal] (p.segment ++ []) := Delivers.scans h event .nil
    rwa [List.append_nil] at hscans

theorem Delivers.excerpt_cons (h : Delivers s p behind) (event : p.event = .ok t)
    (hbehind : Excerpt (s.past p.bytes behind) (u :: us) gap text tail)
    (hgap : ∀ byte ∈ gap, Byte.isBlank byte = true) :
    Excerpt s (t :: u :: us) p.gap (p.segment ++ (gap ++ text)) tail where
  rest_eq := by
    have hrest : behind = gap ++ (text ++ tail) := hbehind.rest_eq
    simp [h.rest_eq, hrest, Piece.bytes]
  first_eq := by
    rintro u ⟨⟩
    exact h.offset_eq event
  last_eq := by
    intro v hv
    rw [List.getLast?_cons_cons] at hv
    obtain ⟨k, hk, hlength⟩ := hbehind.last_eq v hv
    refine ⟨k, hk, ?_⟩
    simp only [offset_past, Piece.bytes, List.length_append] at hlength ⊢
    omega
  scans := by
    have hrest : behind = (gap ++ text) ++ tail := by
      rw [List.append_assoc]
      exact hbehind.rest_eq
    exact Delivers.scans (hrest ▸ h) event (hbehind.scans.gap hgap)

theorem Delivers.excerpt_behind (h : Delivers s p behind)
    (hbehind : Excerpt (s.past p.bytes behind) us front text tail) :
    Excerpt s us (p.bytes ++ front) text tail where
  rest_eq := by
    have hrest : behind = front ++ (text ++ tail) := hbehind.rest_eq
    rw [h.rest_eq, hrest, List.append_assoc]
  first_eq := by
    intro v hv
    rw [hbehind.first_eq v hv, offset_past, List.length_append, Nat.add_assoc]
  last_eq := by
    intro v hv
    obtain ⟨k, hk, hlength⟩ := hbehind.last_eq v hv
    refine ⟨k, hk, ?_⟩
    rw [offset_past] at hlength
    rw [List.length_append]
    omega
  scans := hbehind.scans

/-- The first tokens that a scanner yields stand behind blanks. -/
theorem Spells.exists_excerpt_front {ts after : List Token} (h : Spells s ts failure)
    (hts : ts = us ++ after) (hne : us ≠ []) (hgoing : ∀ t ∈ us, t.isEnd = false) :
    ∃ gap text tail, (∀ byte ∈ gap, Byte.isBlank byte = true) ∧ Excerpt s us gap text tail := by
  induction h generalizing us with
  | fail => simp_all
  | finish =>
    obtain ⟨t, us, rfl⟩ := List.exists_cons_of_ne_nil hne
    obtain ⟨rfl, _⟩ := List.cons.inj hts
    simp [Token.endOfInput, Token.isEnd] at hgoing
  | more h event _ ih =>
    obtain ⟨t, us, rfl⟩ := List.exists_cons_of_ne_nil hne
    obtain ⟨rfl, rfl⟩ := List.cons.inj hts
    cases us with
    | nil => exact ⟨_, _, _, h.blank, h.excerpt_singleton event⟩
    | cons u us =>
      obtain ⟨gap, text, tail, hgap, hexcerpt⟩ :=
        ih rfl (List.cons_ne_nil u us) (List.forall_mem_cons.1 hgoing).2
      exact ⟨_, _, _, h.blank, h.excerpt_cons event hexcerpt hgap⟩

/-- Every stretch of the tokens before the end of input is scanned from its own bytes. -/
theorem Spells.exists_excerpt {ts before after : List Token} (h : Spells s ts failure)
    (hts : ts = before ++ (us ++ after)) (hne : us ≠ []) (hgoing : ∀ t ∈ us, t.isEnd = false) :
    ∃ front text tail, Excerpt s us front text tail := by
  induction before generalizing s ts with
  | nil =>
    have hfront : ts = us ++ after := hts
    obtain ⟨gap, text, tail, _, hexcerpt⟩ := h.exists_excerpt_front hfront hne hgoing
    exact ⟨gap, text, tail, hexcerpt⟩
  | cons _ before ih =>
    cases h with
    | fail => contradiction
    | finish => simp_all
    | more h event others =>
      obtain ⟨front, text, tail, hexcerpt⟩ := ih others (List.cons.inj hts).2
      exact ⟨_, text, tail, h.excerpt_behind hexcerpt⟩

end Scanner

namespace Parser

variable {maxDepth : Int} {ts us : List Token} {last last' : Token} {f : Function}

/-- The tokens of one statement within the limit are parsed as that statement. -/
theorem parses_of_derives {d : Nat} (h : DerivesStatement f d ts) (hd : d ≤ maxDepth.toNat)
    (hdepth : 0 < maxDepth) (hts : ∀ t ∈ ts, t.isEnd = false) (hlast : last.isEnd = true) :
    Parses maxDepth (ts ++ [last]) [f] := by
  obtain ⟨p, hp, hnone, hmax, hahead⟩ := start_ahead (Scanner.ofList?_concat ts hlast) hdepth
  rw [throughEnd_append_last hts hlast] at hahead
  obtain ⟨q, hnext, hqnone, _, hqahead⟩ :=
    next_of_statement hnone h (hmax ▸ hd) hahead (List.cons_ne_nil last []) fun _ => by
      simpa using endsBefore_of_isEnd hlast ts
  obtain ⟨r, hend⟩ := next_of_ahead_end hqnone hqahead hlast
  exact ⟨_, p, r, Scanner.ofList?_concat ts hlast, hp, all_eq_ok.2 (.more hnext (.finish hend))⟩

/-- What tokens are parsed as is told by their terminals, but for spans. -/
theorem Parses.of_terminals {fs : List Function} (h : Parses maxDepth (ts ++ [last]) fs)
    (hterminals : terminals ts = terminals us) (hlast : last.isEnd = true)
    (hlast' : last'.isEnd = true) :
    ∃ gs, Parses maxDepth (us ++ [last']) gs ∧ List.Forall₂ (fun f g => f.same g = true) fs gs := by
  obtain ⟨source, p, p', hsource, hp, hall⟩ := h
  have hend : last.terminal = last'.terminal := by
    rw [Token.isEnd, beq_iff_eq] at hlast hlast'
    rw [hlast, hlast']
  have hmaps : terminals (ts ++ [last]) = terminals (us ++ [last']) := by
    simp [hterminals, hend]
  have hlike : List.Forall₂ (Likeness.layout False).token (ts ++ [last]) (us ++ [last']) := by
    rw [terminals, terminals, ← List.forall₂_eq_eq_eq, List.forall₂_map_left_iff,
      List.forall₂_map_right_iff] at hmaps
    exact hmaps.imp fun _ _ hterminal => ⟨hterminal, False.elim⟩
  obtain ⟨q, hq, hrun, _⟩ :=
    sameRun_of_lists hsource (Scanner.ofList?_concat us hlast') hlike hp
  have halike (n : Nat) : Alike (fun f g => f.same g = true) (fun _ _ => True)
      (p.after n).next.1 (q.after n).next.1 :=
    (hrun.results n).imp (fun _ _ hsame => hsame) fun _ _ _ _ _ => trivial
  obtain ⟨gs, failure, q', hyields, hgs, hfailure⟩ := (all_eq_ok.1 hall).transfer halike
  cases hfailure
  exact ⟨gs, ⟨_, q, q', Scanner.ofList?_concat us hlast', hq, all_eq_ok.2 hyields⟩, hgs⟩

/-- The bytes of a statement are parsed as that statement when nothing is around them. -/
theorem all_eq_of_scans {bits d : Nat} {text : List UInt8} (h : DerivesStatement f d us)
    (hd : d ≤ maxDepth.toNat) (hdepth : 0 < maxDepth) (hus : ∀ t ∈ us, t.isEnd = false)
    (hscans : Scans bits (terminals us) text) (file : String) :
    ∃ p g q, start maxDepth (Scanner.ofBytes file bits text) = .ok p ∧ p.all = (.ok [g], q) ∧
      g.same f = true := by
  obtain ⟨vs, last, hyields, hvs, _, hlast⟩ := hscans (Scanner.ofBytes file bits text) rfl rfl rfl
  obtain ⟨gs, hparses, hgs⟩ :=
    (parses_of_derives h hd hdepth hus hlast).of_terminals hvs.symm hlast hlast
  obtain ⟨g, hsame, rfl⟩ : ∃ g, f.same g = true ∧ gs = [g] := by
    cases hgs with
    | cons hfirst hrest =>
      cases hrest
      exact ⟨_, hfirst, rfl⟩
  obtain ⟨p, q, hp, hall⟩ := all_eq_of_parses hyields hparses
  rw [Function.same_iff] at hsame
  exact ⟨p, g, q, hp, hall, (Function.same_iff g f).2 hsame.symm⟩

/-- The stretch of the source `bytes` from the start of the span through the token of `ts` at its
end is parsed by itself as the function `f` and nothing else. -/
def Reparses (bits maxDepth : Int) (bytes : List UInt8) (ts : List Token) (span : Span)
    (f : Function) : Prop :=
  (∃ t ∈ ts, t.location = span.last) ∧ ∀ t ∈ ts, t.location = span.last →
    ∃ k m : Nat, span.first.offset = k ∧ span.last.offset = m ∧
      ∀ file, ∃ s p g q,
        Scanner.start file bits (Byte.slice bytes k (m + t.lexeme.length)) = .ok s ∧
        start maxDepth s = .ok p ∧ p.all = (.ok [g], q) ∧ g.same f = true

/-- The bytes between the ends of a stretch of the scanned tokens are scanned as that stretch, and
by them it is told what is parsed again from its span. -/
theorem exists_text {file : String} {bits : Int} {bytes : List UInt8} {failure : Option ScanError}
    (hspells : (Scanner.ofBytes file bits.toNat bytes).Spells ts failure) (hbits : 0 < bits)
    {before after : List Token} (hts : ts = before ++ (us ++ after)) (hne : us ≠ [])
    (hus : ∀ t ∈ us, t.isEnd = false) :
    ∃ span text, Span.over us = some span ∧ Scans bits.toNat (terminals us) text ∧
      ∀ maxDepth f, Reparses bits maxDepth bytes ts span f ↔ ∀ file, ∃ p g q,
        start maxDepth (Scanner.ofBytes file bits.toNat text) = .ok p ∧ p.all = (.ok [g], q) ∧
          g.same f = true := by
  obtain ⟨first, rest, hfirst⟩ := List.exists_cons_of_ne_nil hne
  obtain ⟨init, last, hlast⟩ := List.eq_nil_or_concat' us |>.resolve_left hne
  have hspan : Span.over us = some ⟨first.location, last.location⟩ := by
    rw [hfirst]
    exact Span.over_eq (hfirst ▸ hlast)
  have hmem : last ∈ ts := by simp [hts, hlast]
  obtain ⟨front, text, tail, hexcerpt⟩ := hspells.exists_excerpt hts hne hus
  obtain ⟨m, hm, hlength⟩ := hexcerpt.last_eq last (by simp [hlast])
  have hfront := hexcerpt.first_eq first (by simp [hfirst])
  have hzero : (Scanner.ofBytes file bits.toNat bytes).position.offset = 0 := rfl
  rw [hzero, Nat.zero_add] at hfront hlength
  have hslice : Byte.slice bytes front.length (m + last.lexeme.length) = text :=
    hlength ▸ Byte.slice_of_split hexcerpt.rest_eq
  refine ⟨_, text, hspan, hexcerpt.scans, fun maxDepth f => ⟨fun h file' => ?_, fun h => ?_⟩⟩
  · obtain ⟨k, m', hk, hm', hparses⟩ := h.2 last hmem rfl
    obtain rfl : k = front.length := Int.ofNat.inj (hk.symm.trans hfront)
    obtain rfl : m' = m := Int.ofNat.inj (hm'.symm.trans hm)
    obtain ⟨s, p, g, q, hs, hp⟩ := hparses file'
    rw [hslice] at hs
    obtain rfl := Scanner.eq_ofBytes_of_start hs
    exact ⟨p, g, q, hp⟩
  · refine ⟨⟨last, hmem, rfl⟩, fun t ht hlocation => ?_⟩
    obtain rfl := hspells.eq_of_location ht hmem hlocation
    refine ⟨front.length, m, hfront, hm, fun file' => ?_⟩
    obtain ⟨p, g, q, hp⟩ := h file'
    rw [hslice]
    exact ⟨_, p, g, q, Scanner.start_eq_ofBytes hbits file' text, hp⟩

/-- A statement that a stretch of the scanned tokens derives is parsed again from its span. -/
theorem exists_reparses {file : String} {bits : Int} {bytes : List UInt8}
    {failure : Option ScanError}
    (hspells : (Scanner.ofBytes file bits.toNat bytes).Spells ts failure) (hbits : 0 < bits)
    (hdepth : 0 < maxDepth) {d : Nat} (h : DerivesStatement f d us) (hd : d ≤ maxDepth.toNat)
    {before after : List Token} (hts : ts = before ++ (us ++ after))
    (hus : ∀ t ∈ us, t.isEnd = false) :
    ∃ span, f.span = some span ∧ Reparses bits maxDepth bytes ts span f := by
  obtain ⟨span, text, hspan, hscans, hreparses⟩ := exists_text hspells hbits hts h.ne_nil hus
  refine ⟨span, h.span_eq.trans hspan, (hreparses maxDepth f).2 ?_⟩
  exact all_eq_of_scans h hd hdepth hus hscans

/-- Every function that a parser delivers, and every call and every conditional in it, is parsed
again from the stretch of the source that its span names. -/
theorem spans_parse_alone (file : String) (bits : Int) (bytes : List UInt8) {s : Scanner}
    (hs : Scanner.start file bits bytes = .ok s) (maxDepth : Int) {p : Parser Scanner}
    (hp : start maxDepth s = .ok p) :
    ∃ ts failure, s.Yields ts failure ∧ ∀ n f q, (p.after n).next = (.ok (some f), q) →
      ∀ m ∈ (Node.function f).walk, ∀ g ∈ m.statement?,
        ∃ span, m.span = some span ∧ Reparses bits maxDepth bytes ts span g := by
  have hbits := Scanner.pos_of_start hs
  have hdepth := pos_of_start hp
  obtain rfl := Scanner.eq_ofBytes_of_start hs
  obtain ⟨ts, failure, hyields⟩ := Scanner.exists_yields (Scanner.ofBytes file bits.toNat bytes)
  refine ⟨ts, failure, hyields, fun n f q hnext m hm g hg => ?_⟩
  obtain ⟨before, us, behind, hts, hgoing, d, hd, hderives⟩ :=
    Serves.exists_stretch hyields hp hnext
  obtain ⟨vs, d', ⟨front, back, hus⟩, hd', hstatement⟩ := hderives.allStandAlone hd m hm g hg
  have hsplit : ts = (before ++ front) ++ (vs ++ (back ++ behind)) := by simp [hts, ← hus]
  rw [Node.span_of_mem_statement? hg]
  apply exists_reparses (hyields.spells rfl) hbits hdepth hstatement hd' hsplit
  exact fun t ht => hgoing t (by simp [← hus, ht])

/-- A call that is the right operand of a sum. -/
theorem spans_parse_alone_call :
    let bytes := [0x31, 0x2b, 0x66, 0x28, 0x32, 0x29]
    Scanner.start "f" 64 bytes = .ok (Scanner.ofBytes "f" 64 bytes) ∧
      ∃ p, start 3 (Scanner.ofBytes "f" 64 bytes) = .ok p ∧
        ∃ f q, p.next = (.ok (some f), q) ∧
          ∃ m ∈ (Node.function f).walk, m.nodeClass = .call ∧
            ∃ ts failure, (Scanner.ofBytes "f" 64 bytes).Yields ts failure ∧
              ∃ g ∈ m.statement?, ∃ span, m.span = some span ∧
                Reparses 64 3 bytes ts span g := by
  intro bytes
  have hs : Scanner.start "f" 64 bytes = .ok (Scanner.ofBytes "f" 64 bytes) := rfl
  have hcalls : ((start 3 (Scanner.ofBytes "f" 64 bytes)).toOption.any fun p =>
      p.next.1.toOption.any fun result => result.any fun f => (Node.function f).walk.any fun m =>
        m.nodeClass == .call && m.statement?.isSome) = true := by decide +kernel
  cases hp : start 3 (Scanner.ofBytes "f" 64 bytes) with
  | error e => simp [hp, Except.toOption] at hcalls
  | ok p =>
    rcases hnext : p.next with ⟨e | _ | f, q⟩
    · simp [hp, hnext, Except.toOption] at hcalls
    · simp [hp, hnext, Except.toOption] at hcalls
    · simp only [hp, hnext, Except.toOption, Option.any_some] at hcalls
      obtain ⟨m, hm, hclass⟩ := List.any_eq_true.1 hcalls
      obtain ⟨hcall, hsome⟩ := (Bool.and_eq_true _ _).mp hclass
      obtain ⟨g, hg⟩ := Option.isSome_iff_exists.1 hsome
      obtain ⟨ts, failure, hyields, hreparse⟩ := spans_parse_alone "f" 64 bytes hs 3 hp
      exact ⟨hs, p, rfl, f, q, hnext, m, hm, beq_iff_eq.1 hcall, ts, failure, hyields, g, hg,
        hreparse 0 f q hnext m hm g hg⟩

end Parser
end ExprLang
