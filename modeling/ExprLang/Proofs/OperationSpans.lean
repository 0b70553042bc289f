import ExprLang.Proofs.Reparsing
import ExprLang.Proofs.Spans
import Mathlib.Tactic.TFAE

/-!
# Spans of operations

The span of an operation goes from where that of its left side starts to where that of its right
side ends, and parentheses around an expression are in no span of it. So the span of an operation
leaves out the parentheses that are opened at the front of the operation and those that are closed
at its end, but not their counterparts, which stand further inside. A span that leaves out none is
balanced and is parsed again as the operation, as that of a call or a conditional always is. A span
that leaves out any is not balanced, and nothing at all is parsed from it.
-/
namespace ExprLang

/-- Every parenthesis that is opened is closed, and none is closed before it has been opened. -/
structure Balanced (ts : List Terminal) : Prop where
  count_eq : ts.count .leftParen = ts.count .rightParen
  count_le : ∀ n, (ts.take n).count .rightParen ≤ (ts.take n).count .leftParen

namespace Balanced

variable {us vs : List Terminal} {t : Terminal}

theorem nil : Balanced [] := ⟨rfl, by simp⟩

theorem singleton (hl : t ≠ .leftParen) (hr : t ≠ .rightParen) : Balanced [t] where
  count_eq := by simp [hl, hr]
  count_le n := by
    have hnone : [t].count .rightParen = 0 := by simp [hr]
    have hle := (List.take_sublist n [t]).count_le .rightParen
    omega

theorem append (hu : Balanced us) (hv : Balanced vs) : Balanced (us ++ vs) where
  count_eq := by rw [List.count_append, List.count_append, hu.count_eq, hv.count_eq]
  count_le n := by
    rw [List.take_append, List.count_append, List.count_append]
    exact Nat.add_le_add (hu.count_le n) (hv.count_le _)

theorem cons (hl : t ≠ .leftParen) (hr : t ≠ .rightParen) (h : Balanced us) :
    Balanced (t :: us) :=
  (singleton hl hr).append h

theorem group (h : Balanced us) : Balanced (.leftParen :: (us ++ [.rightParen])) where
  count_eq := by simp [h.count_eq]
  count_le n := by
    cases n with
    | zero => simp
    | succ n =>
      have hinner := h.count_le n
      have hlast : ([.rightParen].take (n - us.length)).count Terminal.rightParen ≤ 1 :=
        (List.take_sublist _ _).count_le _
      have hcons : ([.rightParen].take (n - us.length)).count Terminal.leftParen = 0 := by
        cases n - us.length <;> simp
      rw [List.take_succ_cons, List.take_append, List.count_cons_self,
        List.count_cons_of_ne (by simp), List.count_append, List.count_append, hcons]
      omega

/-- Between balanced terminals on both sides of another, an opening parenthesis that is missing in
front leaves one too many closed, and then a closing one that is missing behind one too few. -/
theorem eq_nil_of_trimmed {opening left right closing : List Terminal}
    (h : Balanced (left ++ t :: right)) (hopening : ∀ t ∈ opening, t = .leftParen)
    (hclosing : ∀ t ∈ closing, t = .rightParen) (hleft : Balanced (opening ++ left))
    (hright : Balanced (right ++ closing)) (hl : t ≠ .leftParen) (hr : t ≠ .rightParen) :
    opening = [] ∧ closing = [] := by
  have hopened : opening.count .leftParen = opening.length :=
    List.count_eq_length.2 fun t ht => (hopening t ht).symm
  have hopened' : opening.count .rightParen = 0 :=
    List.count_eq_zero.2 fun ht => by simpa using hopening _ ht
  have hclosed : closing.count .rightParen = closing.length :=
    List.count_eq_length.2 fun t ht => (hclosing t ht).symm
  have hclosed' : closing.count .leftParen = 0 :=
    List.count_eq_zero.2 fun ht => by simpa using hclosing _ ht
  have hfront := h.count_le left.length
  have hall := h.count_eq
  have hleft := hleft.count_eq
  have hright := hright.count_eq
  rw [List.take_left] at hfront
  simp only [List.count_append, List.count_cons_of_ne hl, List.count_cons_of_ne hr]
    at hall hleft hright
  exact ⟨List.eq_nil_of_length_eq_zero (by omega), List.eq_nil_of_length_eq_zero (by omega)⟩

end Balanced

theorem Grammar.Generates.balanced {symbol : Grammar.Symbol} {ts : List Terminal}
    (h : Grammar.Generates symbol ts) : Balanced ts := by
  induction h with
  | noStatement | noParameter | noOperation | noArgument | lastArgument => exact .nil
  | nextStatement _ _ ih ihs | expression _ _ ih ihs | arguments _ _ ih ihs => exact ih.append ihs
  | definition _ _ ih ihs | nextArgument _ _ ih ihs | operation _ _ _ ih ihs =>
    exact .cons nofun nofun (ih.append ihs)
  | external _ ih | skipComma _ ih | parameter _ _ ih => exact .cons nofun nofun ih
  | bare _ ih => exact ih
  | prototype _ _ ih | call _ _ ih => exact .cons nofun nofun ih.group
  | number | reference => exact .singleton nofun nofun
  | group _ ih => exact ih.group
  | conditional _ _ _ ihp iha ihb =>
    exact .cons nofun nofun (ihp.append (.cons nofun nofun (iha.append (.cons nofun nofun ihb))))

theorem Expr.Reads.balanced {limit : Nat} {ts : List Token} {e : Expr} (h : e.Reads limit ts) :
    Balanced (terminals ts) := by
  obtain ⟨_, _, h⟩ := h
  exact h.generates.balanced

theorem Span.join_over {us vs : List Token} (ws : List Token) (hus : us ≠ []) (hvs : vs ≠ []) :
    Span.join (Span.over us) (Span.over vs) = Span.over (us ++ (ws ++ vs)) := by
  cases us with
  | nil => contradiction
  | cons u us =>
    cases vs with
    | nil => contradiction
    | cons v vs => simp [Span.over, Span.join, List.getLast?_cons]

def Span.covers (s : Span) (t : Token) : Bool :=
  s.first.offset ≤ t.location.offset && t.location.offset ≤ s.last.offset

def Span.tokens (ts : List Token) (s : Span) : List Token := ts.filter s.covers

/-- The tokens in the span over a stretch are the stretch. -/
theorem InOrder.tokens_over {before us after : List Token} {span : Span}
    (h : InOrder (before ++ (us ++ after))) (hspan : Span.over us = some span) :
    span.tokens (before ++ (us ++ after)) = us := by
  have hne : us ≠ [] := by
    rintro rfl
    contradiction
  obtain ⟨s, hs, hamong, hwithin⟩ := h.right.left.exists_over hne
  obtain rfl : span = s := Option.some.inj (hspan.symm.trans hs)
  obtain ⟨first, hfirst, hfirst_eq⟩ := hamong.first_mem
  obtain ⟨last, hlast, hlast_eq⟩ := hamong.last_mem
  have hbefore : before.filter span.covers = [] := by
    refine List.filter_eq_nil_iff.2 fun t ht => ?_
    have hlt := h.lt_of_append ht (List.mem_append_left after hfirst)
    rw [hfirst_eq] at hlt
    simp [Span.covers, Int.not_le.2 hlt]
  have hafter : after.filter span.covers = [] := by
    refine List.filter_eq_nil_iff.2 fun t ht => ?_
    have hlt := h.right.lt_of_append hlast ht
    rw [hlast_eq] at hlt
    simp [Span.covers, Int.not_le.2 hlt]
  have hus : us.filter span.covers = us :=
    List.filter_eq_self.2 fun t ht => by simpa [Span.covers] using hwithin t ht
  rw [Span.tokens, List.filter_append, List.filter_append, hbefore, hus, hafter, List.nil_append,
    List.append_nil]

/-- The span of an expression is over its tokens without the parentheses around it and, where it is
an operation, those that its first and its last operand have at its ends. -/
theorem Expr.Reads.exists_inner {limit : Nat} {ts : List Token} {e : Expr} (h : e.Reads limit ts) :
    ∃ opening inner closing, ts = opening ++ (inner ++ closing) ∧
      (∀ t ∈ opening, t.terminal = .leftParen) ∧ (∀ t ∈ closing, t.terminal = .rightParen) ∧
      e.span = Span.over inner ∧ ∃ t us, inner = t :: us ∧ t.terminal ≠ .leftParen := by
  rcases h.bare_or_grouped with hbare | ⟨l, us, r, rfl, hl, hr, hinner⟩
  · cases hbare with
    | @operation op o a b us vs _ left right =>
      obtain ⟨opening, inner, behind, rfl, hopening, _, ha, t, ws, rfl, ht⟩ := exists_inner left
      obtain ⟨before, inner', closing, rfl, _, hclosing, hb, t', ws', rfl, _⟩ := exists_inner right
      refine ⟨opening, t :: ws ++ (behind ++ o :: before ++ (t' :: ws')), closing, by simp,
        hopening, hclosing, ?_, t, _, rfl, ht⟩
      rw [Expr.span, ha, hb, Span.join_over _ (List.cons_ne_nil _ _) (List.cons_ne_nil _ _)]
    | @whole _ t us ht span_eq =>
      exact ⟨[], t :: us, [], by simp, by simp, by simp, span_eq, t, us, rfl, ht⟩
  · obtain ⟨opening, inner, closing, rfl, hopening, hclosing, hspan, hinner⟩ :=
      exists_inner hinner
    exact ⟨l :: opening, inner, closing ++ [r], by simp, List.forall_mem_cons.2 ⟨hl, hopening⟩,
      by simpa [or_imp, forall_and] using ⟨hclosing, hr⟩, hspan, hinner⟩
termination_by ts.length

/-- How the tokens of the operation `op a b` go with its span. In the span are `left`, the operator
and `right`. The parentheses `opening` before them and `closing` behind them are not. -/
structure OperationSpan (limit : Nat) (ts : List Token) (op : Operator) (a b : Expr) (span : Span)
    (opening left : List Token) (o : Token) (right closing : List Token) : Prop where
  operator_eq : o.terminal = .operator op
  left_reads : a.Reads limit (opening ++ left)
  right_reads : b.Reads limit (right ++ closing)
  opening_eq : ∀ t ∈ opening, t.terminal = .leftParen
  closing_eq : ∀ t ∈ closing, t.terminal = .rightParen
  left_begins : ∀ t ∈ left.head?, t.terminal ≠ .leftParen
  tokens_eq : span.tokens ts = left ++ o :: right

section Operation

variable {limit : Nat} {ts us : List Token} {op : Operator} {a b : Expr} {span? : Option Span}
  {span : Span} {opening left right closing : List Token} {o : Token}

theorem Bare.exists_operationSpan (h : Bare limit (.binary op a b span?) us)
    (horder : InOrder ts) (hts : us <:+: ts) :
    ∃ span opening left o right closing, span? = some span ∧
      us = opening ++ (left ++ o :: right) ++ closing ∧
      Span.over (left ++ o :: right) = some span ∧
      OperationSpan limit ts op a b span opening left o right closing := by
  cases h with
  | whole _ _ no_operation => exact absurd rfl (no_operation op a b span?)
  | @operation _ o _ _ us vs ho hleft hright =>
    obtain ⟨opening, inner, behind, rfl, hopening, _, ha, t, ws, rfl, ht⟩ := hleft.exists_inner
    obtain ⟨front, inner', closing, rfl, _, hclosing, hb, t', ws', rfl, _⟩ := hright.exists_inner
    obtain ⟨before, after, hts⟩ := hts
    obtain ⟨span, hspan⟩ :
        ∃ span, Span.over (t :: ws ++ behind ++ o :: (front ++ t' :: ws')) = some span := ⟨_, rfl⟩
    refine ⟨span, opening, t :: ws ++ behind, o, front ++ t' :: ws', closing, ?_, by simp, hspan,
      ho, hleft, by simpa using hright, hopening, hclosing, by simpa using ht, ?_⟩
    · rw [ha, hb, ← hspan,
        Span.join_over (behind ++ o :: front) (List.cons_ne_nil t ws) (List.cons_ne_nil t' ws')]
      simp
    · have hsplit : ts = (before ++ opening) ++
          ((t :: ws ++ behind ++ o :: (front ++ t' :: ws')) ++ (closing ++ after)) := by
        simp [← hts]
      rw [hsplit] at horder ⊢
      exact horder.tokens_over hspan

namespace OperationSpan

/-- All tokens of the operation are in its span if no parentheses are outside. -/
theorem covers_iff (h : OperationSpan limit ts op a b span opening left o right closing)
    (horder : InOrder (opening ++ (left ++ o :: right) ++ closing)) :
    (∀ t ∈ opening ++ (left ++ o :: right) ++ closing, t ∈ span.tokens ts) ↔
      opening = [] ∧ closing = [] := by
  rw [h.tokens_eq]
  constructor
  · intro hcovers
    refine ⟨List.eq_nil_iff_forall_not_mem.2 fun t ht => ?_,
      List.eq_nil_iff_forall_not_mem.2 fun t ht => ?_⟩
    · have hlt := horder.left.lt_of_append ht (hcovers t (by simp [ht]))
      omega
    · have hin : t ∈ opening ++ (left ++ o :: right) :=
        List.mem_append_right _ (hcovers t (by simp [ht]))
      have hlt := horder.lt_of_append hin ht
      omega
  · rintro ⟨rfl, rfl⟩
    simp

theorem balanced_iff (h : OperationSpan limit ts op a b span opening left o right closing) :
    Balanced (terminals (span.tokens ts)) ↔ opening = [] ∧ closing = [] := by
  have hleft := h.left_reads.balanced
  have hright := h.right_reads.balanced
  have hterminals : terminals (left ++ o :: right) =
      terminals left ++ .operator op :: terminals right := by
    rw [terminals_append, terminals_cons, h.operator_eq]
  rw [h.tokens_eq, hterminals]
  constructor
  · intro hbalanced
    rw [terminals_append] at hleft hright
    obtain ⟨hopening, hclosing⟩ := hbalanced.eq_nil_of_trimmed
      (List.forall_mem_map.2 h.opening_eq) (List.forall_mem_map.2 h.closing_eq) hleft hright
      nofun nofun
    exact ⟨List.map_eq_nil_iff.1 hopening, List.map_eq_nil_iff.1 hclosing⟩
  · rintro ⟨rfl, rfl⟩
    rw [List.append_nil] at hright
    exact hleft.append (.cons nofun nofun hright)

end OperationSpan

end Operation

theorem ReadsProgram.balanced {fs : List Function} {ks : List Nat} {ts : List Token}
    (h : ReadsProgram fs ks ts) : Balanced (terminals ts) := by
  induction h with
  | nil => exact .nil
  | cons first _ _ ih =>
    rw [terminals_append]
    exact first.derives.generates.balanced.append ih

namespace Parser

variable {maxDepth : Int} {ts us : List Token}

/-- Bytes that are parsed without a failure are balanced. -/
theorem balanced_of_all_eq {bits : Nat} {text : List UInt8} {file : String} {p q : Parser Scanner}
    {fs : List Function} (hscans : Scans bits (terminals us) text)
    (hp : start maxDepth (Scanner.ofBytes file bits text) = .ok p) (hall : p.all = (.ok fs, q)) :
    Balanced (terminals us) := by
  obtain ⟨vs, last, hyields, hvs, hgoing, hlast⟩ :=
    hscans (Scanner.ofBytes file bits text) rfl rfl rfl
  obtain ⟨ks, hreads⟩ :=
    reads_of_parses (parses_of_all_eq hyields hp hall) (pos_of_start hp) hgoing hlast
  exact hvs ▸ hreads.balanced

theorem balanced_of_reparses {file : String} {bits : Int} {bytes : List UInt8}
    {failure : Option ScanError} {span : Span} {f : Function}
    (hspells : (Scanner.ofBytes file bits.toNat bytes).Spells ts failure) (hbits : 0 < bits)
    {before after : List Token} (hts : ts = before ++ (us ++ after)) (hne : us ≠ [])
    (hus : ∀ t ∈ us, t.isEnd = false) (hspan : Span.over us = some span)
    (h : Reparses bits maxDepth bytes ts span f) : Balanced (terminals us) := by
  obtain ⟨span', text, hspan', hscans, hreparses⟩ := exists_text hspells hbits hts hne hus
  obtain rfl : span = span' := Option.some.inj (hspan.symm.trans hspan')
  obtain ⟨p, g, q, hp, hall, _⟩ := (hreparses maxDepth f).1 h file
  exact balanced_of_all_eq hscans hp hall

/-- How the operations in the functions that a parser delivers go with their spans. All tokens that
have been consumed for an operation are in its span exactly if the span is balanced, and exactly if
it is parsed again as the operation. -/
theorem operation_spans (file : String) (bits : Int) (bytes : List UInt8) {s : Scanner}
    (hs : Scanner.start file bits bytes = .ok s) (maxDepth : Int) {p : Parser Scanner}
    (hp : start maxDepth s = .ok p) :
    ∃ ts failure, s.Yields ts failure ∧ ∀ n f q, (p.after n).next = (.ok (some f), q) →
      ∀ op a b span?, .expr (.binary op a b span?) ∈ (Node.function f).walk →
        ∃ span opening left o right closing, span? = some span ∧
          opening ++ (left ++ o :: right) ++ closing <:+: q.reader.consumed.reverse ∧
          OperationSpan maxDepth.toNat ts op a b span opening left o right closing ∧
          [opening = [] ∧ closing = [],
            ∀ t ∈ opening ++ (left ++ o :: right) ++ closing, t ∈ span.tokens ts,
            Balanced (terminals (span.tokens ts)),
            Reparses bits maxDepth bytes ts span
              (.anonymous (.binary op a b (some span)) (some span))].TFAE := by
  have hbits := Scanner.pos_of_start hs
  have hdepth := pos_of_start hp
  obtain rfl := Scanner.eq_ofBytes_of_start hs
  obtain ⟨ts, failure, hyields⟩ := Scanner.exists_yields (Scanner.ofBytes file bits.toNat bytes)
  have hspells := hyields.spells rfl
  refine ⟨ts, failure, hyields, fun n f q hnext op a b span? hmem => ?_⟩
  obtain ⟨before, behind, hts, hgoing, d, hd, hderives⟩ := Serves.taken_stretch hyields hp hnext
  rw [taken_eq_of_next hnext] at hts hgoing hderives
  obtain ⟨us, ⟨front, back, hus⟩, ⟨k, hk, hreads⟩, hbare⟩ := hderives.standsBare hd _ hmem
  have hsplit : ts = (before ++ front) ++ (us ++ (back ++ behind)) := by simp [hts, ← hus]
  have hgoing : ∀ t ∈ us, t.isEnd = false := fun t ht => hgoing t (by simp [← hus, ht])
  obtain ⟨span, opening, left, o, right, closing, rfl, rfl, hover, hspan⟩ :=
    hbare.exists_operationSpan hspells.inOrder ⟨_, _, by rw [hsplit, List.append_assoc]⟩
  refine ⟨span, opening, left, o, right, closing, rfl, ⟨front, back, hus⟩, hspan, ?_⟩
  have horder : InOrder (opening ++ (left ++ o :: right) ++ closing) :=
    (hsplit ▸ hspells.inOrder).right.left
  have hspread : ts = (before ++ front ++ opening) ++
      ((left ++ o :: right) ++ (closing ++ (back ++ behind))) := by simp [hsplit]
  have hinside : ∀ t ∈ left ++ o :: right, t.isEnd = false := fun t ht =>
    hgoing t (List.mem_append_left _ (List.mem_append_right _ ht))
  tfae_have 1 ↔ 2 := (hspan.covers_iff horder).symm
  tfae_have 1 ↔ 3 := hspan.balanced_iff.symm
  tfae_have 1 → 4 := by
    rintro ⟨rfl, rfl⟩
    rw [List.nil_append, List.append_nil] at hreads
    have hstatement := DerivesStatement.anonymous hreads
    rw [hover] at hstatement
    obtain ⟨span', hspan', hreparses⟩ :=
      exists_reparses hspells hbits hdepth hstatement hk hspread hinside
    obtain rfl := Option.some.inj hspan'
    exact hreparses
  tfae_have 4 → 3 := fun h =>
    hspan.tokens_eq ▸ balanced_of_reparses hspells hbits hspread (by simp) hinside hover h
  tfae_finish

/-- The parenthesis at the end of `1+(2)` is left out. -/
theorem operation_spans_of_group :
    let bytes := [0x31, 0x2b, 0x28, 0x32, 0x29]
    Scanner.start "f" 64 bytes = .ok (Scanner.ofBytes "f" 64 bytes) ∧
      ∃ p, start 2 (Scanner.ofBytes "f" 64 bytes) = .ok p ∧ ∃ f q, p.next = (.ok (some f), q) ∧
        ∃ op a b span?, .expr (.binary op a b span?) ∈ (Node.function f).walk ∧
          ∃ ts failure, (Scanner.ofBytes "f" 64 bytes).Yields ts failure ∧
            ∃ span opening left o right closing, span? = some span ∧
              opening ++ (left ++ o :: right) ++ closing <:+: q.reader.consumed.reverse ∧
              OperationSpan 2 ts op a b span opening left o right closing ∧
              [opening = [] ∧ closing = [],
                ∀ t ∈ opening ++ (left ++ o :: right) ++ closing, t ∈ span.tokens ts,
                Balanced (terminals (span.tokens ts)),
                Reparses 64 2 bytes ts span
                  (.anonymous (.binary op a b (some span)) (some span))].TFAE := by
  intro bytes
  have hs : Scanner.start "f" 64 bytes = .ok (Scanner.ofBytes "f" 64 bytes) := rfl
  obtain ⟨p, hp, f, q, hnext, op, a, b, span?, hmem⟩ :
      ∃ p, start 2 (Scanner.ofBytes "f" 64 bytes) = .ok p ∧ ∃ f q, p.next = (.ok (some f), q) ∧
        ∃ op a b span?, .expr (.binary op a b span?) ∈ (Node.function f).walk :=
    ⟨_, rfl, _, _, rfl, _, _, _, _, List.mem_cons_of_mem _ List.mem_cons_self⟩
  obtain ⟨ts, failure, hyields, hspans⟩ := operation_spans "f" 64 bytes hs 2 hp
  exact ⟨hs, p, hp, f, q, hnext, op, a, b, span?, hmem, ts, failure, hyields,
    hspans 0 f q hnext op a b span? hmem⟩

/-- In `(1)+2`, the span of the sum is that of `1)+2`. -/
theorem span_of_leading_group_is_unbalanced :
    let bytes := [0x28, 0x31, 0x29, 0x2b, 0x32]
    let s := Scanner.ofBytes "f" 64 bytes
    Scanner.start "f" 64 bytes = .ok s ∧ ∃ p, start 100 s = .ok p ∧
      ∃ f q, p.next = (.ok (some f), q) ∧ ∃ op a b span,
        .expr (.binary op a b (some span)) ∈ (Node.function f).walk ∧
          span = ⟨⟨"f", 1, 2, 1⟩, ⟨"f", 1, 5, 4⟩⟩ ∧
          ∃ ts, s.Yields ts none ∧ (∃ t ∈ q.reader.consumed.reverse, t ∉ span.tokens ts) ∧
            ¬ Balanced (terminals (span.tokens ts)) ∧
            ∀ g, ¬ Reparses 64 100 bytes ts span g := by
  intro bytes s
  obtain ⟨p, hp, f, q, hnext, op, a, b, hmem, t, hconsumed, ht⟩ :
      ∃ p, start 100 s = .ok p ∧ ∃ f q, p.next = (.ok (some f), q) ∧ ∃ op a b,
        .expr (.binary op a b (some ⟨⟨"f", 1, 2, 1⟩, ⟨"f", 1, 5, 4⟩⟩)) ∈ (Node.function f).walk ∧
          ∃ t ∈ q.reader.consumed.reverse, t.location.offset = 0 :=
    ⟨_, rfl, _, _, rfl, _, _, _, List.mem_cons_of_mem _ List.mem_cons_self, _, List.mem_cons_self,
      rfl⟩
  have hall : s.all = (.ok _, _) := rfl
  have hyields := Scanner.yields_of_all hall
  have hunbalanced (h : Balanced [.number 1, .rightParen, .operator .add, .number 2]) : False :=
    absurd (h.count_le 2) (by decide)
  refine ⟨rfl, p, hp, f, q, hnext, op, a, b, _, hmem, rfl, _, hyields, ⟨t, hconsumed, ?_⟩,
    hunbalanced, fun g h => hunbalanced ?_⟩
  · simp [Span.tokens, Span.covers, ht]
  · exact balanced_of_reparses (hyields.spells rfl) (by decide)
      (List.append_assoc [_] [_, _, _, _] [_]) (List.cons_ne_nil _ _) (by simp [Token.isEnd]) rfl h

end Parser
end ExprLang
