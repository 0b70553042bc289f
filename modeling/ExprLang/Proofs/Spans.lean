import ExprLang.Proofs.ConsumedText
import ExprLang.Traversal

/-!
# Spans in order

Where the nodes of a tree stand in the source it was read from. A node runs from one token of its
statement to another, its children lie inside it and one behind the other, and of two functions
the one delivered first has ended where the other begins.
-/
namespace ExprLang

namespace Span

/-- From one of some tokens to another, not backwards. -/
structure Among (ts : List Token) (s : Span) : Prop where
  first_mem : ∃ t ∈ ts, t.location = s.first
  last_mem : ∃ t ∈ ts, t.location = s.last
  first_le_last : s.first.offset ≤ s.last.offset

def Within (outer s : Span) : Prop :=
  outer.first.offset ≤ s.first.offset ∧ s.last.offset ≤ outer.last.offset

theorem Within.trans {a b c : Span} (h : Within a b) (h' : Within b c) : Within a c :=
  ⟨Int.le_trans h.1 h'.1, Int.le_trans h'.2 h.2⟩

theorem Among.mono {ts us : List Token} {s : Span} (h : Among ts s) (hsub : ts ⊆ us) :
    Among us s where
  first_mem := h.first_mem.imp fun _ ht => ⟨hsub ht.1, ht.2⟩
  last_mem := h.last_mem.imp fun _ ht => ⟨hsub ht.1, ht.2⟩
  first_le_last := h.first_le_last

end Span

namespace Node

def Before (a b : Node) : Prop :=
  ∀ s ∈ a.span, ∀ s' ∈ b.span, s.last.offset < s'.first.offset

def NotBehind (a b : Node) : Prop :=
  ∀ s ∈ a.span, ∀ s' ∈ b.span, s.first.offset ≤ s'.first.offset

/-- How a node and its children lie among the tokens `ts`. -/
structure Laid (ts : List Token) (n : Node) : Prop where
  spanned : ∃ s, n.span = some s ∧ s.Among ts
  nested : ∀ c ∈ n.children, ∀ s ∈ n.span, ∀ s' ∈ c.span, s.Within s'
  ordered : n.children.Pairwise Before

def LaidOut (ts : List Token) (n : Node) : Prop := ∀ m ∈ n.walk, m.Laid ts

variable {ts us vs : List Token} {n : Node}

theorem laidOut_iff : n.LaidOut ts ↔ n.Laid ts ∧ ∀ c ∈ n.children, c.LaidOut ts :=
  forall_mem_walk

theorem LaidOut.mono (h : n.LaidOut ts) (hsub : ts ⊆ us) : n.LaidOut us := by
  intro m hm
  obtain ⟨s, hs, hamong⟩ := (h m hm).spanned
  exact ⟨⟨s, hs, hamong.mono hsub⟩, (h m hm).nested, (h m hm).ordered⟩

theorem LaidOut.spanned (h : n.LaidOut ts) : ∃ s, n.span = some s ∧ s.Among ts :=
  (laidOut_iff.1 h).1.spanned

/-- Not only children lie inside a node but everything below it. -/
theorem LaidOut.within (h : n.LaidOut ts) :
    ∀ m ∈ n.walk, ∀ s ∈ n.span, ∀ s' ∈ m.span, s.Within s' := by
  induction n using induction_on_children with
  | h n ih =>
  obtain ⟨hn, hchildren⟩ := laidOut_iff.1 h
  rw [walk_eq_cons, List.forall_mem_cons]
  refine ⟨fun s hs s' hs' => ?_, fun m hm s hs s' hs' => ?_⟩
  · obtain rfl := Option.mem_unique hs hs'
    exact ⟨Int.le_refl _, Int.le_refl _⟩
  · obtain ⟨c, hc, hm⟩ := List.mem_flatMap.1 hm
    obtain ⟨middle, hmiddle, _⟩ := (hchildren c hc).spanned
    exact (hn.nested c hc s hs middle hmiddle).trans
      (ih c hc (hchildren c hc) m hm middle hmiddle s' hs')

/-- The walk goes through the source from left to right. -/
theorem LaidOut.walk_pairwise (h : n.LaidOut ts) : n.walk.Pairwise NotBehind := by
  induction n using induction_on_children with
  | h n ih =>
  obtain ⟨hn, hchildren⟩ := laidOut_iff.1 h
  have hwithin := h.within
  rw [walk_eq_cons] at hwithin ⊢
  refine List.pairwise_cons.2 ⟨fun m hm s hs s' hs' => ?_, List.pairwise_flatMap.2 ⟨?_, ?_⟩⟩
  · exact (hwithin m (List.mem_cons_of_mem _ hm) s hs s' hs').1
  · exact fun c hc => ih c hc (hchildren c hc)
  · refine hn.ordered.imp_of_mem fun {c c'} hc hc' hbefore m hm m' hm' s hs s' hs' => ?_
    obtain ⟨t, ht, _⟩ := (hchildren c hc).spanned
    obtain ⟨t', ht', _⟩ := (hchildren c' hc').spanned
    obtain ⟨r, hr, hamong⟩ := (hchildren c hc m hm).spanned
    obtain rfl := Option.mem_unique hs hr
    have hlast := ((hchildren c hc).within m hm t ht s hs).2
    have hfirst := ((hchildren c' hc').within m' hm' t' ht' s' hs').1
    have hlt := hbefore t ht t' ht'
    have hle := hamong.first_le_last
    omega

end Node

/-- No token starts where an earlier one does or before it. -/
def InOrder (ts : List Token) : Prop :=
  ts.Pairwise fun t u => t.location.offset < u.location.offset

namespace InOrder

variable {ts us vs : List Token} {n : Node}

theorem tail {t : Token} (h : InOrder (t :: ts)) : InOrder ts := (List.pairwise_cons.1 h).2

theorem left (h : InOrder (us ++ vs)) : InOrder us := (List.pairwise_append.1 h).1

theorem right (h : InOrder (us ++ vs)) : InOrder vs := (List.pairwise_append.1 h).2.1

theorem without {t : Token} (h : InOrder (us ++ t :: vs)) : InOrder (us ++ vs) :=
  h.sublist (by simp)

theorem lt_of_append (h : InOrder (us ++ vs)) {t u : Token} (ht : t ∈ us) (hu : u ∈ vs) :
    t.location.offset < u.location.offset :=
  (List.pairwise_append.1 h).2.2 t ht u hu

theorem exists_over (h : InOrder ts) (hne : ts ≠ []) :
    ∃ s, Span.over ts = some s ∧ s.Among ts ∧
      ∀ t ∈ ts, s.first.offset ≤ t.location.offset ∧ t.location.offset ≤ s.last.offset := by
  obtain ⟨first, us, rfl⟩ := List.exists_cons_of_ne_nil hne
  obtain ⟨init, last, hlast⟩ := List.eq_nil_or_concat' (first :: us) |>.resolve_left hne
  have hfirst : ∀ t ∈ first :: us, first.location.offset ≤ t.location.offset := by
    rw [List.forall_mem_cons]
    exact ⟨Int.le_refl _, fun t ht => Int.le_of_lt ((List.pairwise_cons.1 h).1 t ht)⟩
  have hle : ∀ t ∈ first :: us, t.location.offset ≤ last.location.offset := by
    rw [hlast] at h ⊢
    intro t ht
    rcases List.mem_append.1 ht with ht | ht
    · exact Int.le_of_lt (h.lt_of_append ht (by simp))
    · exact List.mem_singleton.1 ht ▸ Int.le_refl _
  have hmem : last ∈ first :: us := by simp [hlast]
  exact ⟨_, Span.over_eq hlast, ⟨⟨first, by simp, rfl⟩, ⟨last, hmem, rfl⟩, hfirst last hmem⟩,
    fun t ht => ⟨hfirst t ht, hle t ht⟩⟩

theorem before (h : InOrder (us ++ vs)) {a b : Node} (ha : a.LaidOut us) (hb : b.LaidOut vs) :
    a.Before b := by
  intro s hs s' hs'
  obtain ⟨r, hr, hamong⟩ := ha.spanned
  obtain ⟨r', hr', hamong'⟩ := hb.spanned
  obtain rfl := Option.mem_unique hs hr
  obtain rfl := Option.mem_unique hs' hr'
  obtain ⟨t, ht, htlast⟩ := hamong.last_mem
  obtain ⟨u, hu, hufirst⟩ := hamong'.first_mem
  rw [← htlast, ← hufirst]
  exact h.lt_of_append ht hu

/-- A node whose span is over all of the tokens. -/
theorem laidOut (h : InOrder ts) (hne : ts ≠ []) (hspan : n.span = Span.over ts)
    (hchildren : ∀ c ∈ n.children, c.LaidOut ts) (hordered : n.children.Pairwise Node.Before) :
    n.LaidOut ts := by
  obtain ⟨s, hs, hamong, hbounds⟩ := h.exists_over hne
  refine Node.laidOut_iff.2 ⟨⟨⟨s, hspan.trans hs, hamong⟩, ?_, hordered⟩, hchildren⟩
  intro c hc r hr s' hs'
  obtain rfl := Option.mem_unique hr (hspan.trans hs)
  obtain ⟨r', hr', hamong'⟩ := (hchildren c hc).spanned
  obtain rfl := Option.mem_unique hs' hr'
  obtain ⟨t, ht, htfirst⟩ := hamong'.first_mem
  obtain ⟨u, hu, hulast⟩ := hamong'.last_mem
  rw [Span.Within, ← htfirst, ← hulast]
  exact ⟨(hbounds t ht).1, (hbounds u hu).2⟩

end InOrder

/-- `Row first rest ts`: the operands of a chain lie in `ts` with a token between neighbours. -/
inductive Row : Expr → List (Operator × Expr) → List Token → Prop
  | last {e : Expr} {ts : List Token} (h : (Node.expr e).LaidOut ts) : Row e [] ts
  | link {e x : Expr} {op : Operator} {rest : List (Operator × Expr)} {o : Token}
      {ts us : List Token} (h : (Node.expr e).LaidOut ts) (others : Row x rest us) :
      Row e ((op, x) :: rest) (ts ++ o :: us)

theorem Row.split {first x : Expr} {op : Operator} {left right : List (Operator × Expr)}
    {ts : List Token} (h : Row first (left ++ (op, x) :: right) ts) :
    ∃ us o vs, ts = us ++ o :: vs ∧ Row first left us ∧ Row x right vs := by
  induction left generalizing first ts with
  | nil =>
    cases h with
    | link h others => exact ⟨_, _, _, rfl, .last h, others⟩
  | cons link left ih =>
    cases h with
    | link h others =>
      obtain ⟨us, o, vs, rfl, hleft, hright⟩ := ih others
      exact ⟨_, o, vs, (List.append_assoc _ (_ :: us) (o :: vs)).symm, .link h hleft, hright⟩

theorem InOrder.laidOut_binary {op : Operator} {a b : Expr} {o : Token} {us vs : List Token}
    (h : InOrder (us ++ o :: vs)) (ha : (Node.expr a).LaidOut us)
    (hb : (Node.expr b).LaidOut vs) :
    (Node.expr (.binary op a b (Span.join a.span b.span))).LaidOut (us ++ o :: vs) := by
  have hbefore := h.without.before ha hb
  obtain ⟨s, hs, hamong⟩ := ha.spanned
  obtain ⟨s', hs', hamong'⟩ := hb.spanned
  have hspan : Span.join a.span b.span = some ⟨s.first, s'.last⟩ := by
    change a.span = some s at hs
    change b.span = some s' at hs'
    rw [hs, hs', Span.join]
  have hlt := hbefore s hs s' hs'
  have hfirst : s.first.offset ≤ s'.first.offset :=
    Int.le_trans hamong.first_le_last (Int.le_of_lt hlt)
  have hlast : s.last.offset ≤ s'.last.offset :=
    Int.le_trans (Int.le_of_lt hlt) hamong'.first_le_last
  have hus : us ⊆ us ++ o :: vs := List.subset_append_left _ _
  have hvs : vs ⊆ us ++ o :: vs := fun t ht => by simp [ht]
  refine Node.laidOut_iff.2 ⟨⟨⟨_, hspan, (hamong.mono hus).first_mem, (hamong'.mono hvs).last_mem,
    Int.le_trans hfirst hamong'.first_le_last⟩, ?_, ?_⟩, ?_⟩
  · rintro c hc r hr r' hr'
    obtain rfl := Option.mem_unique hr hspan
    simp only [Node.children, Expr.children, List.map_cons, List.map_nil, List.mem_cons,
      List.not_mem_nil, or_false] at hc
    rcases hc with rfl | rfl
    · obtain rfl := Option.mem_unique hr' hs
      exact ⟨Int.le_refl _, hlast⟩
    · obtain rfl := Option.mem_unique hr' hs'
      exact ⟨hfirst, Int.le_refl _⟩
  · simpa [Node.children, Expr.children] using hbefore
  · simpa [Node.children, Expr.children] using ⟨ha.mono hus, hb.mono hvs⟩

theorem ChainTree.laidOut {first e : Expr} {rest : List (Operator × Expr)} {ts : List Token}
    (h : ChainTree first rest e) (hts : InOrder ts) (hrow : Row first rest ts) :
    (Node.expr e).LaidOut ts := by
  induction h generalizing ts with
  | operand e =>
    cases hrow with
    | last h => exact h
  | split _ _ _ _ ihl ihr =>
    obtain ⟨us, o, vs, rfl, hleft, hright⟩ := hrow.split
    exact hts.laidOut_binary (ihl hts.left hleft) (ihr hts.right.tail hright)

def Phrase.LaidOut (ts : List Token) : Phrase → Prop
  | .operand e | .conditional e | .expression e => (Node.expr e).LaidOut ts
  | .chain first rest => Row first rest ts
  | .arguments es =>
      (∀ e ∈ es, (Node.expr e).LaidOut ts) ∧ (es.map Node.expr).Pairwise Node.Before

theorem Derives.laidOut {phrase : Phrase} {d : Nat} {ts : List Token}
    (h : Derives phrase d ts) (hts : InOrder ts) : phrase.LaidOut ts := by
  induction h with
  | number | reference =>
    apply InOrder.laidOut hts (List.cons_ne_nil _ _) rfl <;> simp [Node.children, Expr.children]
  | @call t l r callee es d ts _ _ _ _ ih =>
    obtain ⟨hargs, hordered⟩ := ih hts.tail.tail.left
    have hsub : ts ⊆ t :: l :: (ts ++ [r]) := fun t ht => by simp [ht]
    refine hts.laidOut (by simp) rfl ?_ hordered
    simpa [Node.children, Expr.children] using fun e he => (hargs e he).mono hsub
  | @group l r e d ts _ _ _ ih =>
    have hinner : (Node.expr e).LaidOut ts := ih hts.tail.left
    exact hinner.mono fun t ht => by simp [ht]
  | @conditional i t e p a b dp da db ps as bs _ _ _ _ _ _ ihp iha ihb =>
    have hrest := hts.tail.right.tail
    have hp : (Node.expr p).LaidOut ps := ihp hts.tail.left
    have ha : (Node.expr a).LaidOut as := iha hrest.left
    have hb : (Node.expr b).LaidOut bs := ihb hrest.right.tail
    have hpa := hts.tail.without.before hp (ha.mono (List.subset_append_left as (e :: bs)))
    have hpb := hts.tail.without.before hp (hb.mono fun t ht => by simp [ht])
    have hab := hrest.without.before ha hb
    refine hts.laidOut (by simp) rfl ?_ ?_
    · simp only [Node.children, Expr.children, List.map_cons, List.map_nil, List.forall_mem_cons]
      exact ⟨hp.mono fun t ht => by simp [ht], ha.mono fun t ht => by simp [ht],
        hb.mono fun t ht => by simp [ht], by simp⟩
    · simp [Node.children, Expr.children, hpa, hpb, hab]
  | lastOperand _ ih | lastConditional _ ih => exact .last (ih hts)
  | link _ _ _ _ ih ihs => exact .link (ih hts.left) (ihs hts.right.tail)
  | expression _ tree ih => exact tree.laidOut hts (ih hts)
  | noArgument => simp [Phrase.LaidOut]
  | lastArgument _ ih => simpa [Phrase.LaidOut] using ih hts
  | @nextArgument c e x es d d' ts us _ _ _ ih ihs =>
    have he : (Node.expr e).LaidOut ts := ih hts.left
    obtain ⟨hothers, hordered⟩ := ihs hts.right.tail
    refine ⟨?_, List.pairwise_cons.2 ⟨?_, hordered⟩⟩
    · rw [List.forall_mem_cons]
      exact ⟨he.mono fun t ht => by simp [ht],
        fun e' he' => (hothers e' he').mono fun t ht => by simp [ht]⟩
    · rw [List.forall_mem_map]
      exact fun e' he' => hts.without.before he (hothers e' he')

theorem DerivesPrototype.laidOut {p : Prototype} {ts : List Token} (h : DerivesPrototype p ts)
    (hts : InOrder ts) : (Node.prototype p).LaidOut ts := by
  cases h with
  | intro => exact hts.laidOut (by simp) rfl (by simp [Node.children]) (by simp [Node.children])

theorem DerivesStatement.laidOut {f : Function} {d : Nat} {ts : List Token}
    (h : DerivesStatement f d ts) (hts : InOrder ts) : (Node.function f).LaidOut ts := by
  have hne := h.ne_nil
  have hspan := h.span_eq
  cases h with
  | @definition k p e d ts us _ signature body =>
    have hp := signature.laidOut hts.tail.left
    have he : (Node.expr e).LaidOut us := body.laidOut hts.tail.right
    have hbefore := hts.tail.before hp he
    refine hts.laidOut hne hspan ?_ (by simpa [Node.children] using hbefore)
    simp only [Node.children, List.forall_mem_cons]
    exact ⟨hp.mono fun t ht => by simp [ht], he.mono fun t ht => by simp [ht], by simp⟩
  | @external k p ts _ signature =>
    have hp := signature.laidOut hts.tail
    refine hts.laidOut hne hspan ?_ (by simp [Node.children])
    simpa [Node.children] using hp.mono (List.subset_cons_self k ts)
  | anonymous body =>
    have he : (Node.expr _).LaidOut ts := body.laidOut hts
    exact hts.laidOut hne hspan (by simpa [Node.children] using he) (by simp [Node.children])

theorem Scanner.Spells.inOrder {s : Scanner} {ts : List Token} {failure : Option ScanError}
    (h : s.Spells ts failure) : InOrder ts := by
  have hplaces := (List.pairwise_append.1 h.increasing.2).1
  rwa [List.pairwise_map] at hplaces

namespace Parser

/-- How the functions lie in the source that the calls of a parser deliver. -/
structure LaysOut (p : Parser Scanner) : Prop where
  /-- Among the tokens that the very call has consumed. -/
  nodes : ∀ n f q, (p.after n).next = (.ok (some f), q) →
    (Node.function f).LaidOut q.reader.consumed.reverse
  walk : ∀ n f q, (p.after n).next = (.ok (some f), q) →
    (Node.function f).walk.Pairwise Node.NotBehind
  functions : ∀ m n, m < n → ∀ f q, (p.after m).next = (.ok (some f), q) →
    ∀ g q', (p.after n).next = (.ok (some g), q') → (Node.function f).Before (.function g)

theorem taken_eq_of_next {p q : Parser Scanner} {f : Function}
    (h : p.next = (.ok (some f), q)) : p.taken = q.reader.consumed.reverse := by
  obtain ⟨hnone, _⟩ := next_some h
  simp only [taken, hnone, h]

theorem Serves.inOrder {ts history : List Token} {failure : Option ScanError}
    {p : Parser Scanner} (h : Serves ts failure history p) (hts : InOrder ts) :
    InOrder history := by
  obtain ⟨rest, rfl⟩ := h.split
  exact hts.left

/-- What earlier calls have consumed comes first. -/
theorem Calls.exists_after {p : Parser Scanner} {m n : Nat} (h : m < n) :
    ∃ before between, Calls p before (p.after m) ∧
      Calls p (before ++ (p.after m).taken ++ between) (p.after n) := by
  obtain ⟨before, hbefore, _⟩ := calls_after p m
  refine ⟨before, ?_⟩
  induction n with
  | zero => omega
  | succ n ih =>
    rcases Nat.lt_succ_iff_lt_or_eq.1 h with hlt | rfl
    · obtain ⟨between, _, hcalls⟩ := ih hlt
      refine ⟨between ++ (p.after n).taken, hbefore, ?_⟩
      rw [← List.append_assoc]
      exact hcalls.next
    · refine ⟨[], hbefore, ?_⟩
      rw [List.append_nil]
      exact hbefore.next

/-- The functions that the calls of a parser deliver are laid out over the source, each among the
tokens of its own call. -/
theorem functions_laid_out (file : String) (bits : Int) (bytes : List UInt8) {s : Scanner}
    (hs : Scanner.start file bits bytes = .ok s) (maxDepth : Int) {p : Parser Scanner}
    (hp : start maxDepth s = .ok p) : LaysOut p := by
  obtain rfl := Scanner.eq_ofBytes_of_start hs
  obtain ⟨ts, failure, hyields⟩ := Scanner.exists_yields (Scanner.ofBytes file bits.toNat bytes)
  have hts := (hyields.spells rfl).inOrder
  obtain ⟨t, s₁, hpull, hstart⟩ := eq_of_start hp
  have hserves : Serves ts failure [] p := by
    subst hstart
    exact serves_of_faces (.of_yields hyields hpull) rfl
  have hnodes : ∀ n f q, (p.after n).next = (.ok (some f), q) →
      (Node.function f).LaidOut (p.after n).taken := by
    intro n f q hnext
    obtain ⟨_, _, _, _, _, d, _, hderives⟩ := next_some hnext
    obtain ⟨history, hcalls, _⟩ := calls_after p n
    have horder : InOrder (history ++ (p.after n).taken) :=
      (hserves.calls hcalls).next.inOrder hts
    exact hderives.laidOut horder.right
  refine ⟨fun n f q hnext => ?_, fun n f q hnext => (hnodes n f q hnext).walk_pairwise, ?_⟩
  · rw [← taken_eq_of_next hnext]
    exact hnodes n f q hnext
  · intro m n hmn f q hf g q' hg
    obtain ⟨before, between, _, hcalls⟩ := Calls.exists_after (p := p) hmn
    have horder := (hserves.calls hcalls).next.inOrder hts
    rw [List.append_assoc, List.append_assoc] at horder
    have hg' := (hnodes n g q' hg).mono (List.subset_append_right between _)
    exact horder.right.before (hnodes m f q hf) hg'

/-- A sum, the right operand of which is in parentheses. -/
theorem sum_laid_out :
    Scanner.start "f" 64 [0x31, 0x2b, 0x28, 0x32, 0x29] =
        .ok (Scanner.ofBytes "f" 64 [0x31, 0x2b, 0x28, 0x32, 0x29]) ∧
      ∃ p, start 3 (Scanner.ofBytes "f" 64 [0x31, 0x2b, 0x28, 0x32, 0x29]) = .ok p ∧
        (∃ f q, p.next = (.ok (some f), q)) ∧ LaysOut p := by
  have hs : Scanner.start "f" 64 [0x31, 0x2b, 0x28, 0x32, 0x29] =
    .ok (Scanner.ofBytes "f" 64 [0x31, 0x2b, 0x28, 0x32, 0x29]) := rfl
  obtain ⟨p, hp, hnext⟩ :
      ∃ p, start 3 (Scanner.ofBytes "f" 64 [0x31, 0x2b, 0x28, 0x32, 0x29]) = .ok p ∧
        ∃ f q, p.next = (.ok (some f), q) := ⟨_, rfl, _, _, rfl⟩
  exact ⟨hs, p, hp, hnext, functions_laid_out "f" 64 _ hs 3 hp⟩

end Parser
end ExprLang
