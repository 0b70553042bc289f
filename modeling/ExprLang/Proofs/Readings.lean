import ExprLang.Proofs.Derivation
import ExprLang.Traversal

/-!
# What the parts of a tree are read from

Parentheses around an expression leave no trace in its tree. Without them, the tokens of an
expression are those of the two sides of an operation with its operator between them, or the span of
the expression is over all of them and its parts are read from stretches of them. So every
expression in a tree is read from a stretch of the tokens that the tree is read from.
-/
namespace ExprLang

/-- The tokens `ts` read as the expression, and at most `limit` expressions are open at once. -/
def Expr.Reads (limit : Nat) (ts : List Token) (e : Expr) : Prop :=
  ∃ d ≤ limit, Derives (.expression e) d ts

def Expr.Grouped (limit : Nat) (ts : List Token) (e : Expr) : Prop :=
  ∃ l us r, ts = l :: (us ++ [r]) ∧ l.terminal = .leftParen ∧ r.terminal = .rightParen ∧
    e.Reads limit us

/-- `Bare limit e ts`: the tokens `ts` read as the expression `e` and are not in parentheses. -/
inductive Bare (limit : Nat) : Expr → List Token → Prop
  | operation {op : Operator} {o : Token} {a b : Expr} {us vs : List Token}
      (ho : o.terminal = .operator op) (left : a.Reads limit us) (right : b.Reads limit vs) :
      Bare limit (.binary op a b (Span.join a.span b.span)) (us ++ o :: vs)
  | whole {e : Expr} {t : Token} {ts : List Token} (ht : t.terminal ≠ .leftParen)
      (span_eq : e.span = Span.over (t :: ts))
      (no_operation : ∀ op a b span, e ≠ .binary op a b span)
      (parts : ∀ c ∈ e.children, ∃ us, us <:+: t :: ts ∧ c.Reads limit us) :
      Bare limit e (t :: ts)

section Derivations

variable {limit d : Nat} {e : Expr} {ts : List Token}

theorem Derives.split_chain {first x : Expr} {op : Operator} {left right : List (Operator × Expr)}
    (h : Derives (.chain first (left ++ (op, x) :: right)) d ts) :
    ∃ us o vs, ts = us ++ o :: vs ∧ o.terminal = .operator op ∧
      (∃ k ≤ d, Derives (.chain first left) k us) ∧ ∃ k ≤ d, Derives (.chain x right) k vs := by
  induction left generalizing first d ts with
  | nil =>
    cases h with
    | link ho _ first others =>
      exact ⟨_, _, _, rfl, ho, ⟨_, Nat.le_max_left _ _, .lastOperand first⟩,
        _, Nat.le_max_right _ _, others⟩
  | cons link left ih =>
    cases h with
    | @link o' _ _ _ _ d₁ d₂ ws _ ho' binary first others =>
      obtain ⟨us, o, vs, rfl, ho, ⟨k, hk, hleft⟩, l, hl, hright⟩ := ih others
      exact ⟨ws ++ o' :: us, o, vs, by simp, ho, ⟨_, by omega, .link ho' binary first hleft⟩, l,
        by omega, hright⟩

theorem Derives.reads_arguments {es : List Expr} (h : Derives (.arguments es) d ts) :
    ∀ e ∈ es, ∃ us, us <:+: ts ∧ e.Reads d us := by
  induction es generalizing d ts with
  | nil => simp
  | cons e es ih =>
    cases h with
    | lastArgument last => simpa using ⟨ts, List.infix_rfl, d, Nat.le_refl d, last⟩
    | @nextArgument c _ _ _ d₁ d₂ us vs _ next others =>
      refine List.forall_mem_cons.2 ⟨⟨us, ⟨[], c :: vs, rfl⟩, d₁, Nat.le_max_left _ _, next⟩, ?_⟩
      intro e' he'
      obtain ⟨ws, hws, k, hk, hreads⟩ := ih others e' he'
      have hstretch : vs <:+: us ++ c :: vs := ⟨us ++ [c], [], by simp⟩
      exact ⟨ws, hws.trans hstretch, k, Nat.le_trans hk (Nat.le_max_right _ _), hreads⟩

theorem Derives.bare_or_grouped (h : Derives (.operand e) d ts) (hd : d < limit) :
    Bare limit e ts ∨ e.Grouped limit ts := by
  cases h with
  | number ht | reference ht =>
    exact .inl (.whole (by simp [ht]) rfl (by simp) (by simp [Expr.children]))
  | @call t l r _ _ _ us ht _ _ args =>
    refine .inl (.whole (by simp [ht]) rfl (by simp) fun e he => ?_)
    obtain ⟨vs, hvs, k, hk, hreads⟩ := args.reads_arguments e he
    have hstretch : us <:+: t :: l :: (us ++ [r]) := ⟨[t, l], [r], rfl⟩
    exact ⟨vs, hvs.trans hstretch, k, Nat.le_of_lt (Nat.lt_of_le_of_lt hk hd), hreads⟩
  | group hl hr inner => exact .inr ⟨_, _, _, rfl, hl, hr, _, Nat.le_of_lt hd, inner⟩

theorem Derives.bare (h : Derives (.conditional e) d ts) (hd : d < limit) : Bare limit e ts := by
  cases h with
  | @conditional i t e p a b dp da db ps as bs hi _ _ predicate thenBranch elseBranch =>
    refine .whole (by simp [hi]) rfl (by simp) ?_
    simp only [Expr.children, List.forall_mem_cons]
    exact ⟨⟨ps, ⟨[i], t :: (as ++ e :: bs), rfl⟩, dp, by omega, predicate⟩,
      ⟨as, ⟨i :: (ps ++ [t]), e :: bs, by simp⟩, da, by omega, thenBranch⟩,
      ⟨bs, ⟨i :: (ps ++ t :: (as ++ [e])), [], by simp⟩, db, by omega, elseBranch⟩, by simp⟩

theorem Expr.Reads.bare_or_grouped (h : e.Reads limit ts) :
    Bare limit e ts ∨ e.Grouped limit ts := by
  obtain ⟨_, hd, h⟩ := h
  cases h with
  | expression chain tree =>
    cases tree with
    | operand =>
      cases chain with
      | lastOperand operand => exact operand.bare_or_grouped hd
      | lastConditional conditional => exact .inl (conditional.bare hd)
    | split before after =>
      obtain ⟨us, o, vs, rfl, ho, ⟨k, hk, hleft⟩, l, hl, hright⟩ := chain.split_chain
      exact .inl (.operation ho ⟨k + 1, by omega, .expression hleft before⟩
        ⟨l + 1, by omega, .expression hright after⟩)

theorem Bare.parts (h : Bare limit e ts) :
    ∀ c ∈ e.children, ∃ us, us <:+: ts ∧ c.Reads limit us := by
  cases h with
  | @operation op o a b us vs _ left right =>
    simp only [Expr.children, List.forall_mem_cons]
    exact ⟨⟨us, ⟨[], o :: vs, rfl⟩, left⟩, ⟨vs, ⟨us ++ [o], [], by simp⟩, right⟩, by simp⟩
  | whole _ _ _ parts => exact parts

/-- A stretch of the tokens `ts` reads as the expression, and no parentheses are around it. -/
def Expr.StandsBare (limit : Nat) (ts : List Token) (e : Expr) : Prop :=
  ∃ us, us <:+: ts ∧ e.Reads limit us ∧ Bare limit e us

theorem Expr.StandsBare.mono {us : List Token} (h : e.StandsBare limit us) (hstretch : us <:+: ts) :
    e.StandsBare limit ts :=
  h.imp fun _ hvs => ⟨hvs.1.trans hstretch, hvs.2⟩

theorem Expr.Reads.standsBare {ts : List Token} (h : e.Reads limit ts) :
    e.StandsBare limit ts := by
  rcases h.bare_or_grouped with hbare | ⟨l, us, r, rfl, _, _, hinner⟩
  · exact ⟨ts, List.infix_rfl, h, hbare⟩
  · exact (standsBare hinner).mono ⟨[l], [r], rfl⟩
termination_by ts.length

/-- So does every expression below it. -/
theorem Expr.Reads.standsBare_of_mem_walk (h : e.Reads limit ts) :
    ∀ m : Expr, .expr m ∈ (Node.expr e).walk → m.StandsBare limit ts := by
  generalize hn : Node.expr e = n
  induction n using Node.induction_on_children generalizing e ts with
  | h n ih =>
  subst hn
  intro m hm
  rw [Node.walk_eq_cons, List.mem_cons] at hm
  rcases hm with hm | hm
  · obtain rfl := Node.expr.inj hm
    exact h.standsBare
  · obtain ⟨c, hc, hm⟩ := List.mem_flatMap.1 hm
    obtain ⟨x, hx, rfl⟩ := List.mem_map.1 hc
    obtain ⟨us, hus, _, hbare⟩ := h.standsBare
    obtain ⟨vs, hvs, hreads⟩ := hbare.parts x hx
    exact (ih _ hc hreads rfl m hm).mono (hvs.trans hus)

theorem DerivesStatement.standsBare {f : Function} (h : DerivesStatement f d ts) (hd : d ≤ limit) :
    ∀ m : Expr, .expr m ∈ (Node.function f).walk → m.StandsBare limit ts := by
  intro m hm
  cases h with
  | @definition k p body d ts us _ _ hbody =>
    have hm : .expr m ∈ (Node.expr body).walk := by simpa [Node.walk] using hm
    have hreads : body.Reads limit us := ⟨d, hd, hbody⟩
    exact (hreads.standsBare_of_mem_walk m hm).mono ⟨k :: ts, [], by simp⟩
  | external => simp [Node.walk] at hm
  | @anonymous body d ts hbody =>
    have hm : .expr m ∈ (Node.expr body).walk := by simpa [Node.walk] using hm
    have hreads : body.Reads limit ts := ⟨d, hd, hbody⟩
    exact hreads.standsBare_of_mem_walk m hm

end Derivations
end ExprLang
