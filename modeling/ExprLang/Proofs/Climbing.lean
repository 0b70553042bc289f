import ExprLang.Proofs.Consumption
import ExprLang.Proofs.Derivation

/-!
# Precedence climbing

What the loops over operators do, for any way of reading operands. The operations they take are
a stretch of the chain in front of the reader; the tree they build is the tree of the whole
chain, because a loop goes on at an operator only if that operator binds no more tightly than
all those it has folded so far. Where no operator follows a chain, the loops take all of it.
-/
namespace ExprLang.Reader

variable {σ : Type} {rounds least : Nat} {op ahead : Operator} {lhs rhs e : Expr}
  {r r' : Reader σ}

/-- A tail ends at an operator below its bound, is stopped by a reserved one, or folds. -/
theorem tail_cases (least : Nat) (r : Reader σ) :
    (∀ op, r.lookahead.operator? = some op → op.precedence < least) ∨
      ∃ op, r.lookahead.operator? = some op ∧ least ≤ op.precedence ∧
        (op.isBinary = false ∨ op.isBinary = true) := by
  cases hop : r.lookahead.operator? with
  | none => exact .inl (by simp)
  | some op =>
    by_cases hlow : op.precedence < least
    · exact .inl (by simpa using hlow)
    · exact .inr ⟨op, rfl, by omega, by cases op.isBinary <;> simp⟩

/-- A right operand is complete, or the operator ahead binds more tightly than the one before
it. -/
theorem tighten_cases (op : Operator) (r : Reader σ) :
    (∀ ahead, r.lookahead.operator? = some ahead → ahead.isBinary = true → ahead ≤ op) ∨
      ∃ ahead, r.lookahead.operator? = some ahead ∧ ahead.isBinary = true ∧ op < ahead := by
  cases hop : r.lookahead.operator? with
  | none => exact .inl (by simp)
  | some ahead =>
    by_cases hgo : ahead.isBinary = true ∧ op < ahead
    · exact .inr ⟨ahead, rfl, hgo⟩
    · refine .inl fun ahead' heq hbinary => ?_
      obtain rfl := Option.some.inj heq
      exact Nat.not_lt.1 fun hlt => hgo ⟨hbinary, hlt⟩

/-- No binary operator ahead binds more tightly than those in `done`. -/
def LoosestAhead (r : Reader σ) (done : List (Operator × Expr)) : Prop :=
  ∀ op, r.lookahead.operator? = some op → op.isBinary = true → ∀ link ∈ done, op ≤ link.1

/-- A folded operation leaves nothing ahead that binds more tightly than what is done. -/
theorem loosestAhead_fold {done right : List (Operator × Expr)} {x : Expr}
    (hloosest : ∀ link ∈ done, op ≤ link.1) (hright : ∀ link ∈ right, op < link.1)
    (hstop : ∀ ahead, r.lookahead.operator? = some ahead → ahead.isBinary = true → ahead ≤ op) :
    LoosestAhead r (done ++ (op, x) :: right) := by
  intro ahead hop binary link hlink
  have hle := hstop ahead hop binary
  rcases List.mem_append.1 hlink with hdone | hnew
  · exact Nat.le_trans hle (hloosest link hdone)
  · rcases List.mem_cons.1 hnew with rfl | hmem
    · exact hle
    · exact Nat.le_trans hle (Nat.le_of_lt (hright link hmem))

variable [TokenSource σ] {operand : Reading σ Expr}

theorem operatorTail_stop (h : ∀ op, r.lookahead.operator? = some op → op.precedence < least) :
    operatorTail operand (rounds + 1) lhs least r = .ok lhs r := by
  rw [operatorTail, bind_apply, peek_apply]
  cases hop : r.lookahead.operator? with
  | none => simp [hop, pure_apply]
  | some op => simp [hop, pure_apply, h op hop]

theorem operatorTail_reserved (hop : r.lookahead.operator? = some op)
    (hleast : least ≤ op.precedence) (reserved : op.isBinary = false) :
    operatorTail operand (rounds + 1) lhs least r =
      fail (.unexpectedToken (.phrase "binary operator")) r := by
  rw [operatorTail, bind_apply, peek_apply]
  simp [hop, Nat.not_lt.2 hleast, reserved]

theorem operatorTail_fold (hop : r.lookahead.operator? = some op)
    (hleast : least ≤ op.precedence) (binary : op.isBinary = true) :
    operatorTail operand (rounds + 1) lhs least r =
      (advance >>= fun _ => operand >>= fun x => tighten operand rounds op x >>= fun rhs =>
        operatorTail operand rounds (.binary op lhs rhs (Span.join lhs.span rhs.span)) least)
        r := by
  rw [operatorTail, bind_apply, peek_apply]
  simp [hop, Nat.not_lt.2 hleast, binary]

theorem tighten_stop
    (h : ∀ ahead, r.lookahead.operator? = some ahead → ahead.isBinary = true → ahead ≤ op) :
    tighten operand (rounds + 1) op rhs r = .ok rhs r := by
  rw [tighten, bind_apply, binaryOperatorAhead, bind_apply, peek_apply]
  cases hop : r.lookahead.operator? with
  | none => simp [hop, pure_apply]
  | some ahead =>
    cases binary : ahead.isBinary with
    | false => simp [hop, Option.filter, binary, pure_apply]
    | true =>
      have hle : ¬ op < ahead := Nat.not_lt.2 (h ahead hop binary)
      simp [hop, Option.filter, binary, pure_apply, hle]

theorem tighten_go (hop : r.lookahead.operator? = some ahead) (binary : ahead.isBinary = true)
    (hlt : op < ahead) : tighten operand (rounds + 1) op rhs r =
      (operatorTail operand rounds rhs (op.precedence + 1) >>= fun x =>
        tighten operand rounds op x) r := by
  rw [tighten, bind_apply, binaryOperatorAhead, bind_apply, peek_apply]
  simp [hop, Option.filter, binary, pure_apply, hlt]

/-- `Links operand r rest r'`: the operations `rest`, each a binary operator and an operand, lie
between `r` and `r'`. -/
inductive Links (operand : Reading σ Expr) :
    Reader σ → List (Operator × Expr) → Reader σ → Prop
  | nil (r : Reader σ) : Links operand r [] r
  | cons {r r₁ r₂ r' : Reader σ} {o : Token} {op : Operator} {x : Expr}
      {rest : List (Operator × Expr)} (hop : r.lookahead.operator? = some op)
      (binary : op.isBinary = true) (first : advance r = .ok o r₁)
      (second : operand r₁ = .ok x r₂) (others : Links operand r₂ rest r') :
      Links operand r ((op, x) :: rest) r'

namespace Links

variable {r₁ r₂ : Reader σ} {rest rest' : List (Operator × Expr)}

theorem trans (h : Links operand r rest r₁) (g : Links operand r₁ rest' r') :
    Links operand r (rest ++ rest') r' := by
  induction h with
  | nil => exact g
  | cons hop binary first second _ ih => exact .cons hop binary first second (ih g)

/-- Two stretches from the same place agree as far as both go. -/
theorem split (h : Links operand r rest r') (hend : r'.lookahead.operator? = none)
    (g : Links operand r rest' r₁) :
    ∃ others, rest = rest' ++ others ∧ Links operand r₁ others r' := by
  induction g generalizing rest with
  | nil => exact ⟨rest, rfl, h⟩
  | cons hop _ first second _ ih =>
    cases h with
    | nil => simp [hend] at hop
    | cons hop' _ first' second' others' =>
      rw [hop, Option.some.injEq] at hop'
      rw [first, EStateM.Result.ok.injEq] at first'
      obtain ⟨rfl, rfl⟩ := first'
      rw [second, EStateM.Result.ok.injEq] at second'
      obtain ⟨rfl, rfl⟩ := second'
      obtain ⟨others, rfl, hothers⟩ := ih others'
      exact ⟨others, by rw [hop', List.cons_append], hothers⟩

theorem unique (h : Links operand r rest r') (hend : r'.lookahead.operator? = none)
    (g : Links operand r rest' r₁) (gend : r₁.lookahead.operator? = none) :
    rest = rest' ∧ r' = r₁ := by
  obtain ⟨others, rfl, hothers⟩ := h.split hend g
  cases hothers with
  | nil => simp
  | cons hop => simp [gend] at hop

end Links

/-- A tail extends the tree of a chain by operations that its bound allows, up to a place where
no more of them follows. -/
def TailExtends (operand : Reading σ Expr) (rounds : Nat) : Prop :=
  ∀ first done lhs least e (r r' : Reader σ), r.remaining ≤ rounds →
    ChainTree first done lhs → LoosestAhead r done →
    operatorTail operand rounds lhs least r = .ok e r' →
    ∃ rest, Links operand r rest r' ∧ ChainTree first (done ++ rest) e ∧
      (∀ link ∈ rest, least ≤ link.1.precedence) ∧
      ∀ op, r'.lookahead.operator? = some op → op.precedence < least

def TightenExtends (operand : Reading σ Expr) (rounds : Nat) : Prop :=
  ∀ first done rhs op e (r r' : Reader σ), r.remaining < rounds →
    ChainTree first done rhs → LoosestAhead r done → (∀ link ∈ done, op < link.1) →
    tighten operand rounds op rhs r = .ok e r' →
    ∃ rest, Links operand r rest r' ∧ ChainTree first (done ++ rest) e ∧
      (∀ link ∈ done ++ rest, op < link.1) ∧
      ∀ ahead, r'.lookahead.operator? = some ahead → ahead.isBinary = true → ahead ≤ op

theorem tailExtends_succ (h : Shrinks operand) (htail : TailExtends operand rounds)
    (htighten : TightenExtends operand rounds) : TailExtends operand (rounds + 1) := by
  intro first done lhs least e r r' hr htree hloosest hok
  rcases tail_cases least r with hstop | ⟨op, hop, hleast, reserved | binary⟩
  · rw [operatorTail_stop hstop, EStateM.Result.ok.injEq] at hok
    obtain ⟨rfl, rfl⟩ := hok
    exact ⟨[], .nil r, by simpa using htree, by simp, hstop⟩
  · rw [operatorTail_reserved hop hleast reserved] at hok
    exact absurd hok fail_ne_ok
  · simp only [operatorTail_fold hop hleast binary, bind_eq_ok] at hok
    obtain ⟨o, r₁, h₁, x, r₂, h₂, b, r₃, h₃, hok⟩ := hok
    have hlt₁ := remaining_advance h₁ (isEnd_of_operator? hop)
    have hlt₂ := h _ _ _ h₂
    obtain ⟨right, hlinks, hb, hright, hstop⟩ := htighten x [] x op b r₂ r₃ (by omega)
      (.operand x) (by simp [LoosestAhead]) (by simp) h₃
    have hle₃ := (keeps_operatorTail_tighten h.keeps rounds).2 _ _ _ _ _ h₃
    have htree' := ChainTree.split htree hb (hloosest op hop binary) hright
    have hloosest' : LoosestAhead r₃ (done ++ (op, x) :: right) :=
      loosestAhead_fold (hloosest op hop binary) hright hstop
    obtain ⟨rest, hlinks', he, hrest, hend⟩ := htail first _ _ least e r₃ r' (by omega)
      htree' hloosest' hok
    refine ⟨(op, x) :: (right ++ rest), .cons hop binary h₁ h₂ (hlinks.trans hlinks'),
      by simpa using he, ?_, hend⟩
    intro link hlink
    simp only [List.mem_cons, List.mem_append] at hlink
    rcases hlink with rfl | hlink | hlink
    · exact hleast
    · exact Nat.le_trans hleast (Nat.le_of_lt (hright link hlink))
    · exact hrest link hlink

theorem tightenExtends_succ (h : Shrinks operand) (htail : TailExtends operand rounds)
    (htighten : TightenExtends operand rounds) : TightenExtends operand (rounds + 1) := by
  intro first done rhs op e r r' hr htree hloosest hdone hok
  rcases tighten_cases op r with hstop | ⟨ahead, hop, binary, hlt⟩
  · rw [tighten_stop hstop, EStateM.Result.ok.injEq] at hok
    obtain ⟨rfl, rfl⟩ := hok
    exact ⟨[], .nil r, by simpa using htree, by simpa using hdone, hstop⟩
  · simp only [tighten_go hop binary hlt, bind_eq_ok] at hok
    obtain ⟨x, r₁, h₁, hok⟩ := hok
    have hpos : 0 < r.remaining := by simp [remaining, isEnd_of_operator? hop]
    have hlt₁ := remaining_operatorTail h.keeps (by omega) hop hlt binary h₁
    obtain ⟨mid, hlinks, hx, hmid, hstop⟩ := htail first done rhs (op.precedence + 1) x r r₁
      (by omega) htree hloosest h₁
    have hdone' : ∀ link ∈ done ++ mid, op < link.1 := by
      intro link hlink
      rcases List.mem_append.1 hlink with hlink | hlink
      · exact hdone link hlink
      · exact hmid link hlink
    have hloosest' : LoosestAhead r₁ (done ++ mid) := by
      intro op' hop' _ link hlink
      have hlow := hstop op' hop'
      have hhigh : op.precedence < link.1.precedence := hdone' link hlink
      rw [Operator.le_iff]
      omega
    obtain ⟨rest, hlinks', he, hrest, hend⟩ := htighten first (done ++ mid) x op e r₁ r'
      (by omega) hx hloosest' hdone' hok
    exact ⟨mid ++ rest, hlinks.trans hlinks', by simpa using he, by simpa using hrest, hend⟩

/-- The loops extend the tree of a chain by the operations that they take. -/
theorem operatorTail_tighten_extend (h : Shrinks operand) (rounds : Nat) :
    TailExtends operand rounds ∧ TightenExtends operand rounds := by
  -- both loops at once, since each runs the other with one round less
  induction rounds with
  | zero =>
    refine ⟨fun first done lhs least e r r' hr htree _ hok => ?_, fun _ _ _ _ _ r _ hr => by omega⟩
    have hnone := operator?_eq_none (r := r) (by omega)
    rw [operatorTail_zero _ _ _ _ (by omega), EStateM.Result.ok.injEq] at hok
    obtain ⟨rfl, rfl⟩ := hok
    exact ⟨[], .nil r, by simpa using htree, by simp, by simp [hnone]⟩
  | succ rounds ih => exact ⟨tailExtends_succ h ih.1 ih.2, tightenExtends_succ h ih.1 ih.2⟩

/-- A whole tail takes operations up to a token that is no operator, and gives their tree. -/
theorem links_of_operatorTail (h : Shrinks operand) {rounds : Nat} (hr : r.remaining ≤ rounds)
    (hok : operatorTail operand rounds lhs 0 r = .ok e r') :
    ∃ rest, Links operand r rest r' ∧ ChainTree lhs rest e ∧ r'.lookahead.operator? = none := by
  obtain ⟨rest, hlinks, htree, _, hend⟩ := (operatorTail_tighten_extend h rounds).1 lhs [] lhs 0
    e r r' hr (.operand lhs) (by simp [LoosestAhead]) hok
  refine ⟨rest, hlinks, htree, ?_⟩
  cases hop : r'.lookahead.operator? with
  | none => rfl
  | some op => exact absurd (hend op hop) (Nat.not_lt_zero _)

/-- Along a chain that no operator follows, the loops do not fail. -/
theorem operatorTail_tighten_of_links (h : Shrinks operand) (rounds : Nat) :
    (∀ lhs least rest (r r' : Reader σ), r.remaining ≤ rounds → Links operand r rest r' →
      r'.lookahead.operator? = none →
      ∃ e r₁, operatorTail operand rounds lhs least r = .ok e r₁) ∧
    ∀ rhs op rest (r r' : Reader σ), r.remaining < rounds → Links operand r rest r' →
      r'.lookahead.operator? = none → ∃ e r₁, tighten operand rounds op rhs r = .ok e r₁ := by
  induction rounds with
  | zero =>
    refine ⟨fun lhs least rest r r' hr _ _ => ?_, fun _ _ _ r _ hr => by omega⟩
    exact ⟨lhs, r, operatorTail_zero _ _ _ _ (by omega)⟩
  | succ rounds ih =>
    constructor
    · intro lhs least rest r r' hr hlinks hend
      cases hlinks with
      | nil => exact ⟨lhs, r, operatorTail_stop (by simp [hend])⟩
      | @cons _ r₁ r₂ _ o op x rest hop binary first second others =>
        by_cases hlow : op.precedence < least
        · exact ⟨lhs, r, operatorTail_stop (by simpa [hop] using hlow)⟩
        have hlt₁ := remaining_advance first (isEnd_of_operator? hop)
        have hlt₂ := h _ _ _ second
        obtain ⟨b, r₃, h₃⟩ := ih.2 x op rest r₂ r' (by omega) others hend
        have hle₃ := (keeps_operatorTail_tighten h.keeps rounds).2 _ _ _ _ _ h₃
        obtain ⟨right, hright, _⟩ := (operatorTail_tighten_extend h rounds).2 x [] x op b r₂ r₃
          (by omega) (.operand x) (by simp [LoosestAhead]) (by simp) h₃
        -- what the inner loop took is a stretch of the chain, and the outer one goes on behind it
        obtain ⟨others', _, hothers⟩ := others.split hend hright
        obtain ⟨e, r₄, h₄⟩ := ih.1 (.binary op lhs b (Span.join lhs.span b.span)) least others'
          r₃ r' (by omega) hothers hend
        refine ⟨e, r₄, ?_⟩
        rw [operatorTail_fold hop (by omega) binary]
        simp only [bind_eq_ok]
        exact ⟨o, r₁, first, x, r₂, second, b, r₃, h₃, h₄⟩
    · intro rhs op rest r r' hr hlinks hend
      rcases tighten_cases op r with hstop | ⟨ahead, hop, binary, hlt⟩
      · exact ⟨rhs, r, tighten_stop hstop⟩
      have hpos : 0 < r.remaining := by simp [remaining, isEnd_of_operator? hop]
      obtain ⟨x, r₁, h₁⟩ := ih.1 rhs (op.precedence + 1) rest r r' (by omega) hlinks hend
      have hlt₁ := remaining_operatorTail h.keeps (by omega) hop hlt binary h₁
      have hlooser : LoosestAhead r [] := by simp [LoosestAhead]
      obtain ⟨mid, hmid, _⟩ := (operatorTail_tighten_extend h rounds).1 rhs [] rhs _ x r r₁
        (by omega) (.operand rhs) hlooser h₁
      obtain ⟨others, _, hothers⟩ := hlinks.split hend hmid
      obtain ⟨e, r₂, h₂⟩ := ih.2 x op others r₁ r' (by omega) hothers hend
      refine ⟨e, r₂, ?_⟩
      rw [tighten_go hop binary hlt, bind_eq_ok]
      exact ⟨x, r₁, h₁, h₂⟩

/-- A tail in front of a chain that no operator follows gives the tree of the chain. -/
theorem operatorTail_of_links (h : Shrinks operand) {rounds : Nat}
    {rest : List (Operator × Expr)} (hr : r.remaining ≤ rounds) (hlinks : Links operand r rest r')
    (hend : r'.lookahead.operator? = none) (htree : ChainTree lhs rest e) :
    operatorTail operand rounds lhs 0 r = .ok e r' := by
  obtain ⟨e', r₁, hok⟩ := (operatorTail_tighten_of_links h rounds).1 lhs 0 rest r r' hr hlinks hend
  obtain ⟨rest', hlinks', htree', hend'⟩ := links_of_operatorTail h hr hok
  obtain ⟨rfl, rfl⟩ := hlinks.unique hend hlinks' hend'
  rw [hok, htree.unique htree']

/-- `Breaks operand r failure r'`: somewhere in the chain behind `r` the next operation fails,
because its operator is reserved or because the operator or its operand cannot be read. -/
inductive Breaks (operand : Reading σ Expr) : Reader σ → Failure → Reader σ → Prop
  | reserved {r r' : Reader σ} {op : Operator} {failure : Failure}
      (hop : r.lookahead.operator? = some op) (reserved : op.isBinary = false)
      (h : (fail (.unexpectedToken (.phrase "binary operator")) : Reading σ Expr) r =
        .error failure r') : Breaks operand r failure r'
  | next {r r' : Reader σ} {op : Operator} {failure : Failure}
      (hop : r.lookahead.operator? = some op) (binary : op.isBinary = true)
      (h : (advance >>= fun _ => operand) r = .error failure r') : Breaks operand r failure r'
  | later {r r₁ r₂ r' : Reader σ} {o : Token} {op : Operator} {x : Expr} {failure : Failure}
      (hop : r.lookahead.operator? = some op) (binary : op.isBinary = true)
      (first : advance r = .ok o r₁) (second : operand r₁ = .ok x r₂)
      (others : Breaks operand r₂ failure r') : Breaks operand r failure r'

namespace Breaks

variable {r₁ r'' : Reader σ} {rest : List (Operator × Expr)} {failure failure' : Failure}

theorem of_links (h : Breaks operand r₁ failure r') (hlinks : Links operand r rest r₁) :
    Breaks operand r failure r' := by
  induction hlinks with
  | nil => exact h
  | cons hop binary first second _ ih => exact .later hop binary first second (ih h)

theorem behind {r₂ : Reader σ} {o : Token} {x : Expr} (h : Breaks operand r failure r')
    (hop : r.lookahead.operator? = some op) (binary : op.isBinary = true)
    (first : advance r = .ok o r₁) (second : operand r₁ = .ok x r₂) :
    Breaks operand r₂ failure r' := by
  cases h with
  | reserved hop' reserved => simp_all
  | next _ _ h => simp [bind_apply, first, second] at h
  | later _ _ first' second' others =>
    rw [first, EStateM.Result.ok.injEq] at first'
    obtain ⟨rfl, rfl⟩ := first'
    rw [second, EStateM.Result.ok.injEq] at second'
    obtain ⟨rfl, rfl⟩ := second'
    exact others

theorem unique (h : Breaks operand r failure r') (g : Breaks operand r failure' r'') :
    failure = failure' ∧ r' = r'' := by
  induction h with
  | reserved hop reserved h => cases g <;> simp_all
  | next hop binary h => cases g <;> simp_all [bind_apply]
  | later hop binary first second _ ih => exact ih (g.behind hop binary first second)

theorem not_links (h : Breaks operand r failure r') (hlinks : Links operand r rest r₁) :
    r₁.lookahead.operator? ≠ none := by
  induction hlinks with
  | nil => cases h <;> simp_all
  | cons hop binary first second _ ih => exact ih (h.behind hop binary first second)

end Breaks

/-- The loops fail only where the chain breaks. -/
theorem breaks_of_operatorTail_tighten (h : Shrinks operand) (rounds : Nat) :
    (∀ lhs least (r r' : Reader σ) e, r.remaining ≤ rounds →
      operatorTail operand rounds lhs least r = .error e r' → Breaks operand r e r') ∧
    ∀ rhs op (r r' : Reader σ) e, r.remaining < rounds →
      tighten operand rounds op rhs r = .error e r' → Breaks operand r e r' := by
  induction rounds with
  | zero =>
    exact ⟨fun _ _ _ _ _ _ herror => absurd herror pure_ne_error, fun _ _ r _ _ hr => by omega⟩
  | succ rounds ih =>
    constructor
    · intro lhs least r r' e hr herror
      rcases tail_cases least r with hstop | ⟨op, hop, hleast, reserved | binary⟩
      · rw [operatorTail_stop hstop] at herror
        contradiction
      · rw [operatorTail_reserved hop hleast reserved] at herror
        exact .reserved hop reserved herror
      simp only [operatorTail_fold hop hleast binary, bind_eq_error] at herror
      rcases herror with hadvance | ⟨o, r₁, hadvance, hoperand | ⟨x, r₂, hoperand, herror⟩⟩
      · exact .next hop binary (bind_eq_error.2 (.inl hadvance))
      · exact .next hop binary (bind_eq_error.2 (.inr ⟨o, r₁, hadvance, hoperand⟩))
      have hlt₁ := remaining_advance hadvance (isEnd_of_operator? hop)
      have hlt₂ := h _ _ _ hoperand
      refine .later hop binary hadvance hoperand ?_
      rcases herror with htighten | ⟨b, r₃, htighten, htail⟩
      · exact ih.2 _ _ _ _ _ (by omega) htighten
      have hle₃ := (keeps_operatorTail_tighten h.keeps rounds).2 _ _ _ _ _ htighten
      obtain ⟨right, hlinks, _⟩ := (operatorTail_tighten_extend h rounds).2 x [] x op b r₂ r₃
        (by omega) (.operand x) (by simp [LoosestAhead]) (by simp) htighten
      exact (ih.1 _ _ _ _ _ (by omega) htail).of_links hlinks
    · intro rhs op r r' e hr herror
      rcases tighten_cases op r with hstop | ⟨ahead, hop, binary, hlt⟩
      · rw [tighten_stop hstop] at herror
        contradiction
      simp only [tighten_go hop binary hlt, bind_eq_error] at herror
      rcases herror with htail | ⟨x, r₁, htail, htighten⟩
      · exact ih.1 _ _ _ _ _ (by omega) htail
      have hpos : 0 < r.remaining := by simp [remaining, isEnd_of_operator? hop]
      have hlt₁ := remaining_operatorTail h.keeps (by omega) hop hlt binary htail
      obtain ⟨mid, hlinks, _⟩ := (operatorTail_tighten_extend h rounds).1 rhs [] rhs _ x r r₁
        (by omega) (.operand rhs) (by simp [LoosestAhead]) htail
      exact (ih.2 _ _ _ _ _ (by omega) htighten).of_links hlinks

/-- A whole tail fails where its chain breaks. -/
theorem operatorTail_of_breaks (h : Shrinks operand) {rounds : Nat} {failure : Failure}
    (hr : r.remaining ≤ rounds) (hbreaks : Breaks operand r failure r') :
    operatorTail operand rounds lhs 0 r = .error failure r' := by
  cases hresult : operatorTail operand rounds lhs 0 r with
  | ok e r₁ =>
    obtain ⟨_, hlinks, _, hend⟩ := links_of_operatorTail h hr hresult
    exact absurd hend (hbreaks.not_links hlinks)
  | error e r₁ =>
    obtain ⟨rfl, rfl⟩ :=
      ((breaks_of_operatorTail_tighten h rounds).1 _ _ _ _ _ hr hresult).unique hbreaks
    rfl

end ExprLang.Reader
