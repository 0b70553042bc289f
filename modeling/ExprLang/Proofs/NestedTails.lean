import ExprLang.Proofs.Soundness
import Mathlib.Logic.Relation

/-!
# Nested tails

The two loops over operators and the calls of the outer one inside the inner one, step by step, with
the calls under way on a stack and no bound on the number of rounds. The steps come to an end and to
the answer of the loops. Each round of the outer loop consumes an operator and an operand. The inner
loop calls the outer one at most once for an operator, since that call leaves nothing ahead that
binds more tightly; and a call inside another one has a larger bound, so at most three are under way
at once.
-/
namespace ExprLang.Reader

variable {σ : Type}

/-- A call that waits for a call inside it, begun at `entry` to extend the right operand of `op`.
`bodies` counts the calls inside it for this `op`. -/
structure Waiting (σ : Type) where
  least : Nat
  lhs : Expr
  op : Operator
  bodies : Nat
  entry : Reader σ

/-- Where the innermost call stands: in front of a round, with what it has folded so far, or in
front of the inner loop that tightens the right operand of `op`. -/
inductive Head
  | folding (least : Nat) (lhs : Expr)
  | tightening (least : Nat) (lhs : Expr) (op : Operator) (rhs : Expr) (bodies : Nat)

def Head.least : Head → Nat
  | folding least _ => least
  | tightening least _ _ _ _ => least

def Head.bodies : Head → Nat
  | folding _ _ => 0
  | tightening _ _ _ _ bodies => bodies

structure Tails (σ : Type) where
  head : Head
  waiting : List (Waiting σ)
  reader : Reader σ

/-- The bounds of the calls under way, the outermost first. -/
def Tails.bounds (s : Tails σ) : List Nat :=
  (s.waiting.map Waiting.least).reverse ++ [s.head.least]

def Below (least : Nat) (r : Reader σ) : Prop :=
  ∀ op, r.lookahead.operator? = some op → op.precedence < least

def NoneTighter (op : Operator) (r : Reader σ) : Prop :=
  ∀ ahead, r.lookahead.operator? = some ahead → ahead.isBinary = true → ahead ≤ op

theorem noneTighter_of_below {op : Operator} {r : Reader σ} (h : Below (op.precedence + 1) r) :
    NoneTighter op r :=
  fun ahead hop _ => Nat.le_of_lt_succ (h ahead hop)

/-- A call takes an operator and an operand, makes a call inside it, folds an operation, or goes
back to the call around it. -/
inductive Move
  | take
  | enter
  | fold
  | leave
  deriving DecidableEq, Repr

variable [TokenSource σ]

inductive Step (operand : Reading σ Expr) : Tails σ → Move → Tails σ → Prop
  | take {least : Nat} {lhs x : Expr} {op : Operator} {o : Token} {ws : List (Waiting σ)}
      {r r₁ r₂ : Reader σ} (hop : r.lookahead.operator? = some op) (hleast : least ≤ op.precedence)
      (binary : op.isBinary = true) (first : advance r = .ok o r₁)
      (second : operand r₁ = .ok x r₂) :
      Step operand ⟨.folding least lhs, ws, r⟩ .take ⟨.tightening least lhs op x 0, ws, r₂⟩
  | enter {least bodies : Nat} {lhs rhs : Expr} {op ahead : Operator} {ws : List (Waiting σ)}
      {r : Reader σ} (hop : r.lookahead.operator? = some ahead) (binary : ahead.isBinary = true)
      (hlt : op < ahead) :
      Step operand ⟨.tightening least lhs op rhs bodies, ws, r⟩ .enter
        ⟨.folding (op.precedence + 1) rhs, ⟨least, lhs, op, bodies + 1, r⟩ :: ws, r⟩
  | fold {least bodies : Nat} {lhs rhs : Expr} {op : Operator} {ws : List (Waiting σ)}
      {r : Reader σ} (hstop : NoneTighter op r) :
      Step operand ⟨.tightening least lhs op rhs bodies, ws, r⟩ .fold
        ⟨.folding least (.binary op lhs rhs (Span.join lhs.span rhs.span)), ws, r⟩
  | leave {least : Nat} {lhs : Expr} {w : Waiting σ} {ws : List (Waiting σ)} {r : Reader σ}
      (hstop : Below least r) :
      Step operand ⟨.folding least lhs, w :: ws, r⟩ .leave
        ⟨.tightening w.least w.lhs w.op lhs w.bodies, ws, r⟩

/-- `Ends operand s result`: the calls under way end with `result`, because the only one returns or
because an operator is reserved or an operation cannot be read. -/
inductive Ends (operand : Reading σ Expr) :
    Tails σ → EStateM.Result Failure (Reader σ) Expr → Prop
  | returns {least : Nat} {lhs : Expr} {r : Reader σ} (hstop : Below least r) :
      Ends operand ⟨.folding least lhs, [], r⟩ (.ok lhs r)
  | reserved {least : Nat} {lhs : Expr} {op : Operator} {ws : List (Waiting σ)} {r : Reader σ}
      (hop : r.lookahead.operator? = some op) (hleast : least ≤ op.precedence)
      (reserved : op.isBinary = false) :
      Ends operand ⟨.folding least lhs, ws, r⟩
        ((fail (.unexpectedToken (.phrase "binary operator")) : Reading σ Expr) r)
  | breaks {least : Nat} {lhs : Expr} {op : Operator} {ws : List (Waiting σ)} {r r' : Reader σ}
      {e : Failure} (hop : r.lookahead.operator? = some op) (hleast : least ≤ op.precedence)
      (binary : op.isBinary = true) (h : (advance >>= fun _ => operand) r = .error e r') :
      Ends operand ⟨.folding least lhs, ws, r⟩ (.error e r')

def Steps (operand : Reading σ Expr) (s s' : Tails σ) : Prop :=
  Relation.ReflTransGen (fun s s' => ∃ m, Step operand s m s') s s'

def Runs (operand : Reading σ Expr) (s : Tails σ)
    (result : EStateM.Result Failure (Reader σ) Expr) : Prop :=
  ∃ s', Steps operand s s' ∧ Ends operand s' result

variable {operand : Reading σ Expr} {s s' s'' : Tails σ} {m m' : Move} {r r' : Reader σ}
  {rounds least : Nat} {lhs rhs e : Expr} {op : Operator} {ws : List (Waiting σ)}
  {result result' : EStateM.Result Failure (Reader σ) Expr}

theorem Step.steps (h : Step operand s m s') : Steps operand s s' := .single ⟨m, h⟩

theorem Steps.trans (h : Steps operand s s') (g : Steps operand s' s'') : Steps operand s s'' :=
  Relation.ReflTransGen.trans h g

theorem Runs.of_steps (h : Runs operand s' result) (g : Steps operand s s') :
    Runs operand s result := by
  obtain ⟨s'', hs, hends⟩ := h
  exact ⟨s'', g.trans hs, hends⟩

theorem Step.unique (h : Step operand s m s') (g : Step operand s m' s'') : s' = s'' := by
  cases h with
  | take hop hleast binary first second =>
    cases g with
    | take hop' _ _ first' second' =>
      rw [first, EStateM.Result.ok.injEq] at first'
      obtain ⟨rfl, rfl⟩ := first'
      rw [second, EStateM.Result.ok.injEq] at second'
      obtain ⟨rfl, rfl⟩ := second'
      rw [hop, Option.some.injEq] at hop'
      rw [hop']
    | leave hstop => exact absurd (hstop _ hop) (Nat.not_lt.2 hleast)
  | enter hop binary hlt =>
    cases g with
    | enter => rfl
    | fold hstop => exact absurd (hstop _ hop binary) (Nat.not_le.2 hlt)
  | fold hstop =>
    cases g with
    | enter hop binary hlt => exact absurd (hstop _ hop binary) (Nat.not_le.2 hlt)
    | fold => rfl
  | leave hstop =>
    cases g with
    | take hop hleast => exact absurd (hstop _ hop) (Nat.not_lt.2 hleast)
    | leave => rfl

theorem Ends.not_step (h : Ends operand s result) : ¬ Step operand s m s' := by
  intro g
  cases h with
  | returns hstop =>
    cases g with
    | take hop hleast => exact Nat.not_lt.2 hleast (hstop _ hop)
  | reserved hop hleast reserved =>
    cases g with
    | take hop' _ binary => simp_all
    | leave hstop => exact Nat.not_lt.2 hleast (hstop _ hop)
  | breaks hop hleast binary h =>
    cases g with
    | take _ _ _ first second => simp [bind_apply, first, second] at h
    | leave hstop => exact Nat.not_lt.2 hleast (hstop _ hop)

theorem Ends.unique (h : Ends operand s result) (g : Ends operand s result') :
    result = result' := by
  cases h with
  | returns hstop =>
    cases g with
    | returns => rfl
    | reserved hop hleast | breaks hop hleast =>
      exact absurd (hstop _ hop) (Nat.not_lt.2 hleast)
  | reserved hop hleast reserved =>
    cases g with
    | returns hstop => exact absurd (hstop _ hop) (Nat.not_lt.2 hleast)
    | reserved => rfl
    | breaks => simp_all
  | breaks hop hleast binary h =>
    cases g with
    | returns hstop => exact absurd (hstop _ hop) (Nat.not_lt.2 hleast)
    | reserved => simp_all
    | breaks _ _ _ h' => exact h.symm.trans h'

theorem Runs.unique (h : Runs operand s result) (g : Runs operand s result') :
    result = result' := by
  obtain ⟨t, hsteps, hends⟩ := h
  obtain ⟨t', hsteps', hends'⟩ := g
  induction hsteps using Relation.ReflTransGen.head_induction_on with
  | refl =>
    rcases hsteps'.cases_head with rfl | ⟨_, ⟨m, hstep⟩, _⟩
    · exact hends.unique hends'
    · exact absurd hstep hends.not_step
  | head hfirst _ ih =>
    obtain ⟨m, hfirst⟩ := hfirst
    rcases hsteps'.cases_head with rfl | ⟨_, ⟨m', hfirst'⟩, hrest'⟩
    · exact absurd hfirst hends'.not_step
    · obtain rfl := hfirst.unique hfirst'
      exact ih hrest'

/-- A run that ends goes on for no longer, and there is no other run. -/
theorem Runs.acc (h : Runs operand s result) :
    Acc (fun s' s => ∃ m, Step operand s m s') s := by
  obtain ⟨t, hsteps, hends⟩ := h
  induction hsteps using Relation.ReflTransGen.head_induction_on with
  | refl => exact ⟨_, fun _ hstep => absurd hstep.choose_spec hends.not_step⟩
  | head hfirst _ ih =>
    obtain ⟨m, hfirst⟩ := hfirst
    refine ⟨_, fun _ hstep => ?_⟩
    obtain ⟨m', hstep⟩ := hstep
    exact hfirst.unique hstep ▸ ih

def TailLeads (operand : Reading σ Expr) (least : Nat) (ws : List (Waiting σ)) (s : Tails σ) :
    EStateM.Result Failure (Reader σ) Expr → Prop
  | .ok e r' => Steps operand s ⟨.folding least e, ws, r'⟩ ∧ Below least r'
  | .error e r' => Runs operand s (.error e r')

def TightenLeads (operand : Reading σ Expr) (least : Nat) (lhs : Expr) (op : Operator)
    (ws : List (Waiting σ)) (s : Tails σ) : EStateM.Result Failure (Reader σ) Expr → Prop
  | .ok x r' =>
      (∃ bodies, Steps operand s ⟨.tightening least lhs op x bodies, ws, r'⟩) ∧ NoneTighter op r'
  | .error e r' => Runs operand s (.error e r')

theorem TailLeads.of_steps (h : TailLeads operand least ws s' result)
    (g : Steps operand s s') : TailLeads operand least ws s result := by
  cases result with
  | ok e r' => exact ⟨g.trans h.1, h.2⟩
  | error e r' => exact Runs.of_steps h g

theorem TightenLeads.of_steps (h : TightenLeads operand least lhs op ws s' result)
    (g : Steps operand s s') : TightenLeads operand least lhs op ws s result := by
  cases result with
  | ok e r' =>
    obtain ⟨⟨bodies, hsteps⟩, hstop⟩ := h
    exact ⟨⟨bodies, g.trans hsteps⟩, hstop⟩
  | error e r' => exact Runs.of_steps h g

theorem leads (h : Shrinks operand) (rounds : Nat) :
    (∀ least lhs ws (r : Reader σ), r.remaining ≤ rounds →
      TailLeads operand least ws ⟨.folding least lhs, ws, r⟩
        (operatorTail operand rounds lhs least r)) ∧
    ∀ least lhs op rhs bodies ws (r : Reader σ), r.remaining < rounds →
      TightenLeads operand least lhs op ws ⟨.tightening least lhs op rhs bodies, ws, r⟩
        (tighten operand rounds op rhs r) := by
  induction rounds with
  | zero =>
    refine ⟨fun least lhs ws r hr => ?_, fun _ _ _ _ _ _ r hr => by omega⟩
    have hnone := operator?_eq_none (r := r) (by omega)
    rw [operatorTail_zero _ _ _ _ (by omega)]
    exact ⟨.refl, by simp [Below, hnone]⟩
  | succ rounds ih =>
    constructor
    · intro least lhs ws r hr
      rcases tail_cases least r with hstop | ⟨op, hop, hleast, reserved | binary⟩
      · rw [operatorTail_stop hstop]
        exact ⟨.refl, hstop⟩
      · rw [operatorTail_reserved hop hleast reserved]
        exact ⟨_, .refl, .reserved hop hleast reserved⟩
      rw [operatorTail_fold hop hleast binary, bind_apply]
      cases hadvance : advance r with
      | error e r' =>
        exact ⟨_, .refl, .breaks hop hleast binary (bind_eq_error.2 (.inl hadvance))⟩
      | ok o r₁ =>
        simp only [bind_apply]
        cases hoperand : operand r₁ with
        | error e r' =>
          exact ⟨_, .refl, .breaks hop hleast binary
            (bind_eq_error.2 (.inr ⟨o, r₁, hadvance, hoperand⟩))⟩
        | ok x r₂ =>
          have hlt₁ := remaining_advance hadvance (isEnd_of_operator? hop)
          have hlt₂ := h _ _ _ hoperand
          have htake : Steps operand ⟨.folding least lhs, ws, r⟩
              ⟨.tightening least lhs op x 0, ws, r₂⟩ :=
            (Step.take hop hleast binary hadvance hoperand).steps
          have htighten := (ih.2 least lhs op x 0 ws r₂ (by omega)).of_steps htake
          simp only
          cases hresult : tighten operand rounds op x r₂ with
          | error e r' =>
            rw [hresult] at htighten
            exact htighten
          | ok b r₃ =>
            rw [hresult] at htighten
            obtain ⟨⟨bodies, hsteps⟩, hstop⟩ := htighten
            have hle₃ := (keeps_operatorTail_tighten h.keeps rounds).2 _ _ _ _ _ hresult
            exact (ih.1 least _ ws r₃ (by omega)).of_steps (hsteps.trans (Step.fold hstop).steps)
    · intro least lhs op rhs bodies ws r hr
      rcases tighten_cases op r with hstop | ⟨ahead, hop, binary, hlt⟩
      · rw [tighten_stop hstop]
        exact ⟨⟨bodies, .refl⟩, hstop⟩
      rw [tighten_go hop binary hlt, bind_apply]
      have hpos : 0 < r.remaining := by simp [remaining, isEnd_of_operator? hop]
      have henter : Steps operand ⟨.tightening least lhs op rhs bodies, ws, r⟩
          ⟨.folding (op.precedence + 1) rhs, ⟨least, lhs, op, bodies + 1, r⟩ :: ws, r⟩ :=
        (Step.enter hop binary hlt).steps
      have htail := (ih.1 (op.precedence + 1) rhs (⟨least, lhs, op, bodies + 1, r⟩ :: ws) r
        (by omega)).of_steps henter
      cases hresult : operatorTail operand rounds rhs (op.precedence + 1) r with
      | error e r' =>
        rw [hresult] at htail
        exact htail
      | ok x r₁ =>
        rw [hresult] at htail
        obtain ⟨hsteps, hstop⟩ := htail
        have hlt₁ := remaining_operatorTail h.keeps (by omega) hop hlt binary hresult
        exact (ih.2 least lhs op x (bodies + 1) ws r₁ (by omega)).of_steps
          (hsteps.trans (Step.leave hstop).steps)

/-- The steps of a call lead to what the loops give. -/
theorem runs_operatorTail (h : Shrinks operand) (hr : r.remaining ≤ rounds) :
    Runs operand ⟨.folding least lhs, [], r⟩ (operatorTail operand rounds lhs least r) := by
  have hleads := (leads h rounds).1 least lhs [] r hr
  cases hresult : operatorTail operand rounds lhs least r with
  | error e r' =>
    rw [hresult] at hleads
    exact hleads
  | ok e r' =>
    rw [hresult] at hleads
    exact ⟨_, hleads.1, .returns hleads.2⟩

theorem runs_iff (h : Shrinks operand) (hr : r.remaining ≤ rounds) :
    Runs operand ⟨.folding least lhs, [], r⟩ result ↔
      operatorTail operand rounds lhs least r = result :=
  ⟨(runs_operatorTail h hr).unique, fun hresult => hresult ▸ runs_operatorTail h hr⟩

/-- The call that `w` waits for stands at `r`: it has consumed something, or it has just begun in
front of an operator that it takes. -/
def Waiting.Inside (w : Waiting σ) (r : Reader σ) : Prop :=
  (r = w.entry ∧ ∃ ahead, r.lookahead.operator? = some ahead ∧ w.op < ahead) ∨
    ∃ ts, ts ≠ [] ∧ Consumes w.entry ts r

/-- `Nested ws least r`: inside the calls `ws`, of which the outermost is that of an expression, a
call of the bound `least` stands at `r`. -/
inductive Nested : List (Waiting σ) → Nat → Reader σ → Prop
  | outermost (r : Reader σ) : Nested [] 0 r
  | inner {w : Waiting σ} {ws : List (Waiting σ)} {r : Reader σ}
      (hleast : w.least ≤ w.op.precedence) (binary : w.op.isBinary = true)
      (room : ∃ ahead, w.op < ahead) (once : w.bodies = 1) (inside : w.Inside r)
      (outer : Nested ws w.least w.entry) : Nested (w :: ws) (w.op.precedence + 1) r

namespace Nested

variable {ts : List Token}

theorem consumes (h : Nested ws least r) (hts : Consumes r ts r') (hne : ts ≠ []) :
    Nested ws least r' := by
  cases h with
  | outermost => exact .outermost r'
  | @inner w ws _ hleast binary room once inside outer =>
    refine .inner hleast binary room once (.inr ?_) outer
    rcases inside with ⟨rfl, _⟩ | ⟨us, _, hus⟩
    · exact ⟨ts, hne, hts⟩
    · exact ⟨us ++ ts, by simp [hne], hus.trans hts⟩

theorem bodies_eq (h : Nested ws least r) : ∀ w ∈ ws, w.bodies = 1 := by
  induction h with
  | outermost => simp
  | inner _ _ _ once _ _ ih => exact List.forall_mem_cons.2 ⟨once, ih⟩

/-- A binary operator that another one binds more tightly than is a comparison or a sum. -/
theorem precedence_of_room (binary : op.isBinary = true) (room : ∃ ahead, op < ahead) :
    op.precedence = 20 ∨ op.precedence = 30 := by
  obtain ⟨ahead, hlt⟩ := room
  cases op <;> cases ahead <;> first | contradiction | decide

/-- Each call is inside one for looser operators, and there are not many kinds of those. -/
theorem bounds_cases (h : Nested ws least r) :
    (ws.map Waiting.least).reverse ++ [least] ∈ [[0], [0, 21], [0, 31], [0, 21, 31]] := by
  induction h with
  | outermost => simp
  | @inner w ws r hleast binary room _ _ _ ih =>
    -- the operator of `w` is no looser than its bound, the last of those around: this leaves few
    have hlast {bounds : List Nat}
        (hbounds : (ws.map Waiting.least).reverse ++ [w.least] = bounds) :
        bounds.getLast? = some w.least := by
      rw [← hbounds, List.getLast?_concat]
    simp only [List.map_cons, List.reverse_cons]
    simp only [List.mem_cons, List.not_mem_nil, or_false] at ih
    rcases precedence_of_room binary room with hop | hop <;> rw [hop] at hleast ⊢ <;>
      rcases ih with ih | ih | ih | ih <;> have hleast' := hlast ih <;> rw [ih] <;>
      simp at hleast' ⊢ <;> omega

end Nested

inductive Sound : Tails σ → Prop
  | folding {least : Nat} {lhs : Expr} {ws : List (Waiting σ)} {r : Reader σ}
      (nested : Nested ws least r) : Sound ⟨.folding least lhs, ws, r⟩
  | tightening {least bodies : Nat} {lhs rhs : Expr} {op : Operator} {ws : List (Waiting σ)}
      {r : Reader σ} (nested : Nested ws least r) (hleast : least ≤ op.precedence)
      (binary : op.isBinary = true) (once : bodies = 0 ∨ bodies = 1 ∧ NoneTighter op r) :
      Sound ⟨.tightening least lhs op rhs bodies, ws, r⟩

variable {levels : Nat}

/-- A round begins with an operator and an operand. -/
theorem Step.consumes_take (h : ReadsOperands levels operand) (hstep : Step operand s .take s') :
    ∃ o op x ts, o.terminal = .operator op ∧ op.isBinary = true ∧
      Consumes s.reader (o :: ts) s'.reader ∧ OperandOf levels x ts s'.reader.lookahead := by
  cases hstep with
  | @take _ _ x op o _ r r₁ r₂ hop _ binary first second =>
    obtain ⟨ts, hts, hx⟩ := h _ _ _ second
    have hterminal := Token.operator?_eq_some.1 hop
    have ho := consumes_advance first (by simp [hterminal])
    exact ⟨o, op, x, ts, (advance_eq_ok first).1 ▸ hterminal, binary, ho.trans hts, hx⟩

/-- `Returned w r`: the call that `w` waits for has returned at `r`. -/
structure Returned (w : Waiting σ) (r : Reader σ) : Prop where
  least_le : w.least ≤ w.op.precedence
  binary : w.op.isBinary = true
  once : w.bodies = 1
  consumed : ∃ ts, ts ≠ [] ∧ Consumes w.entry ts r
  settled : NoneTighter w.op r

/-- A call inside another one does not return where it began, since it takes the operator there. -/
theorem Sound.leave (h : Sound s) (hstep : Step operand s .leave s') :
    ∃ w, s.waiting = w :: s'.waiting ∧ Returned w s'.reader ∧
      Nested s'.waiting w.least s'.reader := by
  cases hstep with
  | @leave least lhs w ws r hstop =>
    cases h with
    | folding nested =>
      cases nested with
      | inner hleast binary room once inside outer =>
        rcases inside with ⟨rfl, ahead, hop, hlt⟩ | ⟨ts, hne, hts⟩
        · exact absurd (hstop ahead hop) (Nat.not_lt.2 hlt)
        · exact ⟨w, rfl, ⟨hleast, binary, once, ⟨ts, hne, hts⟩, noneTighter_of_below hstop⟩,
            outer.consumes hts hne⟩

theorem Sound.step (h : Sound s) (hreads : ReadsOperands levels operand)
    (hstep : Step operand s m s') : Sound s' := by
  cases m with
  | take =>
    obtain ⟨_, _, _, ts, _, _, hts, _⟩ := hstep.consumes_take hreads
    cases hstep with
    | take _ hleast binary =>
      cases h with
      | folding nested => exact .tightening (nested.consumes hts (by simp)) hleast binary (.inl rfl)
  | enter =>
    cases hstep with
    | enter hop ahead hlt =>
      cases h with
      | tightening nested hleast binary once =>
        rcases once with rfl | ⟨rfl, hstop⟩
        · exact .folding (.inner hleast binary ⟨_, hlt⟩ rfl (.inl ⟨rfl, _, hop, hlt⟩) nested)
        · exact absurd (hstop _ hop ahead) (Nat.not_le.2 hlt)
  | fold =>
    cases hstep with
    | fold =>
      cases h with
      | tightening nested => exact .folding nested
  | leave =>
    obtain ⟨w, hw, hreturn, nested⟩ := h.leave hstep
    cases hstep with
    | leave =>
      obtain ⟨rfl, -⟩ := List.cons.inj hw
      exact .tightening nested hreturn.least_le hreturn.binary
        (.inr ⟨hreturn.once, hreturn.settled⟩)

/-- Every state of the calls under way in an expression is sound. -/
theorem Sound.steps (h : Sound s) (hreads : ReadsOperands levels operand)
    (hsteps : Steps operand s s') : Sound s' := by
  induction hsteps with
  | refl => exact h
  | tail _ hstep ih => exact ih.step hreads hstep.choose_spec

theorem Sound.bounds_cases (h : Sound s) :
    s.bounds ∈ [[0], [0, 21], [0, 31], [0, 21, 31]] := by
  cases h with
  | folding nested => exact nested.bounds_cases
  | tightening nested => exact nested.bounds_cases

theorem Sound.bodies_le (h : Sound s) :
    s.head.bodies ≤ 1 ∧ ∀ w ∈ s.waiting, w.bodies = 1 := by
  cases h with
  | folding nested => exact ⟨Nat.zero_le 1, nested.bodies_eq⟩
  | tightening nested _ _ once =>
    refine ⟨?_, nested.bodies_eq⟩
    rcases once with rfl | ⟨rfl, _⟩
    · exact Nat.zero_le 1
    · exact Nat.le_refl 1

/-- What holds of the calls under way at `s`, for operands of at most `levels` levels. -/
structure Orderly (levels : Nat) (operand : Reading σ Expr) (s : Tails σ) : Prop where
  bounds : s.bounds ∈ [[0], [0, 21], [0, 31], [0, 21, 31]]
  increasing : s.bounds.Pairwise (· < ·)
  bodies : s.head.bodies ≤ 1 ∧ ∀ w ∈ s.waiting, w.bodies = 1
  /-- A round of the outer loop consumes an operator and an operand. -/
  round : ∀ s', Step operand s .take s' → ∃ o op x ts, o.terminal = .operator op ∧
    op.isBinary = true ∧ Consumes s.reader (o :: ts) s'.reader ∧
      OperandOf levels x ts s'.reader.lookahead
  /-- A body of the inner loop consumes a token and leaves nothing that binds more tightly. -/
  body : ∀ s', Step operand s .leave s' → ∃ w, s.waiting = w :: s'.waiting ∧
    (∃ ts, ts ≠ [] ∧ Consumes w.entry ts s'.reader) ∧ NoneTighter w.op s'.reader

theorem Sound.orderly (h : Sound s) (hreads : ReadsOperands levels operand) :
    Orderly levels operand s where
  bounds := h.bounds_cases
  increasing := by
    have hbounds := h.bounds_cases
    simp only [List.mem_cons, List.not_mem_nil, or_false] at hbounds
    rcases hbounds with hbounds | hbounds | hbounds | hbounds <;> rw [hbounds] <;> decide
  bodies := h.bodies_le
  round _ hstep := hstep.consumes_take hreads
  body _ hstep := by
    obtain ⟨w, hw, hreturn, _⟩ := h.leave hstep
    exact ⟨w, hw, hreturn.consumed, hreturn.settled⟩

/-- What the loops over operators do in an expression whose operands have at most `levels` levels
below them. -/
structure TailsProgress (σ : Type) [TokenSource σ] (limit levels : Nat) : Prop where
  /-- No steps go on for ever, with any bound. -/
  terminates : ∀ least lhs (r : Reader σ),
    Acc (fun s' s => ∃ m, Step (primary (expression limit levels)) s m s')
      ⟨.folding least lhs, [], r⟩
  /-- The steps give the answer of the loops, whose number of rounds is no limit. -/
  answers : ∀ rounds least lhs (r : Reader σ) result, r.remaining ≤ rounds →
    (operatorTail (primary (expression limit levels)) rounds lhs least r = result ↔
      Runs (primary (expression limit levels)) ⟨.folding least lhs, [], r⟩ result)
  exit : ∀ rounds least lhs e (r r' : Reader σ), r.remaining ≤ rounds →
    operatorTail (primary (expression limit levels)) rounds lhs least r = .ok e r' → Below least r'
  /-- An expression is an operand and a call with the bound 0. -/
  whole : ∀ lhs (r r' : Reader σ) result, primary (expression limit levels) r = .ok lhs r' →
    (expression limit (levels + 1) r = result ↔
      Runs (primary (expression limit levels)) ⟨.folding 0 lhs, [], r'⟩ result)
  orderly : ∀ lhs (r : Reader σ) s,
    Steps (primary (expression limit levels)) ⟨.folding 0 lhs, [], r⟩ s →
      Orderly levels (primary (expression limit levels)) s

theorem tails_progress (σ : Type) [TokenSource σ] (limit levels : Nat) :
    TailsProgress σ limit levels := by
  have hshrinks : Shrinks (primary (expression limit levels) : Reading σ Expr) :=
    shrinks_primary (shrinks_expression limit levels).keeps
  have hreads : ReadsOperands levels (primary (expression limit levels) : Reading σ Expr) :=
    readsOperands_primary (readsExpressions_expression limit levels)
  exact {
    terminates := fun least lhs r => (runs_operatorTail hshrinks (Nat.le_refl _)).acc
    answers := fun rounds least lhs r result hr => (runs_iff hshrinks hr).symm
    exit := fun rounds least lhs e r r' hr hok => by
      have hleads := (leads hshrinks rounds).1 least lhs [] r hr
      rw [hok] at hleads
      exact hleads.2
    whole := fun lhs r r' result hlhs => by
      rw [runs_iff hshrinks (Nat.le_succ _)]
      simp [expression, bounded_eq, bind_apply, hlhs]
    orderly := fun lhs r s hsteps =>
      (Sound.steps (.folding (.outermost r)) hreads hsteps).orderly hreads }

/-- Three calls are under way in front of the product of `1 < 2 + 3 * 4`. -/
example (one : Expr) :
    let ahead : TokenList := ⟨[.number 2, .operator .add, .number 3, .operator .mul].map .bare,
      .bare .endOfInput, 0, rfl⟩
    ∃ s, Steps (primary (expression 1 0))
      ⟨.folding 0 one, [], ⟨ahead, .bare (.operator .less), []⟩⟩ s ∧ s.bounds = [0, 21, 31] := by
  refine ⟨_, .head ⟨.take, .take rfl ?_ rfl rfl rfl⟩ <| .head ⟨.enter, .enter rfl rfl ?_⟩ <|
    .head ⟨.take, .take rfl ?_ rfl rfl rfl⟩ <| .head ⟨.enter, .enter rfl rfl ?_⟩ .refl, rfl⟩
  all_goals decide

end ExprLang.Reader
