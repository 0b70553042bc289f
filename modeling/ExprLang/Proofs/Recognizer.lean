import ExprLang.Proofs.Grammar

/-!
# A recognizer for the language

A deterministic pushdown machine for the language. Its stack holds the constructs that are open,
and it commits at once where the grammar is ambiguous: a parenthesis after a name opens a call.
An else branch leaves nothing on the stack, since nothing has to come after it. The machine
accepts exactly the sentences, and it has a next state exactly as long as some sentence starts
with what it has read.
-/
namespace ExprLang.Recognizer

open Grammar

/-- A construct that is open, by the part of it that is being read. -/
inductive Frame
  | group
  | arguments
  | predicate
  | thenBranch
  deriving DecidableEq, Repr

/-- `body` says whether an expression follows the prototype, `named` whether the operand that is
complete ends in a name, and `frames` holds the open constructs, innermost first. -/
inductive State
  | start
  | prototypeName (body : Bool)
  | prototypeOpen (body : Bool)
  | parameters (body : Bool)
  | declared
  | operand (frames : List Frame)
  | firstArgument (frames : List Frame)
  | complete (named : Bool) (frames : List Frame)
  deriving DecidableEq, Repr

def State.accepting : State → Bool
  | .start | .declared | .complete _ [] => true
  | _ => false

def beginOperand (frames : List Frame) : Terminal → Option State
  | .number _ => some (.complete false frames)
  | .identifier _ => some (.complete true frames)
  | .leftParen => some (.operand (.group :: frames))
  | .keyword .ifWord => some (.operand (.predicate :: frames))
  | _ => none

def beginStatement : Terminal → Option State
  | .keyword .define => some (.prototypeName true)
  | .keyword .external => some (.prototypeName false)
  | t => beginOperand [] t

/-- What an expression may be followed by, apart from an operation or a call's parenthesis. -/
def endExpression (more : Bool) (frames : List Frame) (t : Terminal) : Option State :=
  match frames, t with
  | [], t => if more then beginStatement t else none
  | .group :: frames, .rightParen => some (.complete false frames)
  | .arguments :: frames, .comma => some (.operand (.arguments :: frames))
  | .arguments :: frames, .rightParen => some (.complete false frames)
  | .predicate :: frames, .keyword .thenWord => some (.operand (.thenBranch :: frames))
  | .thenBranch :: frames, .keyword .elseWord => some (.operand frames)
  | _, _ => none

/-- With `more` the machine reads a whole program, otherwise a single statement. -/
def step (more : Bool) (s : State) (t : Terminal) : Option State :=
  match s with
  | .start => beginStatement t
  | .prototypeName body =>
      match t with
      | .identifier _ => some (.prototypeOpen body)
      | _ => none
  | .prototypeOpen body =>
      match t with
      | .leftParen => some (.parameters body)
      | _ => none
  | .parameters body =>
      match t with
      | .comma | .identifier _ => some (.parameters body)
      | .rightParen => some (if body then .operand [] else .declared)
      | _ => none
  | .declared => if more then beginStatement t else none
  | .operand frames => beginOperand frames t
  | .firstArgument frames =>
      match t with
      | .rightParen => some (.complete false frames)
      | t => beginOperand (.arguments :: frames) t
  | .complete named frames =>
      match t with
      | .operator op => if op.isBinary then some (.operand frames) else none
      | .leftParen =>
          if named then some (.firstArgument frames) else endExpression more frames .leftParen
      | t => endExpression more frames t

def run (more : Bool) (s : State) (ts : List Terminal) : Option State := ts.foldlM (step more) s

variable {more : Bool} {s s' : State} {t : Terminal} {ts us : List Terminal}

@[simp] theorem run_nil : run more s [] = some s := rfl

@[simp] theorem run_cons : run more s (t :: ts) = (step more s t).bind fun s' => run more s' ts :=
  rfl

@[simp] theorem run_append :
    run more s (ts ++ us) = (run more s ts).bind fun s' => run more s' us := by
  simp only [run, List.foldlM_append]
  rfl

/-- No state goes on past the end of input. -/
theorem step_endOfInput : step more s .endOfInput = none := by
  have hend (frames : List Frame) : endExpression more frames .endOfInput = none := by
    cases frames with
    | nil => simp [endExpression, beginStatement, beginOperand]
    | cons frame _ => cases frame <;> rfl
  cases s <;> simp [step, beginStatement, beginOperand, hend]

/-- The first argument of a call is read like any other. -/
theorem step_firstArgument {frames : List Frame} (h : t ≠ .rightParen) :
    step more (.firstArgument frames) t = step more (.operand (.arguments :: frames)) t := by
  cases t <;> first | rfl | contradiction

/-- Where an operand must come, a closing parenthesis cannot. -/
theorem run_firstArgument {frames : List Frame}
    (h : run more (.operand (.arguments :: frames)) ts = some s) (hne : ts ≠ []) :
    run more (.firstArgument frames) ts = some s := by
  cases ts with
  | nil => contradiction
  | cons t ts =>
    have ht : t ≠ .rightParen := by
      intro heq
      subst heq
      simp [step, beginOperand] at h
    simpa [step_firstArgument ht] using h

/-- What the terminals of a phrase do to the machine, whatever is open around the phrase. -/
def Reads (more : Bool) (ts : List Terminal) : Symbol → Prop
  | .program | .statement => True
  | .prototype => ∀ body, run more (.prototypeName body) ts =
      some (if body then .operand [] else .declared)
  | .parameters => ∀ body, run more (.parameters body) (ts ++ [.rightParen]) =
      some (if body then .operand [] else .declared)
  | .expression | .primary => ts ≠ [] ∧ ∀ frames,
      run more (.operand frames) ts = some (.complete (endsInName false ts) frames)
  | .operations => ∀ named frames,
      run more (.complete named frames) ts = some (.complete (endsInName named ts) frames)
  | .arguments => ∀ frames, run more (.firstArgument frames) (ts ++ [.rightParen]) =
      some (.complete false frames)
  | .moreArguments => ∀ named frames,
      run more (.complete named (.arguments :: frames)) (ts ++ [.rightParen]) =
        some (.complete false frames)

theorem reads_of_generates (more : Bool) {symbol : Symbol} (h : Generates symbol ts) :
    Reads more ts symbol := by
  induction h with
  | noStatement | nextStatement | definition | external | bare => trivial
  | prototype _ _ ih => intro body; simpa [step] using ih body
  | noParameter => intro body; simp [step]
  | skipComma _ ih => intro body; simpa [step] using ih body
  | parameter _ _ ih => intro body; simpa [step] using ih body
  | expression _ _ ihu ihv =>
    refine ⟨by simp [ihu.1], fun frames => ?_⟩
    simp [ihu.2, ihv _ frames]
  | noOperation => intro named frames; rfl
  | @operation op u v binary _ _ ihu ihv =>
    intro named frames
    simp [step, binary, ihu.2, ihv _ frames, Terminal.isName]
  | number | reference => simp [Reads, step, beginOperand, Terminal.isName]
  | group _ ih =>
    refine ⟨by simp, fun frames => ?_⟩
    simp [step, beginOperand, ih.2, endExpression, Terminal.isName]
  | call callee _ ih =>
    refine ⟨by simp, fun frames => ?_⟩
    simp only [run_cons, step, beginOperand, Option.bind_some, if_true, ih frames]
    simp [Terminal.isName]
  | @conditional u v w _ _ _ ihu ihv ihw =>
    refine ⟨by simp, fun frames => ?_⟩
    simp [step, beginOperand, ihu.2, ihv.2, ihw.2, endExpression, Terminal.isName]
  | noArgument => intro frames; simp [step]
  | @arguments u v _ _ ihu ihv =>
    -- the first argument is read as an operand, but no parenthesis may close the call before it
    intro frames
    have hfirst := run_firstArgument (ihu.2 (.arguments :: frames)) ihu.1
    simp only [List.append_assoc, run_append, hfirst, Option.bind_some]
    simpa using ihv _ frames
  | lastArgument => intro named frames; simp [step, endExpression]
  | @nextArgument u v _ _ ihu ihv =>
    intro named frames
    rw [List.cons_append, run_cons, List.append_assoc]
    simp only [step, endExpression, Option.bind_some]
    rw [run_append, ihu.2, Option.bind_some]
    exact ihv _ frames

/-- Behind an expression that ends, what may follow depends on the construct around it. -/
theorem step_complete {named : Bool} (frames : List Frame) (hop : ∀ op, t ≠ .operator op)
    (hname : named = true → t ≠ .leftParen) :
    step more (.complete named frames) t = endExpression more frames t := by
  cases t with
  | operator op => exact absurd rfl (hop op)
  | leftParen =>
    cases named with
    | false => rfl
    | true => exact absurd rfl (hname rfl)
  | _ => rfl

/-- Between statements every terminal begins the next one, unless it goes on with the last. -/
theorem step_of_accepting (hs : s.accepting = true) (hop : ∀ op, t ≠ .operator op)
    (hname : s = .complete true [] → t ≠ .leftParen) : step true s t = step true .start t := by
  cases s with
  | start | declared => rfl
  | complete named frames =>
    cases frames with
    | cons => simp [State.accepting] at hs
    | nil => exact step_complete [] hop fun hnamed => hname (by rw [hnamed])
  | _ => simp [State.accepting] at hs

theorem run_of_accepting (hs : s.accepting = true) (hop : ∀ op, t ≠ .operator op)
    (hname : s = .complete true [] → t ≠ .leftParen) :
    run true s (t :: ts) = run true .start (t :: ts) := by
  rw [run_cons, run_cons, step_of_accepting hs hop hname]

/-- A statement may begin with a parenthesis after one that ends in a name: the machine reads it
as the arguments of a call, and ends in the same state. -/
theorem run_primary_of_accepting (h : Generates .primary ts) (hs : s.accepting = true) :
    run true s ts = some (.complete (endsInName false ts) []) := by
  have hoperand := (reads_of_generates true h).2 []
  cases h with
  | number | reference | call | conditional =>
    rw [run_of_accepting hs (by simp) (by simp)]
    exact hoperand
  | @group u inner =>
    by_cases hname : s = .complete true []
    · have hu := reads_of_generates true inner
      subst hname
      rw [run_cons]
      simp only [step, if_true, Option.bind_some]
      rw [run_append, run_firstArgument (hu.2 _) hu.1]
      simp [step, endExpression, Terminal.isName]
    · rw [run_of_accepting hs (by simp) (fun hs' => absurd hs' hname)]
      exact hoperand

/-- An operand may begin a statement. -/
theorem run_start_of_operand (h : run more (.operand []) ts = some s) (hne : ts ≠ []) :
    run more .start ts = some s := by
  cases ts with
  | nil => contradiction
  | cons t ts =>
    cases t with
    | keyword word => cases word <;> first | exact h | simp [step, beginOperand] at h
    | _ => exact h

/-- A statement by itself leads to a state in which the input may end. -/
theorem run_statement (more : Bool) (h : Generates .statement ts) :
    ∃ s', run more .start ts = some s' ∧ s'.accepting = true := by
  cases h with
  | definition signature body =>
    have hu := reads_of_generates more signature true
    have hv := (reads_of_generates more body).2 []
    exact ⟨_, by simp [step, beginStatement, hu, hv]; rfl, rfl⟩
  | external signature =>
    have hu := reads_of_generates more signature false
    exact ⟨_, by simp [step, beginStatement, hu]; rfl, rfl⟩
  | bare body =>
    obtain ⟨hne, hu⟩ := reads_of_generates more body
    exact ⟨_, run_start_of_operand (hu []) hne, rfl⟩

/-- The same holds after other statements. -/
theorem run_statement_of_accepting (h : Generates .statement ts) (hs : s.accepting = true) :
    ∃ s', run true s ts = some s' ∧ s'.accepting = true := by
  have hstart := run_statement true h
  cases h with
  | definition | external => rwa [run_of_accepting hs (by simp) (by simp)]
  | bare body =>
    cases body with
    | @expression u v first rest =>
      refine ⟨.complete (endsInName (endsInName false u) v) [], ?_, rfl⟩
      rw [run_append, run_primary_of_accepting first hs]
      exact reads_of_generates true rest _ _

theorem run_program (h : Generates .program ts) (hs : s.accepting = true) :
    ∃ s', run true s ts = some s' ∧ s'.accepting = true := by
  generalize hp : Symbol.program = symbol at h
  induction h generalizing s with
  | noStatement => exact ⟨s, rfl, hs⟩
  | nextStatement first _ _ ih =>
    obtain ⟨s₁, hrun, hs₁⟩ := run_statement_of_accepting first hs
    obtain ⟨s₂, hrest, hs₂⟩ := ih hs₁ rfl
    exact ⟨s₂, by simp [hrun, hrest], hs₂⟩
  | _ => cases hp

theorem run_sentence (h : Sentence ts) :
    ∃ s', run true .start ts = some s' ∧ s'.accepting = true := run_program h rfl

end ExprLang.Recognizer
