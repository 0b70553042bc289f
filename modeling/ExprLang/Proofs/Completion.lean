import ExprLang.Proofs.Recognizer

/-!
# What completes a state

For each state of the recognizer the continuations that lead to a sentence, in terms of the
grammar: what the open constructs still demand, innermost first. Every step keeps them, no state
is without one, and the empty one completes exactly the states that accept. So the recognizer
accepts the sentences only, and whatever it can read is the beginning of some sentence.
-/
namespace ExprLang.Recognizer

open Grammar

/-- What has to come after an expression, with these constructs open around it. -/
inductive Closes : List Frame → List Terminal → Prop
  | nil {w : List Terminal} (rest : Generates .program w) : Closes [] w
  | group {frames : List Frame} {v w : List Terminal} (after : Generates .operations v)
      (rest : Closes frames w) : Closes (.group :: frames) (.rightParen :: (v ++ w))
  | arguments {frames : List Frame} {u v w : List Terminal} (more : Generates .moreArguments u)
      (after : Generates .operations v) (rest : Closes frames w) :
      Closes (.arguments :: frames) (u ++ .rightParen :: (v ++ w))
  | predicate {frames : List Frame} {u v w : List Terminal} (thenBranch : Generates .expression u)
      (rest : Closes (.thenBranch :: frames) v) (hw : w = .keyword .thenWord :: (u ++ v)) :
      Closes (.predicate :: frames) w
  | thenBranch {frames : List Frame} {u v w : List Terminal} (elseBranch : Generates .expression u)
      (after : Generates .operations v) (rest : Closes frames w) :
      Closes (.thenBranch :: frames) (.keyword .elseWord :: (u ++ (v ++ w)))

def FollowsPrototype (body : Bool) (w : List Terminal) : Prop :=
  if body then ∃ u v, Generates .expression u ∧ Generates .program v ∧ w = u ++ v
  else Generates .program w

inductive Completes : State → List Terminal → Prop
  | start {w : List Terminal} (rest : Generates .program w) : Completes .start w
  | declared {w : List Terminal} (rest : Generates .program w) : Completes .declared w
  | prototypeName {body : Bool} {u v : List Terminal} (signature : Generates .prototype u)
      (rest : FollowsPrototype body v) : Completes (.prototypeName body) (u ++ v)
  | prototypeOpen {body : Bool} {w : List Terminal} (rest : Completes (.parameters body) w) :
      Completes (.prototypeOpen body) (.leftParen :: w)
  | parameters {body : Bool} {u v : List Terminal} (params : Generates .parameters u)
      (rest : FollowsPrototype body v) : Completes (.parameters body) (u ++ .rightParen :: v)
  | operand {frames : List Frame} {u v : List Terminal} (operand : Generates .expression u)
      (rest : Closes frames v) : Completes (.operand frames) (u ++ v)
  | firstArgument {frames : List Frame} {u v w : List Terminal} (args : Generates .arguments u)
      (after : Generates .operations v) (rest : Closes frames w) :
      Completes (.firstArgument frames) (u ++ .rightParen :: (v ++ w))
  | complete {named : Bool} {frames : List Frame} {u v : List Terminal}
      (after : Generates .operations u) (rest : Closes frames v) :
      Completes (.complete named frames) (u ++ v)
  | call {frames : List Frame} {w : List Terminal} (rest : Completes (.firstArgument frames) w) :
      Completes (.complete true frames) (.leftParen :: w)

variable {s s' : State} {t : Terminal} {ts w : List Terminal} {frames : List Frame}

/-- A primary and what follows it, up to the end of the expression that it begins. -/
theorem completes_operand {u v : List Terminal} (first : Generates .primary ts)
    (rest : Generates .operations u) (closes : Closes frames v) :
    Completes (.operand frames) (ts ++ (u ++ v)) := by
  simpa using Completes.operand (.expression first rest) closes

theorem completes_beginOperand (h : beginOperand frames t = some s') (hw : Completes s' w) :
    Completes (.operand frames) (t :: w) := by
  cases t with
  | number value =>
    simp only [beginOperand, Option.some.injEq] at h
    subst h
    cases hw with
    | complete after rest => exact completes_operand (.number value) after rest
  | identifier name =>
    simp only [beginOperand, Option.some.injEq] at h
    subst h
    cases hw with
    | complete after rest => exact completes_operand (.reference name) after rest
    | call hcall =>
      cases hcall with
      | firstArgument args after rest =>
        simpa using completes_operand (.call name args) after rest
  | leftParen =>
    simp only [beginOperand, Option.some.injEq] at h
    subst h
    cases hw with
    | operand inner hclose =>
      cases hclose with
      | group after rest => simpa using completes_operand (.group inner) after rest
  | keyword word =>
    cases word with
    | ifWord =>
      simp only [beginOperand, Option.some.injEq] at h
      subst h
      cases hw with
      | operand hp hclose =>
        cases hclose with
        | predicate ht hclose hv =>
          cases hclose with
          | thenBranch he after rest =>
            simpa [hv] using completes_operand (.conditional hp ht he) after rest
    | _ => simp [beginOperand] at h
  | _ => simp [beginOperand] at h

theorem generates_program_of_operand (h : Completes (.operand []) w) : Generates .program w := by
  cases h with
  | operand body hclose =>
    cases hclose with
    | nil rest => exact .nextStatement (.bare body) rest

theorem generates_program_of_begin (h : beginStatement t = some s') (hw : Completes s' w) :
    Generates .program (t :: w) := by
  by_cases hkeyword : t = .keyword .define ∨ t = .keyword .external
  · rcases hkeyword with rfl | rfl
    · simp only [beginStatement, Option.some.injEq] at h
      subst h
      cases hw with
      | prototypeName signature rest =>
        obtain ⟨u, v, hu, hv, rfl⟩ := rest
        simpa using Generates.nextStatement (.definition signature hu) hv
    · simp only [beginStatement, Option.some.injEq] at h
      subst h
      cases hw with
      | prototypeName signature rest =>
        exact Generates.nextStatement (.external signature) rest
  · have hoperand : beginOperand [] t = some s' := by
      rw [← h]
      cases t with
      | keyword word => cases word <;> simp_all [beginStatement]
      | _ => rfl
    exact generates_program_of_operand (completes_beginOperand hoperand hw)

theorem closes_endExpression (h : endExpression true frames t = some s') (hw : Completes s' w) :
    Closes frames (t :: w) := by
  unfold endExpression at h
  split at h
  · exact .nil (generates_program_of_begin (by simpa using h) hw)
  · simp only [Option.some.injEq] at h
    subst h
    cases hw with
    | complete after rest => exact .group after rest
  · simp only [Option.some.injEq] at h
    subst h
    cases hw with
    | operand next hclose =>
      cases hclose with
      | arguments more after rest =>
        simpa using Closes.arguments (.nextArgument next more) after rest
  · simp only [Option.some.injEq] at h
    subst h
    cases hw with
    | complete after rest => exact Closes.arguments .lastArgument after rest
  · simp only [Option.some.injEq] at h
    subst h
    cases hw with
    | operand thenBranch rest => exact .predicate thenBranch rest rfl
  · simp only [Option.some.injEq] at h
    subst h
    cases hw with
    | operand elseBranch rest => exact Closes.thenBranch elseBranch .noOperation rest
  · simp at h

theorem completes_prototypeName {body : Bool} (h : step true (.prototypeName body) t = some s')
    (hw : Completes s' w) : Completes (.prototypeName body) (t :: w) := by
  cases t with
  | identifier name =>
    simp only [step, Option.some.injEq] at h
    subst h
    cases hw with
    | prototypeOpen hparams =>
      cases hparams with
      | parameters params rest =>
        simpa using Completes.prototypeName (.prototype name params) rest
  | _ => simp [step] at h

theorem completes_prototypeOpen {body : Bool} (h : step true (.prototypeOpen body) t = some s')
    (hw : Completes s' w) : Completes (.prototypeOpen body) (t :: w) := by
  cases t with
  | leftParen =>
    simp only [step, Option.some.injEq] at h
    subst h
    exact .prototypeOpen hw
  | _ => simp [step] at h

theorem followsPrototype_of_completes {body : Bool}
    (hw : Completes (if body then .operand [] else .declared) w) : FollowsPrototype body w := by
  cases body with
  | false =>
    cases hw with
    | declared rest => exact rest
  | true =>
    cases hw with
    | operand body hclose =>
      cases hclose with
      | nil rest => exact ⟨_, _, body, rest, rfl⟩

theorem completes_parameters {body : Bool} (h : step true (.parameters body) t = some s')
    (hw : Completes s' w) : Completes (.parameters body) (t :: w) := by
  cases t with
  | comma =>
    simp only [step, Option.some.injEq] at h
    subst h
    cases hw with
    | parameters params rest => exact .parameters (.skipComma params) rest
  | identifier name =>
    simp only [step, Option.some.injEq] at h
    subst h
    cases hw with
    | parameters params rest => exact .parameters (.parameter name params) rest
  | rightParen =>
    simp only [step, Option.some.injEq] at h
    subst h
    exact .parameters .noParameter (followsPrototype_of_completes hw)
  | _ => simp [step] at h

theorem completes_firstArgument (h : step true (.firstArgument frames) t = some s')
    (hw : Completes s' w) : Completes (.firstArgument frames) (t :: w) := by
  by_cases hparen : t = .rightParen
  · subst hparen
    simp only [step, Option.some.injEq] at h
    subst h
    cases hw with
    | complete after rest => exact .firstArgument .noArgument after rest
  · rw [step_firstArgument hparen] at h
    have hoperand := completes_beginOperand h hw
    generalize t :: w = v at hoperand
    cases hoperand with
    | operand first hclose =>
      cases hclose with
      | arguments more after rest =>
        simpa using Completes.firstArgument (.arguments first more) after rest

theorem completes_complete {named : Bool} (h : step true (.complete named frames) t = some s')
    (hw : Completes s' w) : Completes (.complete named frames) (t :: w) := by
  cases t with
  | operator op =>
    simp only [step] at h
    split at h
    · next binary =>
      simp only [Option.some.injEq] at h
      subst h
      cases hw with
      | operand operand rest =>
        cases operand with
        | expression first after =>
          have hoperations := Generates.operation binary first after
          simpa using @Completes.complete named _ _ _ hoperations rest
    · simp at h
  | leftParen =>
    simp only [step] at h
    split at h
    · next hname =>
      simp only [Option.some.injEq] at h
      subst h
      exact hname ▸ .call hw
    · exact .complete .noOperation (closes_endExpression h hw)
  | _ => exact .complete .noOperation (closes_endExpression h hw)

/-- A continuation of the state after a step, with the step's terminal before it, continues the
state before the step. -/
theorem completes_step (h : step true s t = some s') (hw : Completes s' w) :
    Completes s (t :: w) := by
  cases s with
  | start => exact .start (generates_program_of_begin h hw)
  | declared => exact .declared (generates_program_of_begin (by simpa [step] using h) hw)
  | prototypeName body => exact completes_prototypeName h hw
  | prototypeOpen body => exact completes_prototypeOpen h hw
  | parameters body => exact completes_parameters h hw
  | operand frames => exact completes_beginOperand h hw
  | firstArgument frames => exact completes_firstArgument h hw
  | complete named frames => exact completes_complete h hw

theorem completes_run (h : run true s ts = some s') (hw : Completes s' w) :
    Completes s (ts ++ w) := by
  induction ts generalizing s with
  | nil =>
    simp only [run_nil, Option.some.injEq] at h
    exact h ▸ hw
  | cons t ts ih =>
    rw [run_cons, Option.bind_eq_some_iff] at h
    obtain ⟨s₁, hstep, hrest⟩ := h
    exact completes_step hstep (ih hrest)

theorem completes_of_accepting (h : s.accepting = true) : Completes s [] := by
  cases s with
  | start => exact .start .noStatement
  | declared => exact .declared .noStatement
  | complete named frames =>
    cases frames with
    | nil => exact .complete .noOperation (.nil .noStatement)
    | cons => simp [State.accepting] at h
  | _ => simp [State.accepting] at h

theorem generates_number : Generates .expression [.number 0] :=
  .expression (.number 0) .noOperation

theorem exists_closes (frames : List Frame) : ∃ w, Closes frames w := by
  induction frames with
  | nil => exact ⟨[], .nil .noStatement⟩
  | cons frame frames ih =>
    obtain ⟨w, hw⟩ := ih
    have helse : Closes (.thenBranch :: frames) _ :=
      .thenBranch generates_number .noOperation hw
    cases frame with
    | group => exact ⟨_, .group .noOperation hw⟩
    | arguments => exact ⟨_, .arguments .lastArgument .noOperation hw⟩
    | predicate => exact ⟨_, .predicate generates_number helse rfl⟩
    | thenBranch => exact ⟨_, helse⟩

theorem exists_followsPrototype (body : Bool) : ∃ w, FollowsPrototype body w := by
  cases body with
  | false => exact ⟨[], .noStatement⟩
  | true => exact ⟨_, _, _, generates_number, .noStatement, rfl⟩

theorem exists_completes (s : State) : ∃ w, Completes s w := by
  cases s with
  | start => exact ⟨[], .start .noStatement⟩
  | declared => exact ⟨[], .declared .noStatement⟩
  | prototypeName body =>
    obtain ⟨w, hw⟩ := exists_followsPrototype body
    exact ⟨_, .prototypeName (.prototype "" .noParameter) hw⟩
  | prototypeOpen body =>
    obtain ⟨w, hw⟩ := exists_followsPrototype body
    exact ⟨_, .prototypeOpen (.parameters .noParameter hw)⟩
  | parameters body =>
    obtain ⟨w, hw⟩ := exists_followsPrototype body
    exact ⟨_, .parameters .noParameter hw⟩
  | operand frames =>
    obtain ⟨w, hw⟩ := exists_closes frames
    exact ⟨_, .operand generates_number hw⟩
  | firstArgument frames =>
    obtain ⟨w, hw⟩ := exists_closes frames
    exact ⟨_, .firstArgument .noArgument .noOperation hw⟩
  | complete named frames =>
    obtain ⟨w, hw⟩ := exists_closes frames
    exact ⟨w, .complete .noOperation hw⟩

theorem sentence_of_run (h : run true .start ts = some s) (hw : Completes s w) :
    Sentence (ts ++ w) := by
  cases completes_run h hw with
  | start rest => exact rest

/-- The recognizer can read exactly what some continuation completes to a sentence. -/
theorem viable_iff : Viable ts ↔ (run true .start ts).isSome = true := by
  constructor
  · intro hviable
    rcases hviable with ⟨rest, h⟩
    obtain ⟨s, hrun, _⟩ := run_sentence h
    rw [run_append, Option.bind_eq_some_iff] at hrun
    obtain ⟨s₁, hrun, _⟩ := hrun
    simp [hrun]
  · intro h
    obtain ⟨s, hrun⟩ := Option.isSome_iff_exists.1 h
    obtain ⟨w, hw⟩ := exists_completes s
    exact ⟨w, sentence_of_run hrun hw⟩

theorem sentence_iff_accepting (h : run true .start ts = some s) :
    Sentence ts ↔ s.accepting = true := by
  constructor
  · intro hts
    obtain ⟨s', hrun, hs'⟩ := run_sentence hts
    rw [h, Option.some.injEq] at hrun
    rwa [hrun]
  · intro hs
    simpa using sentence_of_run h (completes_of_accepting hs)

end ExprLang.Recognizer
