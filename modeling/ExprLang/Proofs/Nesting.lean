import ExprLang.Proofs.Derivation
import Mathlib.Data.List.Basic

/-!
# Nesting

The derivations again, with a number for each token: how many expressions are open around it. A
statement's own expression is one, and each parenthesised group, each argument of a call and each
of the three parts of a conditional opens one more; operators open none. The tokens of a keyword
or a parenthesis that opens an expression are not inside it yet.
-/
namespace ExprLang

def deepest (ks : List Nat) : Nat := ks.foldr max 0

@[simp] theorem deepest_nil : deepest [] = 0 := rfl

@[simp] theorem deepest_cons (k : Nat) (ks : List Nat) :
    deepest (k :: ks) = max k (deepest ks) := rfl

theorem deepest_zero_cons (ks : List Nat) : deepest (0 :: ks) = deepest ks := Nat.zero_max _

@[simp] theorem deepest_append (ks ls : List Nat) :
    deepest (ks ++ ls) = max (deepest ks) (deepest ls) := by
  induction ks with
  | nil => simp
  | cons k ks ih => simp [ih, Nat.max_assoc]

@[simp] theorem deepest_replicate_zero (n : Nat) : deepest (List.replicate n 0) = 0 := by
  induction n with
  | zero => rfl
  | succ n ih => simp [List.replicate_succ, ih]

theorem deepest_map_succ {ks : List Nat} (h : ks ≠ []) :
    deepest (ks.map (· + 1)) = deepest ks + 1 := by
  induction ks with
  | nil => contradiction
  | cons k ks ih =>
    cases ks with
    | nil => simp
    | cons l ks =>
      have hrest := ih (by simp)
      rw [List.map_cons, deepest_cons, hrest, deepest_cons k]
      omega

theorem deepest_le_iff {ks : List Nat} {d : Nat} : deepest ks ≤ d ↔ ∀ k ∈ ks, k ≤ d := by
  induction ks with
  | nil => simp
  | cons k ks ih => rw [deepest_cons, Nat.max_le, ih, List.forall_mem_cons]

theorem lt_deepest_iff {ks : List Nat} {d : Nat} : d < deepest ks ↔ ∃ k ∈ ks, d < k := by
  rw [← Nat.not_le, deepest_le_iff]
  simp

/-- The tokens in front of the first one inside more than `levels` open expressions. -/
def shallow (levels : Nat) (ks : List Nat) (ts : List Token) : List Token :=
  ts.take (ks.findIdx (levels < ·))

/-- The first token inside more than `levels` open expressions. -/
def firstDeep (levels : Nat) (ks : List Nat) (ts : List Token) : Option Token :=
  ts[ks.findIdx (levels < ·)]?

section Shallow

variable {levels k : Nat} {ks ls : List Nat} {t : Token} {ts us : List Token}

theorem shallow_cons (h : k ≤ levels) :
    shallow levels (k :: ks) (t :: ts) = t :: shallow levels ks ts := by
  simp [shallow, List.findIdx_cons, Nat.not_lt.2 h]

theorem findIdx_lt_of_deep (h : levels < deepest ks) : ks.findIdx (levels < ·) < ks.length :=
  List.findIdx_lt_length.2 (by simpa using lt_deepest_iff.1 h)

theorem findIdx_eq_of_shallow (h : deepest ks ≤ levels) : ks.findIdx (levels < ·) = ks.length :=
  List.findIdx_eq_length.2 (by simpa using deepest_le_iff.1 h)

theorem shallow_append_of_lt (hlength : ks.length = ts.length) (h : levels < deepest ks) :
    shallow levels (ks ++ ls) (ts ++ us) = shallow levels ks ts := by
  have hlt := findIdx_lt_of_deep h
  have hle : ks.findIdx (levels < ·) ≤ ts.length := by omega
  simp [shallow, List.findIdx_append, hlt, List.take_append_of_le_length hle]

theorem shallow_append_of_le (hlength : ks.length = ts.length) (h : deepest ks ≤ levels) :
    shallow levels (ks ++ ls) (ts ++ us) = ts ++ shallow levels ls us := by
  have heq := findIdx_eq_of_shallow h
  simp [shallow, List.findIdx_append, heq, hlength, Nat.add_comm, List.take_length_add_append]

theorem shallow_map_succ : shallow (levels + 1) (ks.map (· + 1)) ts = shallow levels ks ts := by
  simp [shallow, List.findIdx_map, Function.comp_def]

theorem shallow_zero_map_succ (h : ks ≠ []) : shallow 0 (ks.map (· + 1)) ts = [] := by
  cases ks with
  | nil => contradiction
  | cons k ks => simp [shallow, List.findIdx_cons]

theorem firstDeep_append_of_lt (hlength : ks.length = ts.length) (h : levels < deepest ks) :
    firstDeep levels (ks ++ ls) (ts ++ us) = firstDeep levels ks ts := by
  have hlt := findIdx_lt_of_deep h
  rw [firstDeep, List.findIdx_append, if_pos hlt, List.getElem?_append_left (by omega), firstDeep]

theorem firstDeep_append_of_le (hlength : ks.length = ts.length) (h : deepest ks ≤ levels) :
    firstDeep levels (ks ++ ls) (ts ++ us) = firstDeep levels ls us := by
  have heq := findIdx_eq_of_shallow h
  simp [firstDeep, List.findIdx_append, heq, hlength, List.getElem?_append_right]

/-- The shallow tokens end in front of the first deep one. -/
theorem exists_firstDeep (hlength : ks.length = ts.length) (h : levels < deepest ks) :
    ∃ t rest, firstDeep levels ks ts = some t ∧ ts = shallow levels ks ts ++ t :: rest := by
  have hlt : ks.findIdx (levels < ·) < ts.length := hlength ▸ findIdx_lt_of_deep h
  refine ⟨_, ts.drop (ks.findIdx (levels < ·) + 1), List.getElem?_eq_getElem hlt, ?_⟩
  rw [shallow, ← List.drop_eq_getElem_cons hlt, List.take_append_drop]

end Shallow

/-- `Nests phrase ks ts`: the tokens `ts` read as `phrase`, and `ks` says for each of them how many
expressions within the phrase, the phrase itself included, are open around it. -/
inductive Nests : Phrase → List Nat → List Token → Prop
  | number {t : Token} {value : Int} (ht : t.terminal = .number value) :
      Nests (.operand (.number value (Span.over [t]))) [0] [t]
  | reference {t : Token} {name : String} (ht : t.terminal = .identifier name) :
      Nests (.operand (.reference name (Span.over [t]))) [0] [t]
  | call {t l r : Token} {callee : String} {es : List Expr} {ks : List Nat} {ts : List Token}
      (ht : t.terminal = .identifier callee) (hl : l.terminal = .leftParen)
      (hr : r.terminal = .rightParen) (args : Nests (.arguments es) ks ts) :
      Nests (.operand (.call callee es (Span.over (t :: l :: (ts ++ [r])))))
        (0 :: 0 :: (ks ++ [0])) (t :: l :: (ts ++ [r]))
  | group {l r : Token} {e : Expr} {ks : List Nat} {ts : List Token} (hl : l.terminal = .leftParen)
      (hr : r.terminal = .rightParen) (inner : Nests (.expression e) ks ts) :
      Nests (.operand e) (0 :: (ks ++ [0])) (l :: (ts ++ [r]))
  | conditional {i t e : Token} {p a b : Expr} {kp ka kb : List Nat} {ps as bs : List Token}
      (hi : i.terminal = .keyword .ifWord) (ht : t.terminal = .keyword .thenWord)
      (he : e.terminal = .keyword .elseWord) (predicate : Nests (.expression p) kp ps)
      (thenBranch : Nests (.expression a) ka as) (elseBranch : Nests (.expression b) kb bs) :
      Nests (.conditional (.conditional p a b (Span.over (i :: (ps ++ t :: (as ++ e :: bs))))))
        (0 :: (kp ++ 0 :: (ka ++ 0 :: kb))) (i :: (ps ++ t :: (as ++ e :: bs)))
  | lastOperand {e : Expr} {ks : List Nat} {ts : List Token} (last : Nests (.operand e) ks ts) :
      Nests (.chain e []) ks ts
  | lastConditional {e : Expr} {ks : List Nat} {ts : List Token}
      (last : Nests (.conditional e) ks ts) : Nests (.chain e []) ks ts
  | link {o : Token} {op : Operator} {e x : Expr} {rest : List (Operator × Expr)}
      {ks ls : List Nat} {ts us : List Token} (ho : o.terminal = .operator op)
      (binary : op.isBinary = true) (first : Nests (.operand e) ks ts)
      (others : Nests (.chain x rest) ls us) :
      Nests (.chain e ((op, x) :: rest)) (ks ++ 0 :: ls) (ts ++ o :: us)
  | expression {first e : Expr} {rest : List (Operator × Expr)} {ks : List Nat} {ts : List Token}
      (chain : Nests (.chain first rest) ks ts) (tree : ChainTree first rest e) :
      Nests (.expression e) (ks.map (· + 1)) ts
  | noArgument : Nests (.arguments []) [] []
  | lastArgument {e : Expr} {ks : List Nat} {ts : List Token} (last : Nests (.expression e) ks ts) :
      Nests (.arguments [e]) ks ts
  | nextArgument {c : Token} {e x : Expr} {es : List Expr} {ks ls : List Nat} {ts us : List Token}
      (hc : c.terminal = .comma) (next : Nests (.expression e) ks ts)
      (others : Nests (.arguments (x :: es)) ls us) :
      Nests (.arguments (e :: x :: es)) (ks ++ 0 :: ls) (ts ++ c :: us)

theorem Nests.length_eq {phrase : Phrase} {ks : List Nat} {ts : List Token}
    (h : Nests phrase ks ts) : ks.length = ts.length := by
  induction h with
  | _ => simp_all

theorem Nests.derives {phrase : Phrase} {ks : List Nat} {ts : List Token}
    (h : Nests phrase ks ts) : Derives phrase (deepest ks) ts := by
  induction h with
  | number ht => exact .number ht
  | reference ht => exact .reference ht
  | call ht hl hr _ ih => simpa using Derives.call ht hl hr ih
  | group hl hr _ ih => simpa using Derives.group hl hr ih
  | conditional hi ht he _ _ _ ihp iha ihb => simpa using Derives.conditional hi ht he ihp iha ihb
  | lastOperand _ ih => exact .lastOperand ih
  | lastConditional _ ih => exact .lastConditional ih
  | link ho binary _ _ ih ihs => simpa using Derives.link ho binary ih ihs
  | expression chain tree ih =>
    have hne := List.ne_nil_of_length_pos (Nat.zero_lt_of_lt ih.depth_le)
    rw [deepest_map_succ (List.ne_nil_of_length_pos
      (chain.length_eq ▸ List.length_pos_iff.2 hne))]
    exact .expression ih tree
  | noArgument => exact .noArgument
  | lastArgument _ ih => exact .lastArgument ih
  | nextArgument hc _ _ ih ihs => simpa using Derives.nextArgument hc ih ihs

theorem Derives.nests {phrase : Phrase} {d : Nat} {ts : List Token} (h : Derives phrase d ts) :
    ∃ ks, Nests phrase ks ts := by
  induction h with
  | number ht => exact ⟨_, .number ht⟩
  | reference ht => exact ⟨_, .reference ht⟩
  | call ht hl hr _ ih => exact ⟨_, .call ht hl hr ih.choose_spec⟩
  | group hl hr _ ih => exact ⟨_, .group hl hr ih.choose_spec⟩
  | conditional hi ht he _ _ _ ihp iha ihb =>
    exact ⟨_, .conditional hi ht he ihp.choose_spec iha.choose_spec ihb.choose_spec⟩
  | lastOperand _ ih => exact ⟨_, .lastOperand ih.choose_spec⟩
  | lastConditional _ ih => exact ⟨_, .lastConditional ih.choose_spec⟩
  | link ho binary _ _ ih ihs => exact ⟨_, .link ho binary ih.choose_spec ihs.choose_spec⟩
  | expression _ tree ih => exact ⟨_, .expression ih.choose_spec tree⟩
  | noArgument => exact ⟨_, .noArgument⟩
  | lastArgument _ ih => exact ⟨_, .lastArgument ih.choose_spec⟩
  | nextArgument hc _ _ ih ihs => exact ⟨_, .nextArgument hc ih.choose_spec ihs.choose_spec⟩

inductive NestsStatement : Function → List Nat → List Token → Prop
  | definition {k : Token} {p : Prototype} {e : Expr} {ks : List Nat} {ts us : List Token}
      (hk : k.terminal = .keyword .define) (signature : DerivesPrototype p ts)
      (body : Nests (.expression e) ks us) :
      NestsStatement (.definition p e (Span.over (k :: (ts ++ us))))
        (0 :: (List.replicate ts.length 0 ++ ks)) (k :: (ts ++ us))
  | external {k : Token} {p : Prototype} {ts : List Token}
      (hk : k.terminal = .keyword .external) (signature : DerivesPrototype p ts) :
      NestsStatement (.external p (Span.over (k :: ts))) (0 :: List.replicate ts.length 0)
        (k :: ts)
  | anonymous {e : Expr} {ks : List Nat} {ts : List Token} (body : Nests (.expression e) ks ts) :
      NestsStatement (.anonymous e (Span.over ts)) ks ts

section Statement

variable {f : Function} {d : Nat} {ks : List Nat} {ts : List Token}

theorem NestsStatement.length_eq (h : NestsStatement f ks ts) : ks.length = ts.length := by
  cases h with
  | definition _ _ body => simp [body.length_eq]
  | external => simp
  | anonymous body => exact body.length_eq

theorem NestsStatement.derives (h : NestsStatement f ks ts) :
    DerivesStatement f (deepest ks) ts := by
  cases h with
  | definition hk signature body =>
    simpa using DerivesStatement.definition hk signature body.derives
  | external hk signature => simpa using DerivesStatement.external hk signature
  | anonymous body => exact .anonymous body.derives

theorem DerivesStatement.nests (h : DerivesStatement f d ts) : ∃ ks, NestsStatement f ks ts := by
  cases h with
  | definition hk signature body => exact ⟨_, .definition hk signature body.nests.choose_spec⟩
  | external hk signature => exact ⟨_, .external hk signature⟩
  | anonymous body => exact ⟨_, .anonymous body.nests.choose_spec⟩

end Statement

/-- `ReadsProgram fs ks ts`: the tokens `ts` read as the statements `fs` one after another, where
no statement could go on with the first token of the next one. -/
inductive ReadsProgram : List Function → List Nat → List Token → Prop
  | nil : ReadsProgram [] [] []
  | cons {f : Function} {fs : List Function} {ks ls : List Nat} {ts us : List Token}
      (first : NestsStatement f ks ts)
      (ends : f.body?.isSome = true → ∀ next ∈ us.head?, EndsBefore next ts)
      (others : ReadsProgram fs ls us) : ReadsProgram (f :: fs) (ks ++ ls) (ts ++ us)

end ExprLang
