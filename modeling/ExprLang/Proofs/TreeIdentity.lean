import ExprLang.Proofs.Likeness
import ExprLang.Traversal
import Mathlib.Order.Defs.Unbundled

/-!
# Equality but for spans

Two trees are the same exactly when they become one and the same tree by taking all spans out of
them. So sameness is an equivalence, it does not depend on which of several trees that are the same
stands at some place inside another tree, and whatever is computed from a tree without its spans,
as a digest is, agrees on trees that are the same.
-/
namespace ExprLang

theorem Expr.eraseAll_eq_map (es : List Expr) : Expr.eraseAll es = es.map Expr.erase := by
  induction es with
  | nil => rfl
  | cons e es ih => rw [Expr.eraseAll, ih, List.map_cons]

theorem Expr.sameAll_of_length_ne {as bs : List Expr} (h : as.length ≠ bs.length) :
    Expr.sameAll as bs = false := by
  rw [Bool.eq_false_iff, ne_eq, Expr.sameAll_iff, eraseAll_eq_map, eraseAll_eq_map]
  intro heq
  have hlength := congrArg List.length heq
  rw [List.length_map, List.length_map] at hlength
  exact h hlength

section Digests

variable {H : Type} (d : Digest H)

mutual

theorem Expr.digest_erase (e : Expr) : e.erase.digest d = e.digest d := by
  cases e with
  | binary op lhs rhs =>
    rw [Expr.erase, Expr.digest, Expr.digest, Expr.digest_erase lhs, Expr.digest_erase rhs]
  | call callee args =>
    rw [Expr.erase, Expr.digest, Expr.digest, Expr.digestAll_eraseAll args]
  | conditional p t e =>
    rw [Expr.erase, Expr.digest, Expr.digest, Expr.digest_erase p, Expr.digest_erase t,
      Expr.digest_erase e]
  | _ => rfl

theorem Expr.digestAll_eraseAll (es : List Expr) :
    Expr.digestAll d (Expr.eraseAll es) = Expr.digestAll d es := by
  cases es with
  | nil => rfl
  | cons e es =>
    rw [Expr.eraseAll, Expr.digestAll, Expr.digestAll, Expr.digest_erase e,
      Expr.digestAll_eraseAll es]

end

theorem Function.digest_erase (f : Function) : f.erase.digest d = f.digest d := by
  cases f <;> simp only [Function.erase, Function.digest, Prototype.erase, Prototype.digest,
    Expr.digest_erase]

end Digests

namespace Node

variable {a b m n old new : Node}

theorem same_iff (a b : Node) : a.same b = true ↔ a.erase = b.erase := by
  cases a <;> cases b <;>
    simp [same, erase, Expr.same_iff, Prototype.same_iff, Function.same_iff]

theorem digest_erase {H : Type} (d : Digest H) (n : Node) : n.erase.digest d = n.digest d := by
  cases n with
  | expr e => exact e.digest_erase d
  | prototype p => rfl
  | function f => exact f.digest_erase d

theorem nodeClass_erase (n : Node) : n.erase.nodeClass = n.nodeClass := by
  cases n with
  | expr e => cases e <;> rfl
  | prototype p => rfl
  | function f => rfl

/-- `Replaces old new a b`: `b` is `a` with `new` instead of one `old` inside it. -/
inductive Replaces (old new : Node) : Node → Node → Prop
  | here : Replaces old new old new
  | lhs {op : Operator} {a b rhs : Expr} {span : Option Span}
      (inside : Replaces old new (.expr a) (.expr b)) :
      Replaces old new (.expr (.binary op a rhs span)) (.expr (.binary op b rhs span))
  | rhs {op : Operator} {lhs a b : Expr} {span : Option Span}
      (inside : Replaces old new (.expr a) (.expr b)) :
      Replaces old new (.expr (.binary op lhs a span)) (.expr (.binary op lhs b span))
  | argument {callee : String} {a b : Expr} {before after : List Expr} {span : Option Span}
      (inside : Replaces old new (.expr a) (.expr b)) :
      Replaces old new (.expr (.call callee (before ++ a :: after) span))
        (.expr (.call callee (before ++ b :: after) span))
  | predicate {a b t e : Expr} {span : Option Span}
      (inside : Replaces old new (.expr a) (.expr b)) :
      Replaces old new (.expr (.conditional a t e span)) (.expr (.conditional b t e span))
  | thenBranch {p a b e : Expr} {span : Option Span}
      (inside : Replaces old new (.expr a) (.expr b)) :
      Replaces old new (.expr (.conditional p a e span)) (.expr (.conditional p b e span))
  | elseBranch {p t a b : Expr} {span : Option Span}
      (inside : Replaces old new (.expr a) (.expr b)) :
      Replaces old new (.expr (.conditional p t a span)) (.expr (.conditional p t b span))
  | signature {p q : Prototype} {body : Expr} {span : Option Span}
      (inside : Replaces old new (.prototype p) (.prototype q)) :
      Replaces old new (.function (.definition p body span)) (.function (.definition q body span))
  | body {p : Prototype} {a b : Expr} {span : Option Span}
      (inside : Replaces old new (.expr a) (.expr b)) :
      Replaces old new (.function (.definition p a span)) (.function (.definition p b span))
  | declared {p q : Prototype} {span : Option Span}
      (inside : Replaces old new (.prototype p) (.prototype q)) :
      Replaces old new (.function (.external p span)) (.function (.external q span))
  | bare {a b : Expr} {span : Option Span} (inside : Replaces old new (.expr a) (.expr b)) :
      Replaces old new (.function (.anonymous a span)) (.function (.anonymous b span))

theorem Replaces.same (h : Replaces old new a b) (hsame : old.same new = true) :
    a.same b = true := by
  rw [same_iff] at hsame ⊢
  induction h with
  | here => exact hsame
  | _ => simp_all [erase, Expr.erase, Function.erase, Expr.eraseAll_eq_map]

theorem exists_expr_of_same {a : Expr} (h : (expr a).same n = true) : ∃ b, n = expr b := by
  cases n with
  | expr b => exact ⟨b, rfl⟩
  | _ => simp [same] at h

theorem exists_prototype_of_same {p : Prototype} (h : (prototype p).same n = true) :
    ∃ q, n = prototype q := by
  cases n with
  | prototype q => exact ⟨q, rfl⟩
  | _ => simp [same] at h

/-- What a child of an expression gives way to has a place in the expression. -/
theorem exists_replaces_expr {e a b : Expr} (ha : a ∈ e.children)
    (h : Replaces old new (expr a) (expr b)) : ∃ n, Replaces old new (expr e) n := by
  cases e with
  | number | reference => simp [Expr.children] at ha
  | binary op l r span =>
    simp only [Expr.children, List.mem_cons, List.not_mem_nil, or_false] at ha
    rcases ha with rfl | rfl
    · exact ⟨_, .lhs h⟩
    · exact ⟨_, .rhs h⟩
  | call callee args span =>
    obtain ⟨before, after, rfl⟩ := List.append_of_mem ha
    exact ⟨_, .argument h⟩
  | conditional p t e span =>
    simp only [Expr.children, List.mem_cons, List.not_mem_nil, or_false] at ha
    rcases ha with rfl | rfl | rfl
    · exact ⟨_, .predicate h⟩
    · exact ⟨_, .thenBranch h⟩
    · exact ⟨_, .elseBranch h⟩

theorem exists_replaces_child {c c' : Node} (hc : c ∈ n.children) (h : Replaces old new c c')
    (hsame : c.same c' = true) : ∃ b, Replaces old new n b := by
  cases n with
  | expr e =>
    obtain ⟨a, ha, rfl⟩ := List.mem_map.1 hc
    obtain ⟨b, rfl⟩ := exists_expr_of_same hsame
    exact exists_replaces_expr ha h
  | prototype p => simp [children] at hc
  | function f =>
    cases f with
    | definition p body span =>
      simp only [children, List.mem_cons, List.not_mem_nil, or_false] at hc
      rcases hc with rfl | rfl
      · obtain ⟨q, rfl⟩ := exists_prototype_of_same hsame
        exact ⟨_, .signature h⟩
      · obtain ⟨b, rfl⟩ := exists_expr_of_same hsame
        exact ⟨_, .body h⟩
    | external p span =>
      obtain rfl := List.mem_singleton.1 hc
      obtain ⟨q, rfl⟩ := exists_prototype_of_same hsame
      exact ⟨_, .declared h⟩
    | anonymous body span =>
      obtain rfl := List.mem_singleton.1 hc
      obtain ⟨b, rfl⟩ := exists_expr_of_same hsame
      exact ⟨_, .bare h⟩

/-- Every node below another may give way to one that is the same. -/
theorem exists_replaces (hm : m ∈ n.walk) (hsame : m.same new = true) :
    ∃ b, Replaces m new n b := by
  induction n using induction_on_children with
  | h n ih =>
  rw [walk_eq_cons] at hm
  rcases List.mem_cons.1 hm with rfl | hm
  · exact ⟨new, .here⟩
  · obtain ⟨c, hc, hm⟩ := List.mem_flatMap.1 hm
    obtain ⟨c', hreplaces⟩ := ih c hc hm
    exact exists_replaces_child hc hreplaces (hreplaces.same hsame)

end Node

/-- Sameness is equality of the trees without their spans. -/
theorem same_is_equality_without_spans :
    (∀ a b : Node, a.same b = true ↔ a.erase = b.erase) ∧
      Equivalence (fun a b : Node => a.same b = true) ∧
      (∀ a b : Node, a.nodeClass ≠ b.nodeClass → a.same b = false) ∧
      (∀ (callee callee' : String) (as bs : List Expr) (span span' : Option Span),
        as.length ≠ bs.length →
        (Node.expr (.call callee as span)).same (.expr (.call callee' bs span')) = false) ∧
      (∀ p q : Prototype, p.params.length ≠ q.params.length →
        (Node.prototype p).same (.prototype q) = false) ∧
      (∀ n : Node, ∀ old ∈ n.walk, ∀ new : Node, old.same new = true →
        (∃ b, Node.Replaces old new n b) ∧ ∀ b, Node.Replaces old new n b → n.same b = true) ∧
      ∀ (H : Type) (d : Digest H) (a b : Node), a.same b = true → a.digest d = b.digest d := by
  refine ⟨Node.same_iff, ?_, fun a b hclass => ?_,
    fun callee callee' as bs span span' hlength => ?_,
    fun p q hlength => ?_, fun n old hold new hsame => ⟨Node.exists_replaces hold hsame,
      fun b hb => hb.same hsame⟩, fun H d a b hsame => ?_⟩
  · simp only [Node.same_iff]
    exact ⟨fun _ => rfl, Eq.symm, Eq.trans⟩
  · rw [Bool.eq_false_iff, ne_eq, Node.same_iff]
    intro heq
    rw [← a.nodeClass_erase, heq, b.nodeClass_erase] at hclass
    exact hclass rfl
  · rw [Node.same, Expr.same, Expr.sameAll_of_length_ne hlength, Bool.and_false]
  · have hne : p.params ≠ q.params := fun heq => hlength (congrArg List.length heq)
    simp [Node.same, Prototype.same, hne]
  · rw [← a.digest_erase, ← b.digest_erase, (Node.same_iff a b).1 hsame]

/-- A call of one argument, which is known with its place and without, and a call of none. -/
theorem same_is_equality_without_spans_call :
    let place : Location := ⟨"f", 1, 1, 0⟩
    let bare : Expr := .number 1 none
    let located : Expr := .number 1 (some ⟨place, place⟩)
    let call (args : List Expr) : Node := .expr (.call "g" args none)
    let prototype (params : List String) : Node := .prototype ⟨"g", params, none⟩
    ((call [bare]).nodeClass ≠ (prototype ["x"]).nodeClass ∧
        (call [bare]).same (prototype ["x"]) = false) ∧
      ([bare].length ≠ [located, bare].length ∧
        (call [bare]).same (call [located, bare]) = false) ∧
      (["x"].length ≠ ["x", "x"].length ∧
        (prototype ["x"]).same (prototype ["x", "x"]) = false) ∧
      (Node.expr bare ∈ (call [bare]).walk ∧ (Node.expr bare).same (.expr located) = true ∧
        (∃ b, Node.Replaces (.expr bare) (.expr located) (call [bare]) b) ∧
        ∀ b, Node.Replaces (.expr bare) (.expr located) (call [bare]) b →
          (call [bare]).same b = true) ∧
      (call [bare]).same (call [located]) = true ∧
        (call [bare]).digest Digest.word = (call [located]).digest Digest.word := by
  intro place bare located call prototype
  obtain ⟨_, _, hclass, hargs, hparams, hreplace, hdigest⟩ := same_is_equality_without_spans
  have hmem : Node.expr bare ∈ (call [bare]).walk :=
    List.mem_cons_of_mem _ (List.mem_singleton_self _)
  obtain ⟨hexists, hsame⟩ := hreplace (call [bare]) (.expr bare) hmem (.expr located) rfl
  exact ⟨⟨by decide, hclass _ _ (by decide)⟩, ⟨by simp, hargs _ _ _ _ _ _ (by simp)⟩,
    ⟨by simp, hparams _ _ (by simp)⟩, ⟨hmem, rfl, hexists, hsame⟩, rfl, hdigest _ _ _ _ rfl⟩

end ExprLang
