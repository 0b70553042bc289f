import ExprLang.SExpression
import ExprLang.Proofs.WellFormed

/-!
# Trees that are told by their s-expressions

The s-expression of a tree is read in one way only, as long as names are words and numbers are not
negative. A printed tree is a word or a list that begins with a word. Blanks and parentheses end
words and are in none, so what is printed in front of anything that ends a word determines the
printed tree, and the printed tree determines everything in the tree but its spans.
-/
namespace ExprLang

def endsWord (c : Char) : Bool := c == ' ' || c == '(' || c == ')'

/-- Some text that does not begin inside a word. -/
def Apart (text : List Char) : Prop := ∀ c, text.head? = some c → endsWord c = true

structure Unbroken (word : String) : Prop where
  ne_nil : word.toList ≠ []
  inside : ∀ c ∈ word.toList, endsWord c = false

instance (word : String) : Decidable (Unbroken word) :=
  decidable_of_iff (word.toList ≠ [] ∧ word.toList.any endsWord = false)
    ⟨fun h => ⟨h.1, by simpa using h.2⟩, fun h => ⟨h.ne_nil, by simpa using h.inside⟩⟩

theorem takeWhile_word {word tail : List Char} (h : ∀ c ∈ word, endsWord c = false)
    (htail : Apart tail) : (word ++ tail).takeWhile (fun c => !endsWord c) = word := by
  have hnil : tail.takeWhile (fun c => !endsWord c) = [] := by
    cases tail with
    | nil => rfl
    | cons c tail => simp [htail c rfl]
  rw [List.takeWhile_append_of_pos (by simpa using h), hnil, List.append_nil]

/-- A word reaches as far as no character ends it. -/
theorem Unbroken.eq_of_append {word word' : String} {u v : List Char} (h : Unbroken word)
    (h' : Unbroken word') (hu : Apart u) (hv : Apart v)
    (heq : word.toList ++ u = word'.toList ++ v) : word = word' ∧ u = v := by
  have hword : word.toList = word'.toList := by
    rw [← takeWhile_word h.inside hu, heq, takeWhile_word h'.inside hv]
  rw [hword] at heq
  exact ⟨String.toList_inj.1 hword, List.append_cancel_left heq⟩

theorem Unbroken.ne_paren {word : String} {u v : List Char} (h : Unbroken word) :
    word.toList ++ u ≠ '(' :: v := by
  intro heq
  obtain ⟨c, cs, hcs⟩ := List.exists_cons_of_ne_nil h.ne_nil
  rw [hcs, List.cons_append, List.cons.injEq] at heq
  have hinside := h.inside c (by simp [hcs])
  rw [heq.1] at hinside
  simp [endsWord] at hinside

/-- What is printed for a tree: a word, or a list that begins with one. -/
inductive Shape
  | leaf (word : String)
  | list (head : String) (items : List Shape)

namespace Shape

mutual

def chars : Shape → List Char
  | .leaf word => word.toList
  | .list head items => '(' :: (head.toList ++ (charsAll items ++ [')']))

def charsAll : List Shape → List Char
  | [] => []
  | x :: xs => ' ' :: (x.chars ++ charsAll xs)

end

/-- All words in it are words indeed. -/
inductive Legible : Shape → Prop
  | leaf {word : String} (h : Unbroken word) : Legible (.leaf word)
  | list {head : String} {items : List Shape} (h : Unbroken head)
      (others : ∀ x ∈ items, Legible x) : Legible (.list head items)

theorem apart_charsAll (xs : List Shape) (tail : List Char) :
    Apart (charsAll xs ++ ')' :: tail) := by
  intro c hc
  cases xs <;> simp only [charsAll, List.nil_append, List.cons_append, List.head?_cons,
    Option.some.injEq] at hc <;> rw [← hc] <;> rfl

mutual

/-- What stands in front of a text that ends words is read as one tree only. -/
theorem eq_of_chars {x y : Shape} {u v : List Char} (hx : x.Legible) (hy : y.Legible)
    (hu : Apart u) (hv : Apart v) (h : x.chars ++ u = y.chars ++ v) : x = y ∧ u = v := by
  cases hx with
  | leaf hword =>
    cases hy with
    | leaf hword' =>
      obtain ⟨rfl, rfl⟩ := hword.eq_of_append hword' hu hv h
      exact ⟨rfl, rfl⟩
    | list => exact absurd h hword.ne_paren
  | @list head items hhead hitems =>
    cases hy with
    | leaf hword' => exact absurd h.symm hword'.ne_paren
    | @list head' items' hhead' hitems' =>
      simp only [chars, List.cons_append, List.append_assoc, List.nil_append, List.cons.injEq,
        true_and] at h
      obtain ⟨rfl, hrest⟩ := hhead.eq_of_append hhead' (apart_charsAll _ _) (apart_charsAll _ _) h
      obtain ⟨rfl, rfl⟩ := eq_of_charsAll hitems hitems' hrest
      exact ⟨rfl, rfl⟩

theorem eq_of_charsAll {xs ys : List Shape} {u v : List Char} (hxs : ∀ x ∈ xs, Legible x)
    (hys : ∀ y ∈ ys, Legible y) (h : charsAll xs ++ ')' :: u = charsAll ys ++ ')' :: v) :
    xs = ys ∧ u = v := by
  cases xs with
  | nil =>
    cases ys with
    | nil => simpa [charsAll] using h
    | cons => simp [charsAll] at h
  | cons x xs =>
    cases ys with
    | nil => simp [charsAll] at h
    | cons y ys =>
      rw [List.forall_mem_cons] at hxs hys
      simp only [charsAll, List.cons_append, List.append_assoc, List.cons.injEq, true_and] at h
      obtain ⟨rfl, hrest⟩ := eq_of_chars hxs.1 hys.1 (apart_charsAll _ _) (apart_charsAll _ _) h
      obtain ⟨rfl, rfl⟩ := eq_of_charsAll hxs.2 hys.2 hrest
      exact ⟨rfl, rfl⟩

end

theorem chars_inj {x y : Shape} (hx : x.Legible) (hy : y.Legible) :
    x.chars = y.chars ↔ x = y := by
  refine ⟨fun h => ?_, congrArg chars⟩
  have hnil : Apart [] := by simp [Apart]
  exact (eq_of_chars hx hy hnil hnil (by rw [h])).1

end Shape

mutual

def Expr.shape : Expr → Shape
  | .number value _ => .leaf (toString value)
  | .reference name _ => .leaf name
  | .binary op lhs rhs _ => .list op.symbol [lhs.shape, rhs.shape]
  | .call callee args _ => .list "call" (.leaf callee :: Expr.shapes args)
  | .conditional p t e _ => .list "if" [p.shape, t.shape, e.shape]

def Expr.shapes : List Expr → List Shape
  | [] => []
  | e :: es => e.shape :: Expr.shapes es

end

def Prototype.shape (p : Prototype) : Shape := .list p.name (p.params.map .leaf)

def Function.shape : Function → Shape
  | .definition p body _ => .list "def" [p.shape, body.shape]
  | .external p _ => .list "extern" [p.shape]
  | .anonymous body _ => .list "anon" [body.shape]

theorem toList_intercalate {head : String} {items : List String} {xs : List Shape}
    (h : items.map String.toList = xs.map Shape.chars) :
    (" ".intercalate (head :: items)).toList = head.toList ++ Shape.charsAll xs := by
  induction items generalizing head xs with
  | nil =>
    cases xs with
    | nil => simp [Shape.charsAll]
    | cons => simp at h
  | cons item items ih =>
    cases xs with
    | nil => simp at h
    | cons x xs =>
      simp only [List.map_cons, List.cons.injEq] at h
      rw [String.intercalate_cons_cons, String.toList_append, String.toList_append, ih h.2, h.1]
      simp [Shape.charsAll]

theorem toList_parenthesized {head : String} {items : List String} {xs : List Shape}
    (h : items.map String.toList = xs.map Shape.chars) :
    (parenthesized (head :: items)).toList = (Shape.list head xs).chars := by
  simp [parenthesized, toList_intercalate h, Shape.chars]

mutual

theorem Expr.toList_sexpr (e : Expr) : e.sexpr.toList = e.shape.chars := by
  cases e with
  | number | reference => rfl
  | binary op l r span =>
    rw [Expr.sexpr, Expr.shape]
    exact toList_parenthesized (by simp [l.toList_sexpr, r.toList_sexpr])
  | call callee args span =>
    rw [Expr.sexpr, Expr.shape]
    exact toList_parenthesized (by simp [Shape.chars, Expr.toList_sexprs args])
  | conditional p t e span =>
    rw [Expr.sexpr, Expr.shape]
    exact toList_parenthesized (by simp [p.toList_sexpr, t.toList_sexpr, e.toList_sexpr])

theorem Expr.toList_sexprs (es : List Expr) :
    (Expr.sexprs es).map String.toList = (Expr.shapes es).map Shape.chars := by
  cases es with
  | nil => rfl
  | cons e es => simp [Expr.sexprs, Expr.shapes, e.toList_sexpr, Expr.toList_sexprs es]

end

theorem Prototype.toList_sexpr (p : Prototype) : p.sexpr.toList = p.shape.chars :=
  toList_parenthesized (by simp [Shape.chars, Function.comp_def])

theorem Function.toList_sexpr (f : Function) : f.sexpr.toList = f.shape.chars := by
  cases f <;> rw [Function.sexpr, Function.shape] <;>
    exact toList_parenthesized (by simp [Prototype.toList_sexpr, Expr.toList_sexpr])

/-- The names of a node are words, and its number is not negative. -/
def Node.Legible : Node → Prop
  | .expr (.number value _) => 0 ≤ value
  | .expr (.reference name _) => IsWord name
  | .expr (.call callee _ _) => IsWord callee
  | .prototype p => IsWord p.name ∧ ∀ param ∈ p.params, IsWord param
  | _ => True

def Node.AllLegible (n : Node) : Prop := ∀ m ∈ n.walk, m.Legible

theorem Node.allLegible_iff {n : Node} :
    n.AllLegible ↔ n.Legible ∧ ∀ c ∈ n.children, c.AllLegible := forall_mem_walk

theorem Node.allLegible_number {value : Int} {span : Option Span} :
    (Node.expr (.number value span)).AllLegible ↔ 0 ≤ value := by
  simp [allLegible_iff (n := .expr (.number value span)), Legible, children, Expr.children]

theorem Node.allLegible_reference {name : String} {span : Option Span} :
    (Node.expr (.reference name span)).AllLegible ↔ IsWord name := by
  simp [allLegible_iff (n := .expr (.reference name span)), Legible, children, Expr.children]

theorem Node.allLegible_binary {op : Operator} {l r : Expr} {span : Option Span} :
    (Node.expr (.binary op l r span)).AllLegible ↔
      (Node.expr l).AllLegible ∧ (Node.expr r).AllLegible := by
  simp [allLegible_iff (n := .expr (.binary op l r span)), Legible, children, Expr.children]

theorem Node.allLegible_call {callee : String} {args : List Expr} {span : Option Span} :
    (Node.expr (.call callee args span)).AllLegible ↔
      IsWord callee ∧ ∀ e ∈ args, (Node.expr e).AllLegible := by
  simp [allLegible_iff (n := .expr (.call callee args span)), Legible, children, Expr.children]

theorem Node.allLegible_conditional {p t e : Expr} {span : Option Span} :
    (Node.expr (.conditional p t e span)).AllLegible ↔
      (Node.expr p).AllLegible ∧ (Node.expr t).AllLegible ∧ (Node.expr e).AllLegible := by
  simp [allLegible_iff (n := .expr (.conditional p t e span)), Legible, children, Expr.children]

theorem Node.allLegible_prototype {p : Prototype} :
    (Node.prototype p).AllLegible ↔ IsWord p.name ∧ ∀ param ∈ p.params, IsWord param := by
  simp [allLegible_iff (n := .prototype p), Legible, children]

theorem Node.AllProper.allLegible {bits : Nat} {n : Node} (h : n.AllProper bits) :
    n.AllLegible := by
  intro m hm
  have hproper := h m hm
  cases m with
  | expr e =>
    cases e with
    | number => exact hproper.1
    | reference | call => exact hproper.toIsWord
    | _ => trivial
  | prototype p => exact ⟨hproper.1.toIsWord, fun param hparam => (hproper.2 param hparam).toIsWord⟩
  | function => trivial

theorem endsWord_of_isAlphanum {c : Char} (h : c.isAlphanum = true) : endsWord c = false := by
  cases hends : endsWord c with
  | false => rfl
  | true =>
    have hmem : (c = ' ' ∨ c = '(') ∨ c = ')' := by simpa [endsWord] using hends
    rcases hmem with (rfl | rfl) | rfl <;> revert h <;> decide

theorem IsWord.unbroken {word : String} (h : IsWord word) : Unbroken word where
  ne_nil := by simpa using h.ne_empty
  inside c hc := endsWord_of_isAlphanum (List.all_eq_true.1 h.inside c hc)

theorem toList_toString (n : Nat) : (toString (n : Int)).toList = Nat.toDigits 10 n := by
  have htext : toString (n : Int) = toString n := rfl
  rw [htext, Nat.toString_eq_repr, Nat.repr_eq_ofList_toDigits, String.toList_ofList]

theorem isDigit_of_mem_toString {n : Nat} {c : Char} (h : c ∈ (toString (n : Int)).toList) :
    c.isDigit = true := by
  rw [toList_toString] at h
  exact Nat.isDigit_of_mem_toDigits (by decide) (by decide) h

theorem unbroken_toString {value : Int} (h : 0 ≤ value) : Unbroken (toString value) := by
  obtain ⟨n, rfl⟩ := Int.eq_ofNat_of_zero_le h
  refine ⟨?_, fun c hc => endsWord_of_isAlphanum ?_⟩
  · rw [toList_toString]
    exact Nat.toDigits_ne_nil
  · rw [Char.isAlphanum, isDigit_of_mem_toString hc, Bool.or_true]

theorem toString_inj {value value' : Int} (h : 0 ≤ value) (h' : 0 ≤ value') :
    toString value = toString value' ↔ value = value' := by
  refine ⟨fun heq => ?_, congrArg toString⟩
  obtain ⟨n, rfl⟩ := Int.eq_ofNat_of_zero_le h
  obtain ⟨m, rfl⟩ := Int.eq_ofNat_of_zero_le h'
  have hdigits : Nat.toDigits 10 n = Nat.toDigits 10 m := by
    rw [← toList_toString, ← toList_toString, heq]
  have hvalue := congrArg (Nat.ofDigitChars 10 · 0) hdigits
  exact congrArg Nat.cast (by simpa using hvalue)

/-- A number begins with a digit and a name with a letter. -/
theorem IsWord.ne_toString {word : String} {value : Int} (h : IsWord word) (hvalue : 0 ≤ value) :
    toString value ≠ word := by
  rintro rfl
  obtain ⟨n, rfl⟩ := Int.eq_ofNat_of_zero_le hvalue
  obtain ⟨c, hc, halpha⟩ := (Option.any_eq_true _ _).1 h.begins
  have hdigit := isDigit_of_mem_toString (List.mem_of_head? hc)
  rw [Byte.isAlpha_iff_toNat] at halpha
  have hrange := Byte.toNat_of_isDigit hdigit
  omega

theorem unbroken_symbol (op : Operator) : Unbroken op.symbol := by
  cases op <;> decide

mutual

theorem Expr.legible_shape {e : Expr} (h : (Node.expr e).AllLegible) : e.shape.Legible := by
  cases e with
  | number => exact .leaf (unbroken_toString (Node.allLegible_number.1 h))
  | reference => exact .leaf (Node.allLegible_reference.1 h).unbroken
  | binary op =>
    obtain ⟨hl, hr⟩ := Node.allLegible_binary.1 h
    exact .list (unbroken_symbol op) (by simpa using ⟨legible_shape hl, legible_shape hr⟩)
  | call =>
    obtain ⟨hcallee, hargs⟩ := Node.allLegible_call.1 h
    refine .list (by decide) ?_
    exact List.forall_mem_cons.2 ⟨.leaf hcallee.unbroken, legible_shapes hargs⟩
  | conditional =>
    obtain ⟨hp, ht, he⟩ := Node.allLegible_conditional.1 h
    refine .list (by decide) ?_
    simpa using ⟨legible_shape hp, legible_shape ht, legible_shape he⟩

theorem Expr.legible_shapes {es : List Expr} (h : ∀ e ∈ es, (Node.expr e).AllLegible) :
    ∀ x ∈ Expr.shapes es, x.Legible := by
  cases es with
  | nil => simp [Expr.shapes]
  | cons e es =>
    rw [List.forall_mem_cons] at h
    exact List.forall_mem_cons.2 ⟨Expr.legible_shape h.1, Expr.legible_shapes h.2⟩

end

theorem symbol_ne_head (op : Operator) : op.symbol ≠ "call" ∧ op.symbol ≠ "if" := by
  cases op <;> decide

mutual

/-- Trees with the same printed form differ in their spans only. -/
theorem Expr.shape_inj {a b : Expr} (ha : (Node.expr a).AllLegible)
    (hb : (Node.expr b).AllLegible) : a.shape = b.shape ↔ a.same b = true := by
  cases a with
  | number value =>
    have hvalue := Node.allLegible_number.1 ha
    cases b with
    | number value' =>
      have hvalue' := Node.allLegible_number.1 hb
      simp only [shape, same, Shape.leaf.injEq, toString_inj hvalue hvalue', beq_iff_eq]
    | reference name =>
      have hname := Node.allLegible_reference.1 hb
      simp only [shape, same, Shape.leaf.injEq, hname.ne_toString hvalue, Bool.false_eq_true]
    | _ => simp [shape, same]
  | reference name =>
    have hname := Node.allLegible_reference.1 ha
    cases b with
    | number value =>
      have hvalue := Node.allLegible_number.1 hb
      simp only [shape, same, Shape.leaf.injEq, (hname.ne_toString hvalue).symm,
        Bool.false_eq_true]
    | _ => simp [shape, same]
  | binary op l r =>
    obtain ⟨hl, hr⟩ := Node.allLegible_binary.1 ha
    cases b with
    | binary op' l' r' =>
      obtain ⟨hl', hr'⟩ := Node.allLegible_binary.1 hb
      simp [shape, same, shape_inj hl hl', shape_inj hr hr', Operator.symbol_injective.eq_iff,
        and_assoc]
    | _ => simp [shape, same, symbol_ne_head]
  | call callee args =>
    obtain ⟨_, hargs⟩ := Node.allLegible_call.1 ha
    cases b with
    | call callee' args' =>
      obtain ⟨_, hargs'⟩ := Node.allLegible_call.1 hb
      simp [shape, same, shapes_inj hargs hargs']
    | binary op => simp [shape, same, (symbol_ne_head op).1.symm]
    | _ => simp [shape, same]
  | conditional p t e =>
    obtain ⟨hp, ht, he⟩ := Node.allLegible_conditional.1 ha
    cases b with
    | conditional p' t' e' =>
      obtain ⟨hp', ht', he'⟩ := Node.allLegible_conditional.1 hb
      simp [shape, same, shape_inj hp hp', shape_inj ht ht', shape_inj he he', and_assoc]
    | binary op => simp [shape, same, (symbol_ne_head op).2.symm]
    | _ => simp [shape, same]

theorem Expr.shapes_inj {as bs : List Expr} (ha : ∀ a ∈ as, (Node.expr a).AllLegible)
    (hb : ∀ b ∈ bs, (Node.expr b).AllLegible) :
    Expr.shapes as = Expr.shapes bs ↔ Expr.sameAll as bs = true := by
  cases as with
  | nil => cases bs <;> simp [Expr.shapes, Expr.sameAll]
  | cons a as =>
    rw [List.forall_mem_cons] at ha
    cases bs with
    | nil => simp [Expr.shapes, Expr.sameAll]
    | cons b bs =>
      rw [List.forall_mem_cons] at hb
      simp [Expr.shapes, Expr.sameAll, Expr.shape_inj ha.1 hb.1, Expr.shapes_inj ha.2 hb.2]

end

theorem Prototype.legible_shape {p : Prototype} (h : (Node.prototype p).AllLegible) :
    p.shape.Legible := by
  obtain ⟨hname, hparams⟩ := Node.allLegible_prototype.1 h
  exact .list hname.unbroken (List.forall_mem_map.2 fun param hparam =>
    .leaf (hparams param hparam).unbroken)

theorem Prototype.shape_inj (p q : Prototype) : p.shape = q.shape ↔ p.same q = true := by
  have hleaf : Function.Injective Shape.leaf := fun _ _ => Shape.leaf.inj
  simp [shape, same, (List.map_injective_iff.2 hleaf).eq_iff]

theorem Function.legible_shape {f : Function} (h : (Node.function f).AllLegible) :
    f.shape.Legible := by
  obtain ⟨_, hchildren⟩ := Node.allLegible_iff.1 h
  cases f with
  | definition p body =>
    have hp := Prototype.legible_shape (hchildren (.prototype p) (by simp [Node.children]))
    have hbody := Expr.legible_shape (hchildren (.expr body) (by simp [Node.children]))
    exact .list (by decide) (by simpa using ⟨hp, hbody⟩)
  | external p =>
    have hp := Prototype.legible_shape (hchildren (.prototype p) (by simp [Node.children]))
    exact .list (by decide) (by simpa using hp)
  | anonymous body =>
    have hbody := Expr.legible_shape (hchildren (.expr body) (by simp [Node.children]))
    exact .list (by decide) (by simpa using hbody)

theorem Function.shape_inj {f g : Function} (hf : (Node.function f).AllLegible)
    (hg : (Node.function g).AllLegible) : f.shape = g.shape ↔ f.same g = true := by
  obtain ⟨_, hf⟩ := Node.allLegible_iff.1 hf
  obtain ⟨_, hg⟩ := Node.allLegible_iff.1 hg
  cases f with
  | definition p body =>
    cases g with
    | definition q body' =>
      have hbody := Expr.shape_inj (hf (.expr body) (by simp [Node.children]))
        (hg (.expr body') (by simp [Node.children]))
      simp [shape, same, Prototype.shape_inj, hbody]
    | _ => simp [shape, same]
  | external p => cases g <;> simp [shape, same, Prototype.shape_inj]
  | anonymous body =>
    cases g with
    | anonymous body' =>
      have hbody := Expr.shape_inj (hf (.expr body) (by simp [Node.children]))
        (hg (.expr body') (by simp [Node.children]))
      simp [shape, same, hbody]
    | _ => simp [shape, same]

theorem Expr.sexpr_inj {a b : Expr} (ha : (Node.expr a).AllLegible)
    (hb : (Node.expr b).AllLegible) : a.sexpr = b.sexpr ↔ a.same b = true := by
  rw [← String.toList_inj, a.toList_sexpr, b.toList_sexpr,
    Shape.chars_inj (legible_shape ha) (legible_shape hb), shape_inj ha hb]

theorem Function.sexpr_inj {f g : Function} (hf : (Node.function f).AllLegible)
    (hg : (Node.function g).AllLegible) : f.sexpr = g.sexpr ↔ f.same g = true := by
  rw [← String.toList_inj, f.toList_sexpr, g.toList_sexpr,
    Shape.chars_inj (legible_shape hf) (legible_shape hg), shape_inj hf hg]

namespace Parser

/-- What a parser delivers is legible, whatever source its scanner reads. -/
theorem allLegible_of_next {s : Scanner} (hs : s.ended = none) {maxDepth : Int}
    {p q : Parser Scanner} (hp : start maxDepth s = .ok p) {n : Nat} {f : Function}
    (h : (p.after n).next = (.ok (some f), q)) : (Node.function f).AllLegible := by
  obtain ⟨ts, failure, hyields⟩ := Scanner.exists_yields s
  obtain ⟨before, us, behind, hts, _, d, _, hderives⟩ := Serves.exists_stretch hyields hp h
  have hproper := (hyields.spells hs).proper
  apply Node.AllProper.allLegible
  apply hderives.allProper
  exact fun t ht => hproper t (by simp [hts, ht])

end Parser

/-- The printer loses nothing but the spans: it prints two functions, or two expressions, alike
exactly when they are the same, if names are words and numbers are not negative. So they are in
everything that a parser delivers. -/
theorem printing_loses_nothing :
    (∀ f g : Function, (Node.function f).AllLegible → (Node.function g).AllLegible →
      (f.sexpr = g.sexpr ↔ f.same g = true)) ∧
    (∀ a b : Expr, (Node.expr a).AllLegible → (Node.expr b).AllLegible →
      (a.sexpr = b.sexpr ↔ a.same b = true)) ∧
    ∀ (file : String) (bits maxDepth : Int) (bytes : List UInt8) (s : Scanner)
      (p q : Parser Scanner) (n : Nat) (f : Function), Scanner.start file bits bytes = .ok s →
      Parser.start maxDepth s = .ok p → (p.after n).next = (.ok (some f), q) →
      (Node.function f).AllLegible := by
  refine ⟨fun f g hf hg => Function.sexpr_inj hf hg, fun a b ha hb => Expr.sexpr_inj ha hb, ?_⟩
  intro file bits maxDepth bytes s p q n f hs hp hnext
  obtain rfl := Scanner.eq_ofBytes_of_start hs
  exact Parser.allLegible_of_next rfl hp hnext

/-- Names that are keywords or head a list, and a number that parsing delivers. -/
theorem printing_loses_nothing_call :
    (Node.function (.external ⟨"def", ["if"], none⟩ none)).AllLegible ∧
      (Node.function (.anonymous (.reference "call" none) none)).AllLegible ∧
      ((Function.external ⟨"def", ["if"], none⟩ none).sexpr =
          (Function.anonymous (.reference "call" none) none).sexpr ↔
        (Function.external ⟨"def", ["if"], none⟩ none).same
          (.anonymous (.reference "call" none) none) = true) ∧
      (Node.expr (.reference "call" none)).AllLegible ∧
      (Node.expr (.number 7 none)).AllLegible ∧
      ((Expr.reference "call" none).sexpr = (Expr.number 7 none).sexpr ↔
        (Expr.reference "call" none).same (.number 7 none) = true) ∧
      ∃ s p f q, Scanner.start "f" 64 [0x37] = .ok s ∧ Parser.start 1 s = .ok p ∧
        p.next = (.ok (some f), q) ∧ (Node.function f).AllLegible := by
  have hname : (Node.expr (.reference "call" none)).AllLegible :=
    Node.allLegible_reference.2 (by decide)
  have hnumber : (Node.expr (.number 7 none)).AllLegible := Node.allLegible_number.2 (by decide)
  have hprototype : (Node.prototype ⟨"def", ["if"], none⟩).AllLegible :=
    Node.allLegible_prototype.2 ⟨by decide, by decide⟩
  have hexternal : (Node.function (.external ⟨"def", ["if"], none⟩ none)).AllLegible :=
    Node.allLegible_iff.2 ⟨trivial, by simpa [Node.children] using hprototype⟩
  have hanonymous : (Node.function (.anonymous (.reference "call" none) none)).AllLegible :=
    Node.allLegible_iff.2 ⟨trivial, by simpa [Node.children] using hname⟩
  obtain ⟨hfunctions, hexprs, hdelivered⟩ := printing_loses_nothing
  exact ⟨hexternal, hanonymous, hfunctions _ _ hexternal hanonymous, hname, hnumber,
    hexprs _ _ hname hnumber, _, _, _, _, rfl, rfl, rfl,
    hdelivered "f" 64 1 [0x37] _ _ _ 0 _ rfl rfl rfl⟩

end ExprLang
