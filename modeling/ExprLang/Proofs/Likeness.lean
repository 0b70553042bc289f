import ExprLang.Reader
import ExprLang.TreeEquality
import Mathlib.Data.List.Forall2

/-!
# Likeness

In what two runs may differ that do the same otherwise. It is said of their tokens and carries
over to the trees that are read from these and to the errors that are about them.
-/
namespace ExprLang

mutual

theorem Expr.same_iff (a b : Expr) : a.same b = true ↔ a.erase = b.erase := by
  cases a with
  | binary op l r span =>
    cases b <;> simp [Expr.same, Expr.erase, Expr.same_iff l, Expr.same_iff r, and_assoc]
  | call callee args span =>
    cases b <;> simp [Expr.same, Expr.erase, Expr.sameAll_iff args]
  | conditional p t e span =>
    cases b <;> simp [Expr.same, Expr.erase, Expr.same_iff p, Expr.same_iff t, Expr.same_iff e,
      and_assoc]
  | _ => cases b <;> simp [Expr.same, Expr.erase]

theorem Expr.sameAll_iff (as bs : List Expr) :
    Expr.sameAll as bs = true ↔ Expr.eraseAll as = Expr.eraseAll bs := by
  cases as with
  | nil => cases bs <;> simp [Expr.sameAll, Expr.eraseAll]
  | cons a as =>
    cases bs <;>
      simp [Expr.sameAll, Expr.eraseAll, Expr.same_iff a, Expr.sameAll_iff as]

end

theorem Prototype.same_iff (p q : Prototype) : p.same q = true ↔ p.erase = q.erase := by
  simp [Prototype.same, Prototype.erase]

theorem Function.same_iff (f g : Function) : f.same g = true ↔ f.erase = g.erase := by
  cases f <;> cases g <;>
    simp [Function.same, Function.erase, Expr.same_iff, Prototype.same_iff]

theorem Function.sameAll_of_forall₂ {fs gs : List Function}
    (h : List.Forall₂ (fun f g => f.same g = true) fs gs) : Function.sameAll fs gs = true := by
  induction h with
  | nil => rfl
  | cons hfg _ ih => rw [Function.sameAll, hfg, ih, Bool.and_self]

/-- When the tokens of two runs count as alike. They stand for the same terminal, and at the same
place if places are compared. -/
structure Likeness where
  token : Token → Token → Prop
  places : Prop
  refl : ∀ t, token t t
  terminal_eq : ∀ {t u}, token t u → t.terminal = u.terminal
  location_eq : ∀ {t u}, places → token t u → t.location = u.location

namespace Likeness

def exact : Likeness where
  token := Eq
  places := True
  refl _ := rfl
  terminal_eq h := congrArg Token.terminal h
  location_eq _ h := congrArg Token.location h

/-- Tokens at any places, and with any texts unless `texts` holds. -/
def layout (texts : Prop) : Likeness where
  token t u := t.terminal = u.terminal ∧ (texts → t.lexeme = u.lexeme)
  places := False
  refl _ := ⟨rfl, fun _ => rfl⟩
  terminal_eq h := h.1
  location_eq h := h.elim

variable (like : Likeness) {t u t' u' : Token}

def span (s s' : Span) : Prop := like.places → s = s'

/-- Equal after `erase`, which takes out the spans, and equal at once if places are compared. -/
def UpTo {α : Type} (erase : α → α) (a b : α) : Prop := erase a = erase b ∧ (like.places → a = b)

inductive SameFailure : Failure → Failure → Prop
  | scan (e : ScanError) : SameFailure (.scan e) (.scan e)
  | grammar {x y : SyntaxError} (fault : x.fault = y.fault) (token : like.token x.token y.token) :
      SameFailure (.grammar x) (.grammar y)

def Texts : Prop := ∀ {t u}, like.token t u → t.lexeme = u.lexeme

instance : Std.Refl like.token := ⟨like.refl⟩

instance : Std.Refl like.span := ⟨fun _ _ => rfl⟩

instance {α : Type} (erase : α → α) : Std.Refl (like.UpTo erase) := ⟨fun _ => ⟨rfl, fun _ => rfl⟩⟩

variable {like}

theorem kind_eq (h : like.token t u) : t.kind = u.kind := by
  rw [Token.kind, Token.kind, like.terminal_eq h]

theorem isEnd_eq (h : like.token t u) : t.isEnd = u.isEnd := by
  rw [Token.isEnd, Token.isEnd, like.terminal_eq h]

theorem operator?_eq (h : like.token t u) : t.operator? = u.operator? := by
  rw [Token.operator?, Token.operator?, like.terminal_eq h]

theorem span_of (h : like.token t u) (h' : like.token t' u') :
    like.span ⟨t.location, t'.location⟩ ⟨u.location, u'.location⟩ := fun hplaces => by
  rw [like.location_eq hplaces h, like.location_eq hplaces h']

theorem sameFailure_ofFault (fault : SyntaxFault) (h : like.token t u) :
    like.SameFailure (.grammar (.ofFault fault t)) (.grammar (.ofFault fault u)) := by
  unfold SyntaxError.ofFault
  rw [isEnd_eq h]
  cases u.isEnd <;> cases fault.wanted? <;> exact .grammar rfl h

theorem binary {lhs lhs' rhs rhs' : Expr} (op : Operator)
    (hl : like.UpTo Expr.erase lhs lhs') (hr : like.UpTo Expr.erase rhs rhs') :
    like.UpTo Expr.erase (.binary op lhs rhs (Span.join lhs.span rhs.span))
      (.binary op lhs' rhs' (Span.join lhs'.span rhs'.span)) :=
  ⟨by rw [Expr.erase, Expr.erase, hl.1, hr.1],
    fun hplaces => by rw [hl.2 hplaces, hr.2 hplaces]⟩

theorem lexemes_eq {ts us : List Token} (htexts : like.Texts)
    (h : List.Forall₂ like.token ts us) : ts.map Token.lexeme = us.map Token.lexeme := by
  induction h with
  | nil => rfl
  | cons hhead _ ih => rw [List.map_cons, List.map_cons, htexts hhead, ih]

theorem exact_upTo {α : Type} {erase : α → α} {a b : α} : exact.UpTo erase a b ↔ a = b :=
  ⟨fun h => h.2 trivial, fun h => ⟨congrArg erase h, fun _ => h⟩⟩

theorem exact_sameFailure {e e' : Failure} : exact.SameFailure e e' ↔ e = e' := by
  constructor
  · intro h
    cases h with
    | scan => rfl
    | @grammar x y fault token =>
      obtain ⟨_, _⟩ := x
      obtain rfl : _ = _ := fault
      obtain rfl : _ = _ := token
      rfl
  · rintro rfl
    cases e with
    | scan e => exact .scan e
    | grammar x => exact .grammar rfl rfl

end Likeness
end ExprLang
