import ExprLang.Reader
import ExprLang.Traversal

/-!
# Hosts

A parser runs on a host that has limits of its own. It may refuse to write a number of very many
digits, and its stack has room for so many levels of a tree that is printed and for so many
expressions that are open at once. What is counted are these levels, not the frames of a stack: how
many frames a level takes is the affair of the host.
-/
namespace ExprLang

/-- What there is room for; a bound that is missing is none. A bound on the digits of numbers is
never less than a few hundred. -/
structure Host where
  digits : Option Nat
  levels : Option Nat
  nesting : Option Nat
  enough : ∀ most ∈ digits, 640 ≤ most
  deriving DecidableEq, Repr

inductive Shortage
  | digits
  | stack
  deriving DecidableEq, Repr

/-- Why a request on a host is not answered: a failure of what was asked, or a shortage. -/
inductive Refusal (ε : Type)
  | failure (e : ε)
  | shortage (s : Shortage)
  deriving DecidableEq, Repr

def Node.number? : Node → Option Int
  | .expr (.number value _) => some value
  | _ => none

def Failure.numbers : Failure → List Int
  | scan e => e.fault.numbers
  | grammar e => e.numbers

namespace Host

def unbounded : Host := ⟨none, none, none, by simp⟩

def writing (most : Nat) (h : 640 ≤ most) : Host := ⟨some most, none, none, by simpa using h⟩

def writes (h : Host) (n : Int) : Bool :=
  h.digits.all fun most => (Nat.toDigits 10 n.natAbs).length ≤ most

theorem writes_iff {h : Host} {n : Int} :
    h.writes n = true ↔ ∀ most ∈ h.digits, n.natAbs < Nat.pow 10 most := by
  unfold writes
  cases hdigits : h.digits with
  | none => simp
  | some most =>
    have henough : 640 ≤ most := h.enough most (by simp [hdigits])
    simpa using Nat.length_toDigits_le_iff (b := 10) (n := n.natAbs) (by decide) (by omega)

theorem writes_writing {most : Nat} {h : 640 ≤ most} {n : Int} :
    (writing most h).writes n = true ↔ n.natAbs < Nat.pow 10 most := by
  simp [writes_iff, writing]

/-- What is written is no longer than what else is written. -/
theorem writes_of_le {h : Host} {m n : Int} (hle : m.natAbs ≤ n.natAbs)
    (hn : h.writes n = true) : h.writes m = true :=
  writes_iff.2 fun most hmost => Nat.lt_of_le_of_lt hle (writes_iff.1 hn most hmost)

/-- So there is always room for a number of a few digits. -/
theorem writes_of_digits {h : Host} {n : Int} {d : Nat} (hd : d ≤ 640)
    (hn : n.natAbs < Nat.pow 10 d) : h.writes n = true :=
  writes_iff.2 fun most hmost => Nat.lt_of_lt_of_le hn
    (Nat.pow_le_pow_right (by decide) (Nat.le_trans hd (h.enough most hmost)))

def writesAll (h : Host) (numbers : List Int) : Except Shortage Unit :=
  if numbers.all h.writes then .ok () else .error .digits

def descend (h : Host) (above : Nat) : Except Shortage Unit :=
  if h.levels.all (above < ·) then .ok () else .error .stack

/-- Print a node that has so many nodes above it, and then the nodes below it in order. -/
def print (h : Host) (above : Nat) (n : Node) : Except Shortage Unit := do
  h.descend above
  h.writesAll n.number?.toList
  n.children.attach.forM fun child => h.print (above + 1) child.1
termination_by sizeOf n
decreasing_by exact Node.sizeOf_lt_of_mem_children child.2

theorem print_eq (h : Host) (above : Nat) (n : Node) :
    h.print above n = (do
      h.descend above
      h.writesAll n.number?.toList
      n.children.forM (h.print (above + 1))) := by
  have hchildren : n.children.forM (h.print (above + 1)) =
      n.children.attach.forM fun child => h.print (above + 1) child.1 :=
    (congrArg (List.forM · _) (List.attach_map_subtype_val n.children)).symm.trans List.forM_map
  rw [print, hchildren]

/-- What is raised in place of an error whose texts show some numbers. -/
def refuse {ε : Type} (h : Host) (numbers : List Int) (e : ε) : Refusal ε :=
  match h.writesAll numbers with
  | .ok () => .failure e
  | .error s => .shortage s

/-- The limit of nesting, as far as the stack goes. -/
def depth (h : Host) (maxDepth : Nat) : Nat := h.nesting.elim maxDepth (min maxDepth)

end Host
end ExprLang
