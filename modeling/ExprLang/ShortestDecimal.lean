/-!
# Shortest decimals

Writing a binary fraction between one half and one in as few decimal digits as tell it apart
from every other fraction of the same precision. A fraction of precision `p` is `m / 2 ^ p` with
`2 ^ (p - 1) ≤ m < 2 ^ p`.
-/
namespace ExprLang.ShortestDecimal

/-- Twice the distance between the decimal `c / 10 ^ d` and `m / 2 ^ p`, in units that make
the distance between neighbouring fractions `2 * 10 ^ d`. Below one half the neighbours are
twice as close. -/
def doubledDistance (p m d c : Nat) : Nat :=
  if c * Nat.pow 2 p < m * Nat.pow 10 d then
    (m * Nat.pow 10 d - c * Nat.pow 2 p) * if m = Nat.pow 2 (p - 1) then 4 else 2
  else (c * Nat.pow 2 p - m * Nat.pow 10 d) * 2

/-- The decimal `c / 10 ^ d` rounds to `m / 2 ^ p`; a tie goes to the even neighbour. -/
def readsBack (p m d c : Nat) : Bool :=
  if m % 2 = 0 then doubledDistance p m d c ≤ Nat.pow 10 d
  else doubledDistance p m d c < Nat.pow 10 d

/-- The quotient rounded to the nearest number; a tie goes to the even one. -/
def roundDiv (n d : Nat) : Nat :=
  let below := n / d
  let doubled := 2 * (n - below * d)
  if doubled < d ∨ (doubled = d ∧ below % 2 = 0) then below else below + 1

theorem roundDiv_mul_self (n : Nat) {d : Nat} (hd : 0 < d) : roundDiv (n * d) d = n := by
  simp [roundDiv, Nat.mul_div_cancel n hd, hd]

/-- The decimal of `d` digits nearest to `m / 2 ^ p`, if it reads back. -/
def digitsAt? (p m d : Nat) : Option Nat :=
  let nearest := roundDiv (m * Nat.pow 10 d) (Nat.pow 2 p)
  if readsBack p m d nearest then some nearest else none

def digits? (p m : Nat) : Option Nat :=
  (List.range p).findSome? fun i => digitsAt? p m (i + 1)

/-- With as many decimal digits as binary ones the fraction itself is written. -/
theorem digitsAt?_self (p m : Nat) : digitsAt? p m p = some (m * Nat.pow 5 p) := by
  have hpow : m * Nat.pow 10 p = m * Nat.pow 5 p * Nat.pow 2 p := by
    rw [Nat.mul_assoc]
    exact congrArg (m * ·) (Nat.mul_pow 5 2 p)
  have hround : roundDiv (m * Nat.pow 5 p * Nat.pow 2 p) (Nat.pow 2 p) = m * Nat.pow 5 p :=
    roundDiv_mul_self (m * Nat.pow 5 p) (Nat.pow_pos Nat.two_pos)
  have hpos : 0 < Nat.pow 10 p := Nat.pow_pos (by decide)
  simp only [digitsAt?, hpow, hround, readsBack, doubledDistance, Nat.lt_irrefl, Nat.sub_self,
    Nat.zero_mul, Nat.zero_le, hpos, decide_true, ite_self, if_true]

/-- Some digits always read back. -/
theorem isSome_digits? {p : Nat} (m : Nat) (hp : 0 < p) : (digits? p m).isSome = true := by
  rw [digits?, List.isSome_findSome?, List.any_eq_true]
  exact ⟨p - 1, by simp; omega, by rw [Nat.sub_add_cancel hp, digitsAt?_self]; rfl⟩

def fractionText (p m : Nat) (hp : 0 < p) : String :=
  "0." ++ toString ((digits? p m).get (isSome_digits? m hp))

/-- The number `1 - 2 ^ (-k)` for positive `k`, rounded to precision `p`: beyond that precision
it is one. -/
def complementText (p k : Nat) (hp : 0 < p) : String :=
  if k ≤ p then fractionText p (Nat.pow 2 p - Nat.pow 2 (p - k)) hp else "1.0"

end ExprLang.ShortestDecimal
