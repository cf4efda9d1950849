/-!
# Doubles

Numbers of double precision, as far as telling apart those that are in range needs them: natural
numbers, rounded to 53 significant bits.

`nearestDouble` rounds to nearest, a tie to even. `overflow` is the least number that rounds to no
finite double.
-/

namespace LoopInduction.Json

/-- `n / 2 ^ k`, rounded to nearest, a tie to even. -/
def roundShift (n k : Nat) : Nat :=
  let unit := Nat.pow 2 k
  let q := n / unit
  let r := n % unit
  if 2 * r < unit ∨ (2 * r = unit ∧ q % 2 = 0) then q else q + 1

/-- The double nearest to a natural number, without regard to the range of doubles. -/
def nearestDouble (n : Nat) : Nat :=
  let k := n.log2 + 1 - 53
  roundShift n k * Nat.pow 2 k

/-- Halfway between the largest finite double and the next power of two. -/
def overflow : Nat := Nat.pow 2 1024 - Nat.pow 2 970

end LoopInduction.Json
