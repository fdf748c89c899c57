/-
Gimbal/Scalar.lean

The numbers that angles, amplitudes and residuals are made of.

Everything in this library is written once, over any type `R` with the
operations of `Scalar R`.  The class asks for no laws: the programs only add,
compare and round, and what can be said about their results depends on the
numbers.  Over binary floating point the library runs; over the real numbers its
geometry can be stated exactly; facts about lengths, order and provenance hold
for every choice, values that are not numbers included.

`Score V` is the smaller part that a simplex search needs of the *values* of its
objective.
-/
namespace Gimbal

/-- Values that can be ranked.  `totalLe` is the order used for sorting and may
differ from `≤`, which need not be total: a value that is not a number is
unrelated to everything by `≤`. -/
class Score (V : Type) extends LT V, LE V, Sub V where
  decLt : ∀ a b : V, Decidable (a < b)
  decLe : ∀ a b : V, Decidable (a ≤ b)
  /-- The order used for sorting. -/
  totalLe : V → V → Bool

attribute [reducible, instance] Score.decLt Score.decLe

/-- Numbers with the arithmetic, the comparisons and the few functions that
gates need. -/
class Scalar (R : Type) extends Score R, Zero R, One R, Add R, Mul R, Div R,
    Neg R, BEq R,
    NatCast R, OfScientific R where
  /-- A full turn. -/
  tau : R
  /-- One over the square root of two. -/
  invSqrtTwo : R
  sin : R → R
  cos : R → R
  /-- The length of the vector with the two given coordinates. -/
  hypot : R → R → R
  floor : R → R
  /-- The nearest integer; a half goes away from zero. -/
  round : R → R
  abs : R → R
  isFinite : R → Bool
  /-- The score of what cannot be scored; nothing finite exceeds it. -/
  unbounded : R
  /-- Whether two numbers have the same representation. -/
  same : R → R → Bool

export Scalar (tau)

section Arithmetic

variable {R : Type} [Scalar R]

/-- The larger of two numbers; the first one where they cannot be compared. -/
def larger (a b : R) : R := if a < b then b else a

/-- Rounds to two decimal places. -/
def roundHundredth (x : R) : R := Scalar.round (x * 100.0) / 100.0

/-- The sum of a list, from the left. -/
def sum (xs : List R) : R := xs.foldl (· + ·) 0

/-- The inner product of two vectors; the longer one is cut. -/
def dot (xs ys : List R) : R := sum (List.zipWith (· * ·) xs ys)

end Arithmetic

section Ranking

variable {V : Type} [Score V] {α : Type}

/-- The last element of greatest score in the order used for sorting. -/
def lastGreatest (score : α → V) : List α → Option α
  | [] => none
  | x :: xs => some (xs.foldl (fun best y =>
      if Score.totalLe (score best) (score y) then y else best) x)

/-- The first element of least score in the order used for sorting; `x` stands
before the list. -/
def firstLeast (score : α → V) (x : α) (xs : List α) : α :=
  xs.foldl
    (fun best y => if Score.totalLe (score best) (score y) then best else y) x

end Ranking

end Gimbal
