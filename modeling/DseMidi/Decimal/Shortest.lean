import DseMidi.Decimal.Positional

/-!
# DseMidi.Decimal.Shortest

**The shortest decimal that reads back as a given binary number.**

A binary number with 53 significant bits stands for all reals that are nearer to it
than to its neighbours. Among the decimals in that interval, `Binary.shortest` takes
one on the coarsest grid of powers of ten that has any, and on that grid the one
nearest to the number itself. Everything is exact arithmetic on natural numbers.

Grids are tried from coarse to fine. On each only the two grid points next to the
number matter: if any grid point lies in the interval, one of these two does.
-/

namespace DseMidi

/-! ### Exact quotients -/

/-- The power `base ^ exponent` as a numerator and a denominator. -/
def powerQuotient (base : Nat) (exponent : Int) : Nat × Nat :=
  (base.pow exponent.toNat, base.pow (-exponent).toNat)

/-- The whole number nearest to `num / den`; a half goes to the even neighbour. -/
def roundDiv (num den : Nat) : Nat :=
  let q := num / den
  let r := num % den
  if den < 2 * r ∨ (2 * r = den ∧ q % 2 = 1) then q + 1 else q

/-! ### Binary numbers -/

/-- The number `significand · 2 ^ exponent`. -/
structure Binary where
  significand : Nat
  exponent : Int
  deriving DecidableEq

namespace Binary

/-- The number of significant bits. -/
def precision : Nat := 53

/-- The number with `precision` significant bits that is nearest to `num / den`, for
positive `num` and `den`. -/
def ofQuotient (num den : Nat) : Binary :=
  let scaled (shift : Int) : Nat × Nat :=
    let (up, down) := powerQuotient 2 shift
    (num * up, den * down)
  let shift : Int := (precision - 1 : Nat) - ((Nat.log2 num : Int) - Nat.log2 den)
  let (n, d) := scaled shift
  -- The lengths of the two numbers leave one bit of the quotient's length open.
  let shift := if n / d < Nat.pow 2 (precision - 1) then shift + 1 else shift
  let (n, d) := scaled shift
  let significand := roundDiv n d
  -- Rounding up can carry into one bit more than there is room for.
  if significand = Nat.pow 2 precision then ⟨Nat.pow 2 (precision - 1), 1 - shift⟩
  else ⟨significand, -shift⟩

/-- Where a binary number and the ends of its interval stand on a decimal grid: the
grid point with coefficient `c` is compared with them as `c * step`. -/
structure Placement where
  value : Nat
  lower : Nat
  upper : Nat
  step : Nat
  /-- Whether the ends belong to the interval. -/
  closed : Bool

/-- The placement of a number on the grid of multiples of `10 ^ exponent`. The ends of
the interval lie half way to the neighbours; the lower neighbour of a power of two is
only half as far away as the upper one. An end reads back as the number itself exactly
if its significand is even. -/
def placement (x : Binary) (exponent : Int) : Placement :=
  let (unitNum, unitDen) := powerQuotient 2 (x.exponent - 2)
  let (gridNum, gridDen) := powerQuotient 10 exponent
  let unit := unitNum * gridDen
  let below := if x.significand = Nat.pow 2 (precision - 1) then 1 else 2
  { value := 4 * x.significand * unit
    lower := (4 * x.significand - below) * unit
    upper := (4 * x.significand + 2) * unit
    step := gridNum * unitDen
    closed := x.significand % 2 = 0 }

/-- Whether the grid point with coefficient `c` reads back as the number. -/
def Placement.covers (p : Placement) (c : Nat) : Bool :=
  if p.closed then p.lower ≤ c * p.step ∧ c * p.step ≤ p.upper
  else p.lower < c * p.step ∧ c * p.step < p.upper

/-- The coefficient of the grid point that reads back as the number, the nearer one if
there are two next to it. -/
def Placement.nearest? (p : Placement) : Option Nat :=
  let c := p.value / p.step
  match p.covers c, p.covers (c + 1) with
  | true, true => some (roundDiv p.value p.step)
  | true, false => some c
  | false, true => some (c + 1)
  | false, false => none

/-- The shortest decimal that reads back as a positive number. The grids start above
the number and end where the step is below its distance to its neighbours. -/
def shortest (x : Binary) : Decimal :=
  let (num, den) := powerQuotient 2 x.exponent
  let coarsest := (Nat.toDigits 10 (x.significand * num / den)).length
  let candidates := (List.range (coarsest + (-x.exponent).toNat + 1)).findSome? fun (i : Nat) =>
    let exponent : Int := (coarsest : Int) - (i : Int)
    (x.placement exponent).nearest?.map fun c => Decimal.mk c exponent
  candidates.getD ⟨0, 0⟩

end Binary

end DseMidi
