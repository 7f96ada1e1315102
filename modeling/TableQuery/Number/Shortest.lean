import TableQuery.Number.Binary64

/-!
# The shortest text of a double

A finite double is written with the fewest decimal digits that read back as the same double, and of
those with the ones nearest to it. The reals that round to a double form an interval, with its ends when
the mantissa is even. `readsBack` tests a decimal against the two ends by cross-multiplication;
`shortest` tries one digit, two digits, and so on, and on each grid of decimals only the two neighbours
of the value.

`layout` then places the point: positional from `0.0001` to fifteen integer digits, otherwise with an
exponent of at least two digits.
-/

namespace TableQuery

namespace Binary64

/-- A decimal, `digits * 10 ^ exponent`. -/
structure Decimal where
  digits : Nat
  exponent : Int
deriving DecidableEq, Repr

/-- Compares `a * 10 ^ i` with `n * 2 ^ j`. -/
def compareScaled (a : Nat) (i : Int) (n : Nat) (j : Int) : Ordering :=
  compare ((a * Nat.pow 10 i.toNat) <<< (-j).toNat) ((n * Nat.pow 10 (-i).toNat) <<< j.toNat)

/-- Whether a decimal lies among the reals that round to the magnitude. Below a power of two the
neighbour is half as far away as above it. -/
def readsBack (x : Binary64) (d : Decimal) : Bool :=
  let narrow := x.mantissa = leastFull ∧ -1074 < x.exponent
  let low := if narrow then 4 * x.mantissa - 1 else 4 * x.mantissa - 2
  let high := 4 * x.mantissa + 2
  let ends := x.mantissa % 2 == 0
  let fromLow := compareScaled d.digits d.exponent low (x.exponent - 2)
  let fromHigh := compareScaled d.digits d.exponent high (x.exponent - 2)
  (fromLow == .gt || (ends && fromLow == .eq)) && (fromHigh == .lt || (ends && fromHigh == .eq))

/-- The least power of ten above the magnitude, searched upward from a start. -/
def decimalScaleFrom (x : Binary64) : Nat → Int → Int
  | 0, k => k
  | steps + 1, k =>
    if compareScaled 1 k x.mantissa x.exponent == .gt then k else decimalScaleFrom x steps (k + 1)

/-- The least `k` with the magnitude below `10 ^ k`. -/
def decimalScale (x : Binary64) : Int :=
  decimalScaleFrom x 4 (Int.fdiv ((x.mantissa.log2 + x.exponent) * 30103) 100000)

/-- The better of the two decimals around the magnitude on the grid `10 ^ grid`, if one reads back. -/
def onGrid? (x : Binary64) (grid : Int) : Option Decimal :=
  let num := x.num * Nat.pow 10 (-grid).toNat
  let den := x.den * Nat.pow 10 grid.toNat
  let below : Decimal := ⟨num / den, grid⟩
  let above : Decimal := ⟨num / den + 1, grid⟩
  match x.readsBack below, x.readsBack above with
  | true, true => some ⟨roundDiv num den, grid⟩
  | true, false => some below
  | false, true => some above
  | false, false => none

/-- The first grid, from coarse to fine, on which a decimal reads back; the exact value if none does. -/
def searchGrids (x : Binary64) (scale : Int) : List Nat → Decimal
  | [] => ⟨x.num * Nat.pow 5 (-x.exponent).toNat, min x.exponent 0⟩
  | digits :: more =>
    match x.onGrid? (scale - digits) with
    | some d => d
    | none => searchGrids x scale more

/-- The decimal with the fewest digits that reads back, and of those the nearest. -/
def shortest (x : Binary64) : Decimal := searchGrids x x.decimalScale ((List.range 17).map (· + 1))

/-- Places the point: the value of the digits is `0.d₁…dₖ * 10 ^ point`. -/
def layout (digits : Bytes) (point : Int) : Bytes :=
  let k : Int := digits.length
  if k ≤ point ∧ point ≤ 15 then
    digits ++ List.replicate (point - k).toNat Ascii.zero ++ ".0"
  else if 0 < point ∧ point ≤ 15 then
    digits.take point.toNat ++ Ascii.dot :: digits.drop point.toNat
  else if -4 < point ∧ point ≤ 0 then
    Bytes.ofString "0." ++ List.replicate (-point).toNat Ascii.zero ++ digits
  else
    let fraction := if digits.length ≤ 1 then [] else Ascii.dot :: digits.drop 1
    let exponent := point - 1
    let sign := if exponent < 0 then Ascii.minus else Ascii.plus
    digits.take 1 ++ fraction ++ Bytes.ofString "e" ++ sign :: Bytes.ofNatPadded 2 exponent.natAbs

/-- The text of a double. -/
def toBytes (x : Binary64) : Bytes :=
  let sign : Bytes := if x.negative then [Ascii.minus] else []
  if x.isZero then sign ++ "0.0"
  else
    let d := x.shortest
    let digits := Bytes.ofNat d.digits
    sign ++ layout (Bytes.dropEndWhile (· == Ascii.zero) digits) (digits.length + d.exponent)

end Binary64

end TableQuery
