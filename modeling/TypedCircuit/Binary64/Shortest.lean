import TypedCircuit.Binary64.Basic

/-!
# The shortest decimal that reads back

A binary64 number stands for every real number that rounds to it. Its shortest decimal
is the point of the coarsest decimal grid that has a point in this interval; of two such
points it is the one nearer to the number itself.

The search works on exact integers. With `x = m * 2 ^ e`, the interval is described by
the quarter units `4 * m - 2 .. 4 * m + 2` of `2 ^ (e - 2)`, the lower end moved to
`4 * m - 1` where the spacing below the number is half the spacing above it. Its ends
belong to it exactly when the mantissa is even. On the grid of multiples of `10 ^ s` only
the two neighbours of the number can be nearest, so only they are tried.
-/

namespace TypedCircuit.Binary64

/-- The decimal `digits * 10 ^ exponent`. -/
structure Decimal where
  digits : Nat
  exponent : Int
deriving DecidableEq, Inhabited

/-- The interval of reals that round to a number, in units of `2 ^ (exponent - 2)`. -/
structure Interval where
  low : Nat
  middle : Nat
  high : Nat
  closed : Bool

/-- The interval of reals that round to a non-zero magnitude. -/
def interval (x : Binary64) : Interval where
  low := if x.mantissa = fullMantissa ∧ x.exponent ≠ leastExponent then 4 * x.mantissa - 1
    else 4 * x.mantissa - 2
  middle := 4 * x.mantissa
  high := 4 * x.mantissa + 2
  closed := x.mantissa % 2 == 0

/-- The nearest point of the grid of multiples of `10 ^ s` that reads back as `x`. -/
def onGrid? (x : Binary64) (s : Int) : Option Decimal :=
  let i := x.interval
  let e := x.exponent - 2
  let up := scaleUp e * scaleTen (-s)
  let step := scaleUp (-e) * scaleTen s
  let inside (c : Nat) : Bool :=
    let p := c * step
    if i.closed then i.low * up ≤ p && p ≤ i.high * up
    else i.low * up < p && p < i.high * up
  let below := i.middle * up / step
  let rest := i.middle * up % step
  let above := below + 1
  let preferBelow := 2 * rest < step || (2 * rest == step && below % 2 == 0)
  match below != 0 && inside below, inside above with
  | true, true => some ⟨if preferBelow then below else above, s⟩
  | true, false => some ⟨below, s⟩
  | false, true => some ⟨above, s⟩
  | false, false => none

/-- The first hit on the grids `10 ^ s`, `10 ^ (s - 1)`, …, over `count` grids. -/
def searchGrids (x : Binary64) : Nat → Int → Option Decimal
  | 0, _ => none
  | count + 1, s =>
    match x.onGrid? s with
    | some d => some d
    | none => searchGrids x count (s - 1)

/-- A decimal exponent whose power of ten exceeds the number. -/
def startExponent (x : Binary64) : Int :=
  let bits : Int := (Nat.log2 x.mantissa : Int) + x.exponent + 1
  if bits < 0 then 1 - (-bits) * 30103 / 100000 else bits * 30103 / 100000 + 1

/-- The shortest decimal of a magnitude. The grids go down to the one on which the number
itself lies, so the search always ends with a hit. -/
def shortest (x : Binary64) : Decimal :=
  if x.isZero then ⟨0, 0⟩
  else
    let s := x.startExponent
    (x.searchGrids ((s - leastExponent).toNat + 1) s).getD ⟨0, 0⟩

/-! ## Layouts -/

/-- `count` zeros. -/
def zeros (count : Nat) : String := "".pushn '0' count

/-- A power of ten, with its sign in either direction. -/
def powerText (power : Int) : String :=
  "e" ++ (if power < 0 then "-" else "+") ++ toString power.natAbs

/--
The text of a number in documents and messages: positional from `0.00001` up to sixteen
digits before the point, with a fraction digit always present, otherwise one digit, the
rest as a fraction, and the signed power of ten after an `e`.
-/
def text (x : Binary64) : String :=
  let sign := if x.negative then "-" else ""
  if x.isZero then sign ++ "0.0"
  else
    let d := x.shortest
    let digits := toString d.digits
    let length : Int := digits.length
    let point := length + d.exponent
    let body :=
      if 0 ≤ d.exponent ∧ point ≤ 16 then digits ++ zeros d.exponent.toNat ++ ".0"
      else if 0 < point ∧ point ≤ 16 then
        String.ofList (digits.toList.take point.toNat) ++ "." ++
          String.ofList (digits.toList.drop point.toNat)
      else if -5 < point ∧ point ≤ 0 then "0." ++ zeros (-point).toNat ++ digits
      else
        let tail := String.ofList (digits.toList.drop 1)
        String.ofList (digits.toList.take 1) ++ (if tail.isEmpty then "" else "." ++ tail) ++
          powerText (point - 1)
    sign ++ body

end TypedCircuit.Binary64
