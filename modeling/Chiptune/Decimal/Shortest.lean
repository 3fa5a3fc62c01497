namespace Chiptune

/-!
# Shortest decimals

`Single.decimal` finds the decimal number with the fewest digits that is read back as a given
single-precision number, and of those the one nearest to it; of two that are equally near it takes
the even one. All comparisons are exact, on natural numbers.
-/

/-- A positive finite single-precision number `mantissa * 2 ^ exponent`. The number below it is at
    half the distance of the number above when `narrowBelow` holds. -/
structure Single where
  mantissa : Nat
  exponent : Int
  narrowBelow : Bool

/-- The number `digits * 10 ^ exponent`. -/
structure Decimal where
  digits : Nat
  exponent : Int
deriving DecidableEq

namespace Single

/-- The number with the given bits, without its sign. -/
def ofBits (bits : UInt32) : Single :=
  let exponent := ((bits >>> 23) &&& 0xff).toNat
  let fraction := (bits &&& 0x7fffff).toNat
  if exponent = 0 then ⟨fraction, -149, false⟩
  else ⟨0x800000 + fraction, (exponent : Int) - 150, fraction = 0 && 1 < exponent⟩

/-- `quarters * 2 ^ (exponent - 2)` with all factors that could leave the natural numbers cleared:
    comparable with `Single.scaleDecimal` at the same exponent of ten. -/
def scaleQuarters (x : Single) (quarters : Nat) (tens : Int) : Nat :=
  quarters * Nat.pow 2 x.exponent.toNat * Nat.pow 10 (-tens).toNat

/-- `digits * 10 ^ tens` on the scale of `Single.scaleQuarters`. -/
def scaleDecimal (x : Single) (digits : Nat) (tens : Int) : Nat :=
  4 * digits * Nat.pow 2 (-x.exponent).toNat * Nat.pow 10 tens.toNat

/-- Whether `digits * 10 ^ tens` is read back as `x`: it lies between the midpoints to the two
    neighbours of `x`. The midpoints belong to the even mantissa. -/
def readsBack (x : Single) (digits : Nat) (tens : Int) : Bool :=
  let low := x.scaleQuarters (if x.narrowBelow then 4 * x.mantissa - 1 else 4 * x.mantissa - 2) tens
  let high := x.scaleQuarters (4 * x.mantissa + 2) tens
  let d := x.scaleDecimal digits tens
  if x.mantissa % 2 = 0 then low ≤ d && d ≤ high else low < d && d < high

/-- The greatest number of units `10 ^ tens` that is not above `x`. -/
def floorAt (x : Single) (tens : Int) : Nat :=
  x.scaleQuarters (4 * x.mantissa) tens / x.scaleDecimal 1 tens

/-- The least power of ten that is above `x`. -/
def magnitude (x : Single) : Int :=
  let candidates := (List.range 100).map fun (i : Nat) => (i : Int) - 50
  (candidates.find? fun k => x.floorAt k = 0).getD 50

/-- The decimal nearest to `x` among the two neighbours of `x` in units of `10 ^ tens` that are read
    back as `x`. -/
def nearest? (x : Single) (tens : Int) : Option Decimal :=
  let below := x.floorAt tens
  let above := below + 1
  let exact := x.scaleQuarters (4 * x.mantissa) tens
  let gapBelow := exact - x.scaleDecimal below tens
  let gapAbove := x.scaleDecimal above tens - exact
  match x.readsBack below tens, x.readsBack above tens with
  | false, false => none
  | true, false => some ⟨below, tens⟩
  | false, true => some ⟨above, tens⟩
  | true, true =>
    if gapBelow < gapAbove || (gapBelow = gapAbove && below % 2 = 0) then some ⟨below, tens⟩
    else some ⟨above, tens⟩

/-- The shortest decimal that is read back as `x`. Nine digits always do. -/
def decimal (x : Single) : Decimal :=
  let k := x.magnitude
  ((List.range 9).findSome? fun (i : Nat) => x.nearest? (k - 1 - i)).getD ⟨x.floorAt (k - 9), k - 9⟩

end Single

/-- The digits without zeros at their end. -/
def Decimal.trim (d : Decimal) : Decimal :=
  go 40 d
where
  /-- Drop up to `count` zeros. -/
  go : Nat → Decimal → Decimal
    | 0, d => d
    | count + 1, d =>
      if d.digits % 10 = 0 && d.digits ≠ 0 then go count ⟨d.digits / 10, d.exponent + 1⟩ else d

/-- How a decimal is laid out: positionally as long as its point stands more than `low` and not more
    than `high` places right of the first digit, otherwise with an exponent. -/
structure Notation where
  low : Int
  high : Int

/-- The text of a decimal. A whole number ends in `.0`. -/
def Notation.write (n : Notation) (d : Decimal) : String :=
  let d := d.trim
  let digits := Nat.toDigits 10 d.digits
  let point := digits.length + d.exponent
  if 0 ≤ d.exponent && point ≤ n.high then
    String.ofList (digits ++ List.replicate d.exponent.toNat '0') ++ ".0"
  else if 0 < point && point ≤ n.high then
    String.ofList (digits.take point.toNat ++ '.' :: digits.drop point.toNat)
  else if n.low < point && point ≤ 0 then
    "0." ++ String.ofList (List.replicate (-point).toNat '0' ++ digits)
  else
    let mantissa := match digits with
      | first :: [] => [first]
      | first :: rest => first :: '.' :: rest
      | [] => []
    String.ofList mantissa ++ "e" ++ toString (point - 1)

/-- The text of a single-precision number. Infinities and what is no number have none. -/
def Notation.writeSingle? (n : Notation) (x : Float32) : Option String :=
  let bits := x.toBits
  let magnitude := bits &&& 0x7fffffff
  if 0x7f800000 ≤ magnitude then none
  else
    let sign := if bits = magnitude then "" else "-"
    if magnitude = 0 then some (sign ++ "0.0")
    else some (sign ++ n.write (Single.ofBits magnitude).decimal)

end Chiptune
