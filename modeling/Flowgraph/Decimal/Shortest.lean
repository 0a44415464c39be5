/-!
# The shortest decimal of a binary number

A double-precision number is shown with the fewest digits that read back as the same number, and of
these with the digits nearest to it. Every real number strictly between the midpoints to the two
neighbours reads back; the midpoints themselves do when the significand is even. The decimal is found
on the coarsest grid of multiples of a power of ten that has a point in this interval.
-/

namespace Flowgraph.Decimal

/-- A double-precision number taken apart. -/
inductive Binary where
  | nan
  | infinite (negative : Bool)
  | finite (negative : Bool) (significand : Nat) (exponent : Int)
  deriving DecidableEq, Repr

/-- The number that a pattern of 64 bits stands for. -/
def Binary.ofBits (bits : UInt64) : Binary :=
  let n := bits.toNat
  let negative := n / Nat.pow 2 63 == 1
  let field : Nat := n / Nat.pow 2 52 % Nat.pow 2 11
  let fraction : Nat := n % Nat.pow 2 52
  if field = 2047 then (if fraction = 0 then .infinite negative else .nan)
  else if field = 0 then .finite negative fraction (-1074)
  else .finite negative (Nat.pow 2 52 + fraction) ((field : Int) - 1075)

def Binary.isZero : Binary → Bool
  | .finite _ significand _ => significand == 0
  | _ => false

def Binary.isNegative : Binary → Bool
  | .infinite negative => negative
  | .finite negative significand _ => negative && significand != 0
  | .nan => false

/-- How the number compares with a natural number. -/
def Binary.compareNat (x : Binary) (n : Nat) : Option Ordering :=
  match x with
  | .nan => none
  | .infinite negative => some (if negative then .lt else .gt)
  | .finite negative significand exponent =>
    if negative then some (if significand = 0 && n = 0 then .eq else .lt)
    else if 0 ≤ exponent then some (compare (significand * Nat.pow 2 exponent.toNat) n)
    else some (compare significand (n * Nat.pow 2 (-exponent).toNat))

/-- The decimal `digits · 10 ^ exponent`. -/
structure Digits where
  digits : Nat
  exponent : Int
  deriving DecidableEq, Repr

/-- A positive fraction times `10 ^ -k`, as numerator and denominator. -/
def scale (num den : Nat) (k : Int) : Nat × Nat :=
  if 0 ≤ k then (num, den * Nat.pow 10 k.toNat) else (num * Nat.pow 10 (-k).toNat, den)

/-- The multiple of `10 ^ k` nearest to the number among those that read back as it. -/
def onGrid? (significand : Nat) (exponent k : Int) : Option Digits :=
  let unit : Nat × Nat := scale2 exponent
  let margin := if significand = Nat.pow 2 52 && -1074 < exponent then 1 else 2
  let (num, den) := scale (4 * significand * unit.1) (4 * unit.2) k
  let (low, _) := scale ((4 * significand - margin) * unit.1) (4 * unit.2) k
  let (high, _) := scale ((4 * significand + 2) * unit.1) (4 * unit.2) k
  let within (d : Nat) : Bool :=
    if significand % 2 = 0 then low ≤ d * den && d * den ≤ high else low < d * den && d * den < high
  let d := num / den
  let gapBelow := num - d * den
  let gapAbove := (d + 1) * den - num
  match within d, within (d + 1) with
  | false, false => none
  | true, false => some ⟨d, k⟩
  | false, true => some ⟨d + 1, k⟩
  | true, true =>
    if gapBelow < gapAbove || (gapBelow == gapAbove && d % 2 == 0) then some ⟨d, k⟩
    else some ⟨d + 1, k⟩
where
  /-- A power of two as numerator and denominator. -/
  scale2 (e : Int) : Nat × Nat := if 0 ≤ e then (Nat.pow 2 e.toNat, 1) else (1, Nat.pow 2 (-e).toNat)

/-- The fewest digits that read back as a positive number, tried from the coarsest grid on. -/
def shortest (significand : Nat) (exponent : Int) : Digits :=
  ((List.range 660).findSome? fun (i : Nat) => onGrid? significand exponent (309 - i)).getD ⟨0, 0⟩

/-- A row of digits with the decimal point after `point` of them, written out or, outside the
exponents from minus four to fifteen, with a power of ten. -/
def layOut (digits : List Char) (point : Int) : List Char :=
  if -4 < point && point ≤ 16 then
    if point ≤ 0 then '0' :: '.' :: List.replicate (-point).toNat '0' ++ digits
    else if (digits.length : Int) ≤ point then
      digits ++ List.replicate (point - digits.length).toNat '0' ++ ['.', '0']
    else digits.take point.toNat ++ '.' :: digits.drop point.toNat
  else
    let mantissa := match digits with
      | first :: second :: rest => first :: '.' :: second :: rest
      | short => short
    let power := point - 1
    let magnitude := Nat.toDigits 10 power.natAbs
    mantissa ++ 'e' :: (if power < 0 then '-' else '+') ::
      (List.replicate (2 - magnitude.length) '0' ++ magnitude)

def Binary.display : Binary → String
  | .nan => "nan"
  | .infinite negative => if negative then "-inf" else "inf"
  | .finite negative significand exponent =>
    let body :=
      if significand = 0 then ['0', '.', '0']
      else
        let d := shortest significand exponent
        let digits := Nat.toDigits 10 d.digits
        layOut digits (digits.length + d.exponent)
    String.ofList (if negative then '-' :: body else body)

end Flowgraph.Decimal
