/-!
# Decimal text of binary fractions

A finite nonnegative double is `m * 2 ^ e`.  `fixed` prints such a value with a fixed number of
decimals, rounding the exact value; a tie goes to the even digit.
-/

namespace ClassicalPlanner.Text

/-- The quotient rounded to the nearest integer, a tie to the even one. -/
def roundDiv (num den : Nat) : Nat :=
  let q := num / den
  let r := num % den
  if 2 * r < den then q
  else if 2 * r = den then q + q % 2
  else q + 1

/-- A nonnegative double as a fraction. -/
def fraction (x : Float) : Nat × Nat :=
  let bits := x.toBits.toNat
  let exponent := (bits >>> 52) % 2048
  let mantissa := bits % (1 <<< 52)
  let (m, e) := if exponent = 0 then (mantissa, 1) else (mantissa + (1 <<< 52), exponent)
  if 1075 ≤ e then (m <<< (e - 1075), 1) else (m, 1 <<< (1075 - e))

/-- A nonnegative double with a fixed number of decimals. -/
def fixed (places : Nat) (x : Float) : String :=
  let (num, den) := fraction x
  let unit := Nat.pow 10 places
  let scaled := roundDiv (num * unit) den
  let digits := toString (scaled % unit)
  toString (scaled / unit) ++ "." ++ "".pushn '0' (places - digits.length) ++ digits

/-- The text put at the right end of a column. -/
def alignRight (width : Nat) (text : String) : String :=
  "".pushn ' ' (width - text.length) ++ text

end ClassicalPlanner.Text
