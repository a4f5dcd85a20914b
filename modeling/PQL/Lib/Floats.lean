import PQL.Lib.Rounding

/-!
# Floating-point numbers

The value of a `float` from its bits (`floatValue`), and the two roundings of C's arithmetic as a
parameter (`FloatArith`), so that a computation can be done with them or exactly.
-/

namespace PQL

/-- The value of a `float`; infinities and what is not a number have none. -/
def floatValue (bits : BitVec 32) : Option ℚ :=
  let sign : ℚ := if bits.msb then -1 else 1
  let exponent := (bits.extractLsb' 23 8).toNat
  let fraction := (bits.extractLsb' 0 23).toNat
  if exponent = 255 then none
  else if exponent = 0 then some (sign * fraction * 2 ^ (-149 : ℤ))
  else some (sign * (2 ^ 23 + fraction) * 2 ^ (exponent - 150 : ℤ))

/-- What is stored when a result is a `float` or a `double`. -/
structure FloatArith where
  single : ℚ → ℚ
  double : ℚ → ℚ

def ieeeFloats : FloatArith := ⟨roundTo 24, roundTo 53⟩

def exactFloats : FloatArith := ⟨id, id⟩

example : floatValue 0x3FC00000 = some (3 / 2) := by decide +kernel

end PQL
