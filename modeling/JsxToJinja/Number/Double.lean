/-! Double precision numbers by their bit pattern, with arithmetic on exact ratios. -/
namespace JsxToJinja

/-- A finite double: its sign and the 63 bits below the sign. -/
structure Double where
  negative : Bool
  magnitude : Nat
deriving Repr, DecidableEq

namespace Double

/-- Zero is one number whatever its sign. -/
def same (a b : Double) : Bool :=
  a.magnitude == b.magnitude && (a.negative == b.negative || a.magnitude == 0)

instance : BEq Double := ⟨same⟩

def fractionSize : Nat := Nat.pow 2 52

/-- Bit pattern of infinity: every finite magnitude lies below it. -/
def infinite : Nat := 2047 * fractionSize

/-- Whole number of units of `2 ^ (exponent - 1074)` and that exponent. -/
def parts (magnitude : Nat) : Nat × Nat :=
  let e := magnitude / fractionSize
  if e = 0 then (magnitude, 0) else (magnitude % fractionSize + fractionSize, e - 1)

/-- Numerator and denominator of a magnitude. -/
def ratio (magnitude : Nat) : Nat × Nat :=
  let (m, e) := parts magnitude
  if 1074 ≤ e then (m * Nat.pow 2 (e - 1074), 1) else (m, Nat.pow 2 (1074 - e))

/-- Quotient to the nearest whole number, a half to the even one. -/
def roundDiv (num den : Nat) : Nat :=
  let q := num / den
  let r := num % den
  if den < 2 * r || (2 * r == den && q % 2 == 1) then q + 1 else q

/-- Magnitude nearest to `num / den`, a half to the even one, or none when that is infinite. -/
def nearest? (num den : Nat) : Option Nat :=
  if num = 0 then some 0 else
    let shift (e : Nat) : Nat × Nat :=
      if 1074 ≤ e then (num, den * Nat.pow 2 (e - 1074)) else (num * Nat.pow 2 (1074 - e), den)
    let guess := num.log2 + 1022 - den.log2
    let e := if (shift guess).1 / (shift guess).2 < fractionSize then guess - 1 else guess
    let bits := e * fractionSize + roundDiv (shift e).1 (shift e).2
    if bits < infinite then some bits else none

/-- Nearest magnitude to `digits * 10 ^ exponent`. -/
def ofDecimal? (digits : Nat) (exponent : Int) : Option Nat :=
  if 0 ≤ exponent then nearest? (digits * Nat.pow 10 exponent.toNat) 1
  else nearest? digits (Nat.pow 10 (-exponent).toNat)

def mul? (a b : Nat) : Option Nat :=
  let (an, ad) := ratio a
  let (bn, bd) := ratio b
  nearest? (an * bn) (ad * bd)

def div? (a b : Nat) : Option Nat :=
  let (an, ad) := ratio a
  let (bn, bd) := ratio b
  if bn = 0 then none else nearest? (an * bd) (ad * bn)

def add? (a b : Nat) : Option Nat :=
  let (an, ad) := ratio a
  let (bn, bd) := ratio b
  nearest? (an * bd + bn * ad) (ad * bd)

/-- Text with a fixed number of decimals, a half to the even digit. -/
def fixed (places : Nat) (d : Double) : String :=
  let (num, den) := ratio d.magnitude
  let scaled := roundDiv (num * Nat.pow 10 places) den
  let whole := scaled / Nat.pow 10 places
  let part := toString (scaled % Nat.pow 10 places)
  let zeros := String.ofList (List.replicate (places - part.length) '0')
  (if d.negative then "-" else "") ++ toString whole ++
    (if places = 0 then "" else "." ++ zeros ++ part)

end Double

end JsxToJinja
