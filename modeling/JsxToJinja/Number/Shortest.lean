import JsxToJinja.Number.Double

/-! The shortest decimal that reads back as a given double. -/
namespace JsxToJinja.Double

/-- Twice the halfway points around a magnitude and twice the magnitude, over one denominator. The
ends belong to the interval when the last bit is even. -/
structure Interval where
  low : Nat
  value : Nat
  high : Nat
  den : Nat
  closed : Bool

def interval (magnitude : Nat) : Interval :=
  let (m, e) := parts magnitude
  let below := if m = fractionSize && 0 < e then 1 else 2
  let scale := if 1074 ≤ e then Nat.pow 2 (e - 1074) else 1
  let den := if 1074 ≤ e then 4 else 4 * Nat.pow 2 (1074 - e)
  ⟨(4 * m - below) * scale, 4 * m * scale, (4 * m + 2) * scale, den, m % 2 == 0⟩

/-- Decimal exponent of the leading digit of `num / den`, for a positive ratio. -/
def leadingExponent (num den : Nat) : Int :=
  if den ≤ num then ((toString (num / den)).length : Int) - 1
  else
    let shift := (toString (den / num)).length
    if den ≤ num * Nat.pow 10 (shift - 1) then -((shift : Int) - 1) else -(shift : Int)

/-- Of two points of a grid the nearer one. -/
def closer (i : Interval) (num den : Nat) (a b : Nat) : Nat :=
  -- distances of `a` and `b` to the value, both over the same denominator
  let da := i.value * den - a * num * i.den
  let db := b * num * i.den - i.value * den
  if da < db || (da == db && a % 2 == 0) then a else b

def candidate (i : Interval) (unit : Int) : Option Nat :=
  let num := if 0 ≤ unit then Nat.pow 10 unit.toNat else 1
  let den := if 0 ≤ unit then 1 else Nat.pow 10 (-unit).toNat
  let inside (d : Nat) : Bool :=
    let x := d * num * i.den
    if i.closed then i.low * den ≤ x && x ≤ i.high * den else i.low * den < x && x < i.high * den
  let a := (i.value * den) / (num * i.den)
  let b := a + 1
  match inside a, inside b with
  | true, true => some (closer i num den a b)
  | true, false => some a
  | false, true => some b
  | false, false => none

/-- Tries one digit more until a point of the grid fits. -/
def search (i : Interval) (lead : Int) : Nat → Nat → Nat × Int
  | 0, count => ((candidate i (lead - count + 1)).getD 0, lead - count + 1)
  | fuel + 1, count =>
    match candidate i (lead - count + 1) with
    | some d => (d, lead - count + 1)
    | none => search i lead fuel (count + 1)

/-- Digits and the power of ten of their last place: of all decimals that round to the magnitude the
fewest digits, and of those the nearest. -/
def shortest (magnitude : Nat) : Nat × Int :=
  if magnitude = 0 then (0, 0) else
    let i := interval magnitude
    search i (leadingExponent i.value i.den) 17 1

def dropZeros : Nat → Nat → Int → Nat × Int
  | 0, d, e => (d, e)
  | fuel + 1, d, e => if d ≠ 0 && d % 10 == 0 then dropZeros fuel (d / 10) (e + 1) else (d, e)

def zeros (n : Nat) : String := String.ofList (List.replicate n '0')

/-- Numbers are positional while the exponent of the leading digit lies between -5 and 15, and then
always show a decimal point. Other numbers carry a signed exponent. -/
def text (x : Double) : String :=
  let sign := if x.negative then "-" else ""
  if x.magnitude = 0 then sign ++ "0.0" else
    let (d, unit) := shortest x.magnitude
    let (d, unit) := dropZeros 20 d unit
    let digits := toString d
    let lead := unit + digits.length - 1
    if -5 ≤ lead && lead ≤ 15 then
      if 0 ≤ unit then sign ++ digits ++ zeros unit.toNat ++ ".0"
      else if 0 ≤ lead then
        let whole := lead.toNat + 1
        sign ++ String.ofList (digits.toList.take whole) ++ "." ++
          String.ofList (digits.toList.drop whole)
      else sign ++ "0." ++ zeros ((-lead).toNat - 1) ++ digits
    else
      let tail := String.ofList (digits.toList.drop 1)
      let head := String.ofList (digits.toList.take 1)
      sign ++ head ++ (if tail.isEmpty then "" else "." ++ tail) ++ "e" ++
        (if lead < 0 then "-" else "+") ++ toString lead.natAbs

end JsxToJinja.Double
