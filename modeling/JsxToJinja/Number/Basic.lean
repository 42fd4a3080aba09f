import JsxToJinja.Number.Shortest

/-! Numbers as data files know them: whole numbers stay apart from decimals. -/
namespace JsxToJinja

/-- A whole number between -2^63 and 2^64 - 1, or a double. `1` and `1.0` differ. -/
inductive Number where
  | int (value : Int)
  | double (value : Double)
deriving Repr, BEq, DecidableEq

namespace Number

def text : Number → String
  | int n => toString n
  | double d => d.text

def digitsValue (ds : List Char) : Nat :=
  ds.foldl (fun n c => n * 10 + (c.toNat - 48)) 0

def leastWord : Int := -(Nat.pow 2 63 : Nat)

def wordLimit : Nat := Nat.pow 2 64

/-- Leading digits whose value still fits 64 bits, and how many digits follow them. -/
def fitting (value : Nat) : List Char → Nat × Nat
  | [] => (value, 0)
  | c :: ds =>
    let next := value * 10 + (c.toNat - 48)
    if next < wordLimit then fitting next ds else (value, ds.length + 1)

/-- A decimal is the rounded significand, scaled once by a power of ten. Powers below 10^-308 are
taken in steps of 308. -/
def scaled (significand : Nat) (exponent : Int) : Option Nat := do
  let f ← Double.nearest? significand 1
  if 0 ≤ exponent then
    if f = 0 then some 0
    else if 308 < exponent then none
    else Double.mul? f (← Double.ofDecimal? 1 exponent)
  else shrink 20 f (-exponent).toNat
where
  shrink : Nat → Nat → Nat → Option Nat
    | 0, f, _ => some f
    | fuel + 1, f, n => do
      if n ≤ 308 then Double.div? f (← Double.ofDecimal? 1 n)
      else if f = 0 then some 0
      else shrink fuel (← Double.div? f (← Double.ofDecimal? 1 308)) (n - 308)

/-- Exponents that do not fit 32 bits make the number zero or too large. -/
def decimal (negative : Bool) (significand : Nat) (point exponent : Int) : Option Number :=
  let magnitude :=
    if 2147483647 < exponent.natAbs then
      if significand ≠ 0 && 0 < exponent then none else some 0
    else scaled significand (point + exponent)
  magnitude.map fun m => double ⟨negative, m⟩

def whole (negative : Bool) (value : Nat) : Option Number :=
  if negative then
    if value = 0 || Nat.pow 2 63 < value then (Double.nearest? value 1).map fun m => double ⟨true, m⟩
    else some (int (-(value : Int)))
  else some (int value)

def exponentPart (negative : Bool) (significand : Nat) (point : Int) (t : List Char) :
    Option (Option Number × List Char) :=
  let (minus, t) := match t with
    | '+' :: r => (false, r)
    | '-' :: r => (true, r)
    | _ => (false, t)
  let ds := t.takeWhile Char.isDigit
  if ds.isEmpty then none else
    let e : Int := digitsValue ds
    some (decimal negative significand point (if minus then -e else e), t.dropWhile Char.isDigit)

/-- Reads a number at the front of a text by the grammar of data files: no leading zero, no bare
point, digits after a point and in an exponent. One too large for a double has no value. -/
def read? (t : List Char) : Option (Option Number × List Char) :=
  let (negative, t) := match t with
    | '-' :: r => (true, r)
    | _ => (false, t)
  let ds := t.takeWhile Char.isDigit
  let rest := t.dropWhile Char.isDigit
  if ds.isEmpty || (ds.head? == some '0' && 1 < ds.length) then none else
    let (value, dropped) := fitting 0 ds
    match rest with
    | '.' :: r =>
      let fs := r.takeWhile Char.isDigit
      let rest := r.dropWhile Char.isDigit
      if fs.isEmpty then none else
        let (significand, unread) := fitting value fs
        let point : Int := (dropped : Int) - ((fs.length - unread : Nat) : Int)
        match rest with
        | c :: r =>
          if c == 'e' || c == 'E' then exponentPart negative significand point r
          else some (decimal negative significand point 0, rest)
        | [] => some (decimal negative significand point 0, [])
    | c :: r =>
      if c == 'e' || c == 'E' then exponentPart negative value dropped r
      else if dropped = 0 then some (whole negative value, rest)
      else some (decimal negative value dropped 0, rest)
    | [] =>
      if dropped = 0 then some (whole negative value, [])
      else some (decimal negative value dropped 0, [])

def parse? (t : List Char) : Option Number :=
  match read? t with
  | some (n, []) => n
  | _ => none

end Number

end JsxToJinja
