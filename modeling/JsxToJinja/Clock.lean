/-! Moments as text. -/
namespace JsxToJinja.Clock

/-- Days in 400 years; the calendar repeats after them. -/
def eraDays : Nat := 146097

/-- Year, month and day of a day counted from the first of March in year zero. Leap days come last in
such a year, so months before have fixed lengths. -/
private def civil (day : Nat) : Nat × Nat × Nat :=
  let era := day / eraDays
  let inEra := day % eraDays
  let year := (inEra - inEra / 1460 + inEra / 36524 - inEra / 146096) / 365
  let inYear := inEra - (365 * year + year / 4 - year / 100)
  let month := (5 * inYear + 2) / 153
  let dayOfMonth := inYear - (153 * month + 2) / 5 + 1
  let fullYear := 400 * era + year
  if month < 10 then (fullYear, month + 3, dayOfMonth) else (fullYear + 1, month - 9, dayOfMonth)

private def padded (width n : Nat) : String :=
  let digits := toString n
  String.ofList (List.replicate (width - digits.length) '0') ++ digits

/-- Days from the first of March in year zero to the first of January 1970. -/
def epochDay : Nat := 719468

/-- A moment in universal time with six places of a second, cut off. `seconds` count from 1970. -/
def text (seconds nanoseconds : Nat) : String :=
  let (year, month, day) := civil (seconds / 86400 + epochDay)
  let s := seconds % 86400
  padded 4 year ++ "-" ++ padded 2 month ++ "-" ++ padded 2 day ++ "T" ++ padded 2 (s / 3600) ++ ":" ++
    padded 2 (s / 60 % 60) ++ ":" ++ padded 2 (s % 60) ++ "." ++ padded 6 (nanoseconds / 1000) ++ "Z"

example : text 0 0 = "1970-01-01T00:00:00.000000Z" := by decide

example : text 951826154 123456789 = "2000-02-29T12:09:14.123456Z" := by decide

end JsxToJinja.Clock
