import ControlVoltage.Single.Decimal
import ControlVoltage.Toml.Value

/-!
# Plain values of a document

What is written without quotes: truth values, numbers, dates and times.

An integer is read in two steps. Its outline is checked first: where it has underscores, that it
has no needless zero in front, and that only digits of its base follow a prefix. The digits come
second, and if they are not those of an integer of 64 bits, signed or not, the number is
unreadable. A float is unreadable only if it is not written as an infinity and yet is one.
-/

namespace ControlVoltage.Toml.Scalar

/-! ## Digits -/

/-- A digit of an integer in any base. -/
def isHexDigit (c : Char) : Bool :=
  c.isDigit || ('a' ≤ c && c ≤ 'f') || ('A' ≤ c && c ≤ 'F')

def digitValue (c : Char) : Nat :=
  if c.isDigit then c.toNat - '0'.toNat else c.toLower.toNat - 'a'.toNat + 10

def isDigitIn (base : Nat) (c : Char) : Bool := isHexDigit c && digitValue c < base

def valueIn (base : Nat) (ds : List Char) : Nat :=
  ds.foldl (fun n c => base * n + digitValue c) 0

/-- Whether every underscore stands between two digits; `digit` says that one comes before. -/
def underscoresBetween (isDigit : Char → Bool) : (digit : Bool) → List Char → Bool
  | _, [] => true
  | digit, c :: rest =>
    if c = '_' then digit && rest.head?.any isDigit && underscoresBetween isDigit false rest
    else underscoresBetween isDigit (isDigit c) rest

def withoutUnderscores (cs : List Char) : List Char := cs.filter (· ≠ '_')

/-! ## Integers -/

/-- An integer if it fits into 64 bits, signed or not. -/
def ofInt (n : Int) : Value :=
  if -0x8000000000000000 ≤ n ∧ n < 0x10000000000000000 then .integer n else .unreadable

/-- The integer with these digits, if they are digits in its base. -/
def ofDigits (base : Nat) (negative : Bool) (ds : List Char) : Value :=
  if ds.isEmpty || !ds.all (isDigitIn base) then .unreadable
  else ofInt (if negative then -(valueIn base ds : Int) else valueIn base ds)

/-- What follows the prefix of an integer; that may be nothing. -/
def prefixed? (base : Nat) (body : List Char) : Option Value :=
  if body.all (fun c => c = '_' || isDigitIn base c) && underscoresBetween isHexDigit false body
  then some (ofDigits base false (withoutUnderscores body))
  else none

/-- An integer in base ten with an optional sign. -/
def plain? (cs : List Char) : Option Value :=
  let (negative, body) := Decimal.splitSign cs
  if underscoresBetween isHexDigit false body then
    some (ofDigits 10 negative (withoutUnderscores body))
  else none

/-! ## Floats -/

/-- Decimal digits with single underscores between them, without the underscores. -/
def decimalDigits? (cs : List Char) : Option (List Char) :=
  let ds := withoutUnderscores cs
  if ds.isEmpty || !ds.all Char.isDigit || !underscoresBetween Char.isDigit false cs then none
  else some ds

/-- Decimal digits without a needless zero in front. -/
def wholeDigits? (cs : List Char) : Option (List Char) :=
  match decimalDigits? cs with
  | some ('0' :: _ :: _) => none
  | ds => ds

def isExponentMark (c : Char) : Bool := c = 'e' || c = 'E'

/-- A float with a fraction, an exponent or both. -/
def decimal? (cs : List Char) : Option Decimal := do
  let (negative, body) := Decimal.splitSign cs
  let mantissa := body.takeWhile fun c => !isExponentMark c
  let whole ← wholeDigits? (mantissa.takeWhile (· != '.'))
  let fraction ←
    match mantissa.dropWhile (· != '.') with
    | [] => some []
    | _ :: ds => decimalDigits? ds
  let e : Int ←
    match body.drop mantissa.length with
    | [] => some 0
    | _ :: rest =>
      let (negative, ds) := Decimal.splitSign rest
      (decimalDigits? ds).map fun ds =>
        if negative then -(valueIn 10 ds : Int) else valueIn 10 ds
  some { negative, digits := valueIn 10 (whole ++ fraction), exponent := e - fraction.length }

/-- A decimal as a float. -/
def ofDecimal (d : Decimal) : Value :=
  if d.toDouble.isFinite then .float d.toDouble else .unreadable

/-- A word for infinity or for no number, with an optional sign. -/
def word? (cs : List Char) : Option Value :=
  let (negative, body) := Decimal.splitSign cs
  if body = "inf".toList then some (.float (if negative then -(1 / 0) else 1 / 0))
  else if body = "nan".toList then some (.float (0 / 0))
  else none

/-! ## Numbers -/

/-- A number. A prefix tells the base of an integer and stands without a sign before it; what
follows the first digits tells a float from an integer in base ten. -/
def number? (cs : List Char) : Option Value :=
  match cs with
  | '0' :: 'x' :: body => prefixed? 16 body
  | '0' :: 'o' :: body => prefixed? 8 body
  | '0' :: 'b' :: body => prefixed? 2 body
  | _ =>
    let body := (Decimal.splitSign cs).2
    let rest := body.dropWhile Char.isDigit
    if rest.any fun c => c = '.' || isExponentMark c then (decimal? cs).map ofDecimal
    else if body.isEmpty || (body ≠ ['0'] && body.head? = some '0') then none
    else if rest.isEmpty || (rest.head? = some '_' && !rest.contains ' ') then plain? cs
    else none

/-! ## Dates and times -/

/-- A fixed count of digits, and what follows them. -/
def fixedDigits? (count : Nat) (cs : List Char) : Option (Nat × List Char) :=
  let ds := cs.take count
  if ds.length = count ∧ ds.all Char.isDigit then some (valueIn 10 ds, cs.drop count) else none

def isLeapYear (y : Nat) : Bool := (y % 4 = 0 && y % 100 != 0) || y % 400 = 0

def daysInMonth (y m : Nat) : Nat :=
  if m = 2 then if isLeapYear y then 29 else 28
  else if m = 4 ∨ m = 6 ∨ m = 9 ∨ m = 11 then 30 else 31

/-- A date `yyyy-mm-dd` that exists, and what follows it. -/
def date? (cs : List Char) : Option (List Char) :=
  match fixedDigits? 4 cs with
  | some (y, '-' :: rest) =>
    match fixedDigits? 2 rest with
    | some (m, '-' :: rest) =>
      match fixedDigits? 2 rest with
      | some (d, rest) =>
        if 1 ≤ m ∧ m ≤ 12 ∧ 1 ≤ d ∧ d ≤ daysInMonth y m then some rest else none
      | none => none
    | _ => none
  | _ => none

/-- An optional fraction of a second, and what follows it. -/
def fraction? : List Char → Option (List Char)
  | '.' :: c :: rest => if c.isDigit then some (rest.dropWhile Char.isDigit) else none
  | '.' :: [] => none
  | cs => some cs

/-- A time `hh:mm`, with seconds and a fraction of them if wanted, and what follows it. -/
def time? (cs : List Char) : Option (List Char) :=
  match fixedDigits? 2 cs with
  | some (h, ':' :: rest) =>
    match fixedDigits? 2 rest with
    | some (m, rest) =>
      if 23 < h ∨ 59 < m then none
      else
        match rest with
        | ':' :: rest =>
          match fixedDigits? 2 rest with
          | some (s, rest) => if 60 < s then none else fraction? rest
          | none => none
        | rest => some rest
    | none => none
  | _ => none

/-- Whether this is an offset from universal time, or nothing. -/
def isOffset : List Char → Bool
  | [] => true
  | c :: rest =>
    if c = 'Z' ∨ c = 'z' then rest.isEmpty
    else if c = '+' ∨ c = '-' then
      match fixedDigits? 2 rest with
      | some (h, ':' :: rest) =>
        match fixedDigits? 2 rest with
        | some (m, []) => h ≤ 23 ∧ m ≤ 59
        | _ => false
      | _ => false
    else false

/-- Whether this is a date, a time, or a date with a time and perhaps an offset. -/
def isDatetime (cs : List Char) : Bool :=
  match date? cs with
  | some [] => true
  | some (c :: rest) =>
    (c = 'T' || c = 't' || c = ' ') &&
      match time? rest with
      | some rest => isOffset rest
      | none => false
  | none =>
    match time? cs with
    | some [] => true
    | _ => false

/-! ## All of them -/

/-- The plain value that a text stands for. -/
def read? (text : String) : Option Value :=
  let cs := text.toList
  if text = "true" then some (.boolean true)
  else if text = "false" then some (.boolean false)
  else if isDatetime cs then some (.datetime text)
  else (word? cs).or (number? cs)

end ControlVoltage.Toml.Scalar
