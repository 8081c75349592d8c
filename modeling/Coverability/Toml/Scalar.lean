import Coverability.Text.Digits
import Coverability.Toml.Basic

/-!
# Numbers, truth values and dates

`scalar?` reads a value that is written without quotes or brackets. It tells whole numbers from other
values by their first characters, and leaves some literals of whole numbers without a value. These are
errors only where the value is asked for.
-/

namespace Coverability.Toml

/-- Whether each underscore stands between two digits, where `afterDigit` says whether a digit stands in
front of the characters. -/
def underscoresFit (isDigit : Char → Bool) : (afterDigit : Bool) → List Char → Bool
  | _, [] => true
  | afterDigit, '_' :: rest =>
    afterDigit && rest.head?.any isDigit && underscoresFit isDigit false rest
  | _, c :: rest => underscoresFit isDigit (isDigit c) rest

def withoutUnderscores (cs : List Char) : List Char :=
  cs.filter (· != '_')

def isDigitOf (base : Nat) (c : Char) : Bool :=
  (Text.hexDigit? c).any (· < base)

def valueIn? (base : Nat) (ds : List Char) : Option Int :=
  if ds.isEmpty ∨ !ds.all (isDigitOf base) then none
  else some (ds.foldl (fun n d => base * n + (Text.hexDigit? d).getD 0) 0 : Nat)

/-- A whole number in this base, after the letter that names it. Without digits it has no value. -/
def based? (base : Nat) (cs : List Char) : Option Value :=
  if cs.all (fun c => c == '_' || isDigitOf base c) ∧ underscoresFit (isDigitOf base) false cs then
    some (.integer (valueIn? base (withoutUnderscores cs)))
  else none

def splitSign : List Char → Option Char × List Char
  | '+' :: cs => (some '+', cs)
  | '-' :: cs => (some '-', cs)
  | cs => (none, cs)

def withSign (sign : Option Char) (n : Int) : Int :=
  if sign = some '-' then -n else n

/-- Whether a number starts with a zero that it does not need. -/
def hasLeadingZero : List Char → Bool
  | '0' :: c :: _ => c.isDigit || c == '_'
  | _ => false

/-- A whole number in base ten, after its sign. What follows its first underscore is not looked at
closely: there may be anything but a space, and next to an underscore a letter up to `f` passes for a
digit. With such characters the number has no value. -/
def whole? (sign : Option Char) (cs : List Char) : Option Value :=
  match cs, cs.dropWhile Char.isDigit with
  | [], _ => none
  | _, [] => some (.integer ((valueIn? 10 cs).map (withSign sign)))
  | _, '_' :: _ =>
    if ' ' ∉ cs ∧ underscoresFit (isDigitOf 16) false cs then
      some (.integer ((valueIn? 10 (withoutUnderscores cs)).map (withSign sign)))
    else none
  | _, _ => none

/-- The characters before the first one that satisfies `p`, and those after it if there is one. -/
def splitFirst (p : Char → Bool) (cs : List Char) : List Char × Option (List Char) :=
  (cs.takeWhile (!p ·), (cs.dropWhile (!p ·)).tail?)

/-- The value of at least one digit, and how many digits there are. -/
def digits? (cs : List Char) : Option (Nat × Nat) :=
  if cs.isEmpty ∨ !cs.all Char.isDigit then none else some (Text.digitsValue cs, cs.length)

def exponent? : Option (List Char) → Option Int
  | none => some 0
  | some cs => do
    let (sign, cs) := splitSign cs
    let (n, _) ← digits? cs
    return withSign sign n

def isExponentMark (c : Char) : Bool :=
  c == 'e' || c == 'E'

/-- A number with a fraction, an exponent or both, after its sign. -/
def fractional? (sign : Option Char) (cs : List Char) : Option Value := do
  if !underscoresFit Char.isDigit false cs then none
  let (mantissa, exponent) := splitFirst isExponentMark (withoutUnderscores cs)
  let (whole, fraction) := splitFirst (· == '.') mantissa
  let (whole, _) ← digits? whole
  let (fraction, places) ← (fraction.map digits?).getD (some (0, 0))
  let exponent ← exponent? exponent
  return .decimal (.finite (sign = some '-') (whole * Nat.pow 10 places + fraction) (exponent - places))

/-- A number in base ten, or a name for something that is no finite number. -/
def number? (cs : List Char) : Option Value :=
  match splitSign cs with
  | (sign, ['i', 'n', 'f']) => some (.decimal (.infinity (sign = some '-')))
  | (_, ['n', 'a', 'n']) => some (.decimal .notANumber)
  | (sign, cs) =>
    if hasLeadingZero cs then none
    else if cs.any fun c => c == '.' || isExponentMark c then fractional? sign cs
    else whole? sign cs

def fixed? (width : Nat) (cs : List Char) : Option Nat :=
  if cs.length = width ∧ cs.all Char.isDigit then some (Text.digitsValue cs) else none

def isLeapYear (year : Nat) : Bool :=
  year % 4 = 0 ∧ (year % 100 ≠ 0 ∨ year % 400 = 0)

def daysIn (year month : Nat) : Nat :=
  if month = 2 then if isLeapYear year then 29 else 28
  else if month ∈ [4, 6, 9, 11] then 30
  else 31

/-- Whether the characters are a date, such as `1979-05-27`. -/
def isDate : List Char → Bool
  | [y₁, y₂, y₃, y₄, '-', m₁, m₂, '-', d₁, d₂] =>
    match fixed? 4 [y₁, y₂, y₃, y₄], fixed? 2 [m₁, m₂], fixed? 2 [d₁, d₂] with
    | some year, some month, some day =>
      1 ≤ month ∧ month ≤ 12 ∧ 1 ≤ day ∧ day ≤ daysIn year month
    | _, _, _ => false
  | _ => false

def isUpTo (most : Nat) (cs : List Char) : Bool :=
  (fixed? 2 cs).any (· ≤ most)

/-- Whether the characters are the seconds of a time, which may be missing or have a fraction. -/
def isSeconds : List Char → Bool
  | [] => true
  | [':', s₁, s₂] => isUpTo 60 [s₁, s₂]
  | ':' :: s₁ :: s₂ :: '.' :: fraction =>
    isUpTo 60 [s₁, s₂] && !fraction.isEmpty && fraction.all Char.isDigit
  | _ => false

/-- Whether the characters are a time, such as `07:32` or `07:32:00.5`. -/
def isTime : List Char → Bool
  | h₁ :: h₂ :: ':' :: m₁ :: m₂ :: seconds =>
    isUpTo 23 [h₁, h₂] && isUpTo 59 [m₁, m₂] && isSeconds seconds
  | _ => false

def isOffset : List Char → Bool
  | [] => true
  | ['Z'] => true
  | ['z'] => true
  | [sign, h₁, h₂, ':', m₁, m₂] =>
    (sign == '+' || sign == '-') && isUpTo 23 [h₁, h₂] && isUpTo 59 [m₁, m₂]
  | _ => false

def isTimeWithOffset (cs : List Char) : Bool :=
  let starts := fun c => c == 'Z' || c == 'z' || c == '+' || c == '-'
  isTime (cs.takeWhile (!starts ·)) && isOffset (cs.dropWhile (!starts ·))

def isMoment (cs : List Char) : Bool :=
  isDate cs || isTime cs ||
    match cs.drop 10 with
    | separator :: time =>
      isDate (cs.take 10) && (separator == 'T' || separator == 't' || separator == ' ') &&
        isTimeWithOffset time
    | [] => false

/-- Reads a value that is written without quotes or brackets. -/
def scalar? (cs : List Char) : Option Value :=
  if isMoment cs then some .moment
  else
    match cs with
    | ['t', 'r', 'u', 'e'] => some (.boolean true)
    | ['f', 'a', 'l', 's', 'e'] => some (.boolean false)
    | '0' :: 'x' :: cs => based? 16 cs
    | '0' :: 'o' :: cs => based? 8 cs
    | '0' :: 'b' :: cs => based? 2 cs
    | cs => number? cs

example : isMoment "1979-05-27 07:32:00Z".toList = true := by decide

example : isMoment "1979-02-29".toList = false := by decide

end Coverability.Toml
