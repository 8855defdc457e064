import ImportCycles.Toml.Value
/-!
TOML words: truth values, numbers, dates and times. A word is the longest run of characters that
such a value can hold.
-/
namespace ImportCycles.Toml.Scalar

def isWordChar (c : Char) : Bool :=
  c.isAlphanum || c = '_' || c = '+' || c = '-' || c = '.' || c = ':'

def digitValue (c : Char) : Nat :=
  if c.isDigit then c.toNat - '0'.toNat
  else if 'a' ≤ c ∧ c ≤ 'f' then c.toNat - 'a'.toNat + 10
  else c.toNat - 'A'.toNat + 10

def isHexDigit (c : Char) : Bool :=
  c.isDigit || ('a' ≤ c && c ≤ 'f') || ('A' ≤ c && c ≤ 'F')

/-- The number that digits stand for. -/
def number (radix : Nat) (digits : List Char) : Nat :=
  digits.foldl (fun n c => n * radix + digitValue c) 0

/-- The digits of a run in which single underscores may stand between two digits. -/
def digits? (isDigit : Char → Bool) : List Char → Option (List Char)
  | [] => none
  | [c] => if isDigit c then some [c] else none
  | c :: '_' :: rest => if isDigit c then (digits? isDigit rest).map (c :: ·) else none
  | c :: rest => if isDigit c then (digits? isDigit rest).map (c :: ·) else none

/-- Digits without a zero at their front, unless it is the only one. -/
def plainDigits? (cs : List Char) : Option (List Char) :=
  match digits? Char.isDigit cs with
  | some ('0' :: _ :: _) => none
  | digits => digits

/-- The text without its sign, and whether the sign is a minus. -/
def sign : List Char → Bool × List Char
  | '-' :: cs => (true, cs)
  | '+' :: cs => (false, cs)
  | cs => (false, cs)

/-- Whether a number can be held in 64 bits with a sign. -/
def fits (n : Int) : Bool := Int64.minValue.toInt ≤ n && n ≤ Int64.maxValue.toInt

def integer? (word : List Char) : Option Int := do
  let n : Int ←
    match word with
    | '0' :: 'x' :: cs => (digits? isHexDigit cs).map fun ds => Int.ofNat (number 16 ds)
    | '0' :: 'o' :: cs =>
      (digits? (fun c => '0' ≤ c && c ≤ '7') cs).map fun ds => Int.ofNat (number 8 ds)
    | '0' :: 'b' :: cs =>
      (digits? (fun c => c = '0' || c = '1') cs).map fun ds => Int.ofNat (number 2 ds)
    | cs =>
      let (minus, cs) := sign cs
      (plainDigits? cs).map fun ds =>
        if minus then -Int.ofNat (number 10 ds) else Int.ofNat (number 10 ds)
  if fits n then some n else none

/-- The least magnitude that rounds to no finite double: halfway from the greatest one to
2 ^ 1024. -/
def overflow : Nat := Nat.pow 2 1024 - Nat.pow 2 970

/-- Whether `digits` times ten to the `exponent` rounds to a finite double. -/
def isFinite (digits : List Char) (exponent : Int) : Bool :=
  let digits := digits.dropWhile (· = '0')
  let magnitude := exponent + digits.length
  if digits = [] ∨ magnitude < 309 then true
  else if 309 < magnitude then false
  else if exponent < 0 then number 10 digits < overflow * Nat.pow 10 exponent.natAbs
  else number 10 digits * Nat.pow 10 exponent.natAbs < overflow

/-- An exponent after its `e`. -/
def exponent? (cs : List Char) : Option Int :=
  let (minus, cs) := sign cs
  (digits? Char.isDigit cs).map fun ds =>
    if minus then -Int.ofNat (number 10 ds) else Int.ofNat (number 10 ds)

/-- Whether a word is a float. A float that rounds to positive infinity is not written so. -/
def isFloat (word : List Char) : Bool :=
  let (minus, cs) := sign word
  if cs = ['i', 'n', 'f'] ∨ cs = ['n', 'a', 'n'] then true
  else
    let isMark := fun c => c = 'e' || c = 'E'
    let front := cs.takeWhile fun c => !isMark c
    let exponent? : Option (Option Int) :=
      match cs.dropWhile fun c => !isMark c with
      | [] => some none
      | _ :: cs => (exponent? cs).map some
    let whole := front.takeWhile (· ≠ '.')
    let fraction? : Option (Option (List Char)) :=
      match front.dropWhile (· ≠ '.') with
      | [] => some none
      | _ :: cs => (digits? Char.isDigit cs).map some
    match plainDigits? whole, fraction?, exponent? with
    | some _, some none, some none => false
    | some whole, some fraction?, some exponent? =>
      let fraction := fraction?.getD []
      minus || isFinite (whole ++ fraction) (exponent?.getD 0 - fraction.length)
    | _, _, _ => false

/-- A number of two digits within bounds. -/
def twoDigits? (low high : Nat) (a b : Char) : Option Nat :=
  let n := number 10 [a, b]
  if a.isDigit && b.isDigit && low ≤ n && n ≤ high then some n else none

def isLeapYear (year : Nat) : Bool := (year % 4 = 0 && year % 100 ≠ 0) || year % 400 = 0

def daysOf (year month : Nat) : Nat :=
  if month = 2 then if isLeapYear year then 29 else 28
  else if month ∈ [4, 6, 9, 11] then 30
  else 31

def isDate : List Char → Bool
  | [a, b, c, d, '-', e, f, '-', g, h] =>
    let year := [a, b, c, d]
    year.all Char.isDigit &&
      (twoDigits? 1 12 e f).any fun month =>
        (twoDigits? 1 (daysOf (number 10 year) month) g h).isSome
  | _ => false

/-- The one spelling of an offset from universal time. -/
def offset? : List Char → Option (List Char)
  | [] => some []
  | ['Z'] | ['z'] => some ['Z']
  | [sign, a, b, ':', c, d] =>
    if (sign = '+' ∨ sign = '-') ∧ (twoDigits? 0 23 a b).isSome ∧ (twoDigits? 0 59 c d).isSome then
      some [if [a, b, c, d].all (· = '0') then '+' else sign, a, b, ':', c, d]
    else none
  | _ => none

/-- The one spelling of a fraction of a second: nine digits at most, and no zero at its end. -/
def fraction (digits : List Char) : List Char :=
  match ((digits.take 9).reverse.dropWhile (· = '0')).reverse with
  | [] => []
  | digits => '.' :: digits

/-- The one spelling of a time, with an offset if that is allowed. -/
def time? (withOffset : Bool) : List Char → Option (List Char)
  | a :: b :: ':' :: c :: d :: ':' :: e :: f :: rest =>
    if (twoDigits? 0 23 a b).isSome ∧ (twoDigits? 0 59 c d).isSome ∧ (twoDigits? 0 60 e f).isSome then
      let (digits, rest, isPlain) :=
        match rest with
        | '.' :: rest => (rest.takeWhile Char.isDigit, rest.dropWhile Char.isDigit, false)
        | rest => ([], rest, true)
      if digits = [] ∧ !isPlain then none
      else if !withOffset ∧ rest ≠ [] then none
      else
        (offset? rest).map fun offset =>
          a :: b :: ':' :: c :: d :: ':' :: e :: f :: (fraction digits ++ offset)
    else none
  | _ => none

/-- The one spelling of a date, a time, or both with a letter between them. -/
def dateTime? (word : List Char) : Option (List Char) :=
  if isDate word then some word
  else if isDate (word.take 10) then
    match word.drop 10 with
    | 'T' :: time | 't' :: time => (time? true time).map fun time => word.take 10 ++ 'T' :: time
    | _ => none
  else time? false word

def ofWord? (word : List Char) : Option Value :=
  if word = ['t', 'r', 'u', 'e'] then some (.boolean true)
  else if word = ['f', 'a', 'l', 's', 'e'] then some (.boolean false)
  else
    match dateTime? word with
    | some text => some (.dateTime (String.ofList text))
    | none =>
      match integer? word with
      | some n => some (.integer n)
      | none => if isFloat word then some .float else none

/-- A word at the front of the text, and what follows it. After a date one space and a time may
follow. -/
def read? (cs : List Char) : Option (Value × List Char) :=
  let word := cs.takeWhile isWordChar
  let rest := cs.dropWhile isWordChar
  match rest with
  | ' ' :: c :: more =>
    if isDate word && c.isDigit then
      let time := (c :: more).takeWhile isWordChar
      (ofWord? (word ++ 'T' :: time)).map (·, (c :: more).dropWhile isWordChar)
    else (ofWord? word).map (·, rest)
  | _ => (ofWord? word).map (·, rest)

end ImportCycles.Toml.Scalar
