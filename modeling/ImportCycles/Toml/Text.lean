import ImportCycles.Toml.Scalar
/-! TOML text: blanks, comments, line ends, quoted strings and keys. -/
namespace ImportCycles.Toml.Text

def isSpace (c : Char) : Bool := c = ' ' || c = '\t'

/-- Any character that a line may hold. -/
def isInLine (c : Char) : Bool := c = '\t' || (0x20 ≤ c.toNat && c.toNat ≠ 0x7F)

def skipSpaces (cs : List Char) : List Char := cs.dropWhile isSpace

/-- Blanks, line ends and comments; `inComment` says whether a comment is under way. -/
def skipBlanks (inComment : Bool) : List Char → List Char
  | [] => []
  | '\r' :: '\n' :: rest => skipBlanks false rest
  | c :: rest =>
    if c = '\n' then skipBlanks false rest
    else if inComment then if isInLine c then skipBlanks true rest else c :: rest
    else if isSpace c then skipBlanks false rest
    else if c = '#' then skipBlanks true rest
    else c :: rest

/-- What follows a comment or nothing, and the end of the line. -/
def lineEnd? (cs : List Char) : Option (List Char) :=
  let cs :=
    match skipSpaces cs with
    | '#' :: rest => rest.dropWhile isInLine
    | cs => cs
  match cs with
  | [] => some []
  | '\n' :: rest | '\r' :: '\n' :: rest => some rest
  | _ => none

/-- The character of a code point given by its digits, unless it is a surrogate or none at all. -/
def codePoint? (digits : List Char) : Option Char :=
  let n := Scalar.number 16 digits
  if digits.all Scalar.isHexDigit ∧ n.isValidChar then some (Char.ofNat n) else none

/-- The character that a letter after a backslash stands for. -/
def escape? : Char → Option Char
  | 'b' => some '\x08'
  | 't' => some '\t'
  | 'n' => some '\n'
  | 'f' => some '\x0c'
  | 'r' => some '\r'
  | '\x22' => some '\x22'
  | '\\' => some '\\'
  | _ => none

/-- The text up to `needed` quotes `q` in a row, and what follows them. `run` quotes have just been
read, and `seen` holds all that has been read, the last character first. After three quotes up to
two more belong to the text. With `escapes`, a backslash keeps the next character from closing. -/
def extentFrom (q : Char) (escapes : Bool) (needed run : Nat) (isEscaped : Bool)
    (seen : List Char) : List Char → Option (List Char × List Char)
  | [] => none
  | c :: rest =>
    if isEscaped then extentFrom q escapes needed 0 false (c :: seen) rest
    else if escapes ∧ c = '\\' then extentFrom q escapes needed 0 true (c :: seen) rest
    else if c = q then
      if run + 1 = needed then
        let more := if needed = 3 then ((rest.take 2).takeWhile (· = q)).length else 0
        some ((List.replicate more q ++ seen.drop run).reverse, rest.drop more)
      else extentFrom q escapes needed (run + 1) false (c :: seen) rest
    else extentFrom q escapes needed 0 false (c :: seen) rest

/-- A gap in a long string: a backslash at the end of a line takes the line end and all blanks
after it out of the string. -/
inductive Gap where
  | none
  /-- After the backslash: the line has to end. -/
  | opened
  /-- After the line end. -/
  | crossed
deriving DecidableEq

/-- The characters that the text between double quotes stands for. Only a long string may hold
line ends and gaps. -/
def unescape? (long : Bool) (gap : Gap) : List Char → Option (List Char)
  | [] => if gap = .opened then none else some []
  | '\r' :: '\n' :: rest =>
    if !long then none
    else if gap = .none then (unescape? long .none rest).map ('\n' :: ·)
    else unescape? long .crossed rest
  | '\\' :: 'u' :: a :: b :: c :: d :: rest =>
    if gap = .opened then none
    else
      match codePoint? [a, b, c, d] with
      | some ch => (unescape? long .none rest).map (ch :: ·)
      | none => none
  | '\\' :: 'U' :: a :: b :: c :: d :: e :: f :: g :: h :: rest =>
    if gap = .opened then none
    else
      match codePoint? [a, b, c, d, e, f, g, h] with
      | some ch => (unescape? long .none rest).map (ch :: ·)
      | none => none
  | '\\' :: c :: rest =>
    if gap = .opened then none
    else
      match escape? c with
      | some ch => (unescape? long .none rest).map (ch :: ·)
      | none => if long then unescape? long .opened (c :: rest) else none
  | c :: rest =>
    if c = '\n' then
      if !long then none
      else if gap = .none then (unescape? long .none rest).map ('\n' :: ·)
      else unescape? long .crossed rest
    else if isSpace c ∧ gap ≠ .none then unescape? long gap rest
    else if gap = .opened ∨ c = '\\' ∨ !isInLine c then none
    else (unescape? long .none rest).map (c :: ·)

/-- The characters that the text between single quotes stands for. -/
def verbatim? (long : Bool) : List Char → Option (List Char)
  | [] => some []
  | '\r' :: '\n' :: rest => if long then (verbatim? long rest).map ('\n' :: ·) else none
  | c :: rest =>
    if isInLine c || (long && c = '\n') then (verbatim? long rest).map (c :: ·) else none

/-- The text without one line end at its front. -/
def skipLineEnd : List Char → List Char
  | '\n' :: rest | '\r' :: '\n' :: rest => rest
  | cs => cs

/-- The rest of a string after the quotes that open it. -/
def stringRest? (q : Char) (long : Bool) (cs : List Char) : Option (String × List Char) := do
  let isBasic := q = '\x22'
  let (raw, rest) ← extentFrom q isBasic (if long then 3 else 1) 0 false [] cs
  let text ← if isBasic then unescape? long .none raw else verbatim? long raw
  some (String.ofList text, rest)

/-- A string in single or double quotes on one line. -/
def shortString? : List Char → Option (String × List Char)
  | '\x22' :: rest => stringRest? '\x22' false rest
  | '\x27' :: rest => stringRest? '\x27' false rest
  | _ => none

/-- A string in any quotes. -/
def string? : List Char → Option (String × List Char)
  | '\x22' :: '\x22' :: '\x22' :: rest => stringRest? '\x22' true (skipLineEnd rest)
  | '\x27' :: '\x27' :: '\x27' :: rest => stringRest? '\x27' true (skipLineEnd rest)
  | cs => shortString? cs

def isBareChar (c : Char) : Bool := c.isAlphanum || c = '_' || c = '-'

/-- One part of a key. -/
def keyPart? (cs : List Char) : Option (String × List Char) :=
  match cs.head? with
  | some '\x22' | some '\x27' => shortString? cs
  | _ =>
    let part := cs.takeWhile isBareChar
    if part = [] then none else some (String.ofList part, cs.dropWhile isBareChar)

/-- A key of at most `most` parts with points between them, and the blanks around it. -/
def keyParts? : Nat → List Char → Option (List String × List Char)
  | 0, _ => none
  | most + 1, cs => do
    let (part, rest) ← keyPart? (skipSpaces cs)
    match skipSpaces rest with
    | '.' :: rest => do
      let (parts, rest) ← keyParts? most rest
      some (part :: parts, rest)
    | rest => some ([part], rest)

/-- Keys have fewer parts than this, and arrays and inline tables are nested less deeply. -/
def depthLimit : Nat := 80

/-- A key: the path to its table, and its last part. -/
def key? (cs : List Char) : Option ((List String × String) × List Char) := do
  let (parts, rest) ← keyParts? (depthLimit - 1) cs
  some ((parts.dropLast, parts.getLastD ""), rest)

end ImportCycles.Toml.Text
