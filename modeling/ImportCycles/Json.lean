/-! JSON values without fractions, and how they are laid out over lines. -/
namespace ImportCycles

inductive Json where
  | number (n : Nat)
  | string (s : String)
  | array (items : List Json)
  | object (members : List (String × Json))

namespace Json

/-- One hexadecimal digit, in lower case. -/
def hexDigit (n : Nat) : Char :=
  if n < 10 then Char.ofNat ('0'.toNat + n) else Char.ofNat ('a'.toNat + n - 10)

/-- A character inside a string. Only quotes, backslashes and control characters are escaped. -/
def escape (c : Char) : List Char :=
  if c = '\x22' then ['\\', '\x22']
  else if c = '\\' then ['\\', '\\']
  else if c = '\x08' then ['\\', 'b']
  else if c = '\t' then ['\\', 't']
  else if c = '\n' then ['\\', 'n']
  else if c = '\x0c' then ['\\', 'f']
  else if c = '\r' then ['\\', 'r']
  else if c.toNat < 0x20 then
    ['\\', 'u', '0', '0', hexDigit (c.toNat / 16), hexDigit (c.toNat % 16)]
  else [c]

def quoted (s : String) : List Char := '\x22' :: s.toList.flatMap escape ++ ['\x22']

/-- A new line at some depth: two blanks for each level. -/
def newline (depth : Nat) : List Char := '\n' :: List.replicate (2 * depth) ' '

mutual

/-- The text of a value that begins at some depth. -/
def layout (depth : Nat) : Json → List Char
  | .number n => (toString n).toList
  | .string s => quoted s
  | .array [] => ['[', ']']
  | .array (item :: items) =>
    '[' :: newline (depth + 1) ++ layout (depth + 1) item ++ layoutItems (depth + 1) items ++
      newline depth ++ [']']
  | .object [] => ['{', '}']
  | .object ((key, value) :: members) =>
    '{' :: newline (depth + 1) ++ quoted key ++ [':', ' '] ++ layout (depth + 1) value ++
      layoutMembers (depth + 1) members ++ newline depth ++ ['}']
termination_by structural value => value

/-- The items after the first one. -/
def layoutItems (depth : Nat) : List Json → List Char
  | [] => []
  | item :: items => ',' :: newline depth ++ layout depth item ++ layoutItems depth items
termination_by structural items => items

/-- The members after the first one. -/
def layoutMembers (depth : Nat) : List (String × Json) → List Char
  | [] => []
  | (key, value) :: members =>
    ',' :: newline depth ++ quoted key ++ [':', ' '] ++ layout depth value ++
      layoutMembers depth members
termination_by structural members => members

end

/-- The text of a value, one item or member a line. -/
def pretty (value : Json) : String := String.ofList (layout 0 value)

end Json

end ImportCycles
