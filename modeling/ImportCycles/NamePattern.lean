/-!
Patterns for the names of directories: `?` for one character, `*` for any text, and sets of
characters in brackets. A pattern may be written for whole paths; a name holds no slash, so a `**`
matches all of a name or nothing of it.
-/
namespace ImportCycles

namespace NamePattern

/-- One member of a set in brackets. -/
inductive Member where
  | one (c : Char)
  | range (low high : Char)
deriving DecidableEq, Repr

def Member.holds (c : Char) : Member → Bool
  | .one d => c == d
  | .range low high => low ≤ c && c ≤ high

inductive Token where
  | literal (c : Char)
  | anyChar
  /-- `*` -/
  | anyText
  /-- `**`, with the slash after it -/
  | anyDirectories
  | inSet (members : List Member)
  | notInSet (members : List Member)
deriving DecidableEq, Repr

inductive Reason where
  | wildcards
  | recursiveWildcards
  | range
deriving DecidableEq, Repr

/-- Why a text is no pattern, and at which character. -/
structure Fault where
  position : Nat
  reason : Reason
deriving DecidableEq, Repr

def Reason.message : Reason → String
  | .wildcards => "wildcards are either regular `*` or recursive `**`"
  | .recursiveWildcards => "recursive wildcards must form a single path component"
  | .range => "invalid range pattern"

def Fault.message (fault : Fault) : String :=
  s!"Pattern syntax error near position {fault.position}: {fault.reason.message}"

/-- The members between two brackets: a dash between two characters makes a range. -/
def members : List Char → List Member
  | low :: '-' :: high :: rest => .range low high :: members rest
  | c :: rest => .one c :: members rest
  | [] => []

/-- The text before the first closing bracket, and the text after it. The first character is
never that bracket. -/
def bracketed? : List Char → Option (List Char × List Char)
  | [] => none
  | c :: rest =>
    match rest.dropWhile (· ≠ ']') with
    | [] => none
    | _ :: after => some (c :: rest.takeWhile (· ≠ ']'), after)

/-- A set in brackets, after its opening bracket. -/
def set? : List Char → Option (Token × List Char)
  | '!' :: cs => (bracketed? cs).map fun (inner, after) => (.notInSet (members inner), after)
  | cs => (bracketed? cs).map fun (inner, after) => (.inSet (members inner), after)

/-- The next token of a pattern and how many characters it takes. `position` is where it begins,
and `previous` the character before it. -/
def token (position : Nat) (previous : Option Char) : List Char → Except Fault (Option (Token × Nat))
  | [] => .ok none
  | '?' :: _ => .ok (some (.anyChar, 1))
  | '*' :: rest =>
    match rest.takeWhile (· = '*'), rest.dropWhile (· = '*') with
    | [], _ => .ok (some (.anyText, 1))
    | [_], after =>
      if previous.all (· = '/') then
        match after with
        | [] => .ok (some (.anyDirectories, 2))
        | '/' :: _ => .ok (some (.anyDirectories, 3))
        | _ => .error ⟨position + 2, .recursiveWildcards⟩
      else .error ⟨position - 1, .recursiveWildcards⟩
    | _, _ => .error ⟨position + 2, .wildcards⟩
  | '[' :: rest =>
    match set? rest with
    | some (set, after) => .ok (some (set, rest.length + 1 - after.length))
    | none => .error ⟨position, .range⟩
  | c :: _ => .ok (some (.literal c, 1))

/-- The tokens of a pattern; `skip` characters at its front belong to the token before. -/
def tokensFrom (position skip : Nat) (previous : Option Char) :
    List Char → Except Fault (List Token)
  | [] => .ok []
  | c :: rest =>
    match skip with
    | skip + 1 => tokensFrom (position + 1) skip (some c) rest
    | 0 =>
      match token position previous (c :: rest) with
      | .error fault => .error fault
      | .ok none => .ok []
      | .ok (some (token, length)) =>
        (tokensFrom (position + 1) (length - 1) (some c) rest).map (token :: ·)

/-- Whether one character matches a token that stands for one. -/
def Token.accepts (c : Char) : Token → Bool
  | .literal d => c == d
  | .anyChar => true
  | .inSet members => members.any (Member.holds c)
  | .notInSet members => !members.any (Member.holds c)
  | .anyText | .anyDirectories => false

/-- Whether the test holds of the text or of what is left of it after some of its front. -/
def anySuffix (test : List Char → Bool) : List Char → Bool
  | [] => test []
  | c :: rest => test (c :: rest) || anySuffix test rest

/-- Whether the tokens match a name. -/
def tokensMatch : List Token → List Char → Bool
  | [], cs => cs.isEmpty
  | .anyText :: tokens, cs => anySuffix (tokensMatch tokens) cs
  | .anyDirectories :: tokens, cs => tokensMatch tokens cs || tokensMatch tokens []
  | _ :: _, [] => false
  | token :: tokens, c :: cs => token.accepts c && tokensMatch tokens cs

end NamePattern

/-- A pattern that has been read. -/
structure NamePattern where
  tokens : List NamePattern.Token
deriving DecidableEq, Repr

namespace NamePattern

def ofText (text : String) : Except Fault NamePattern :=
  (tokensFrom 0 0 none text.toList).map NamePattern.mk

def isMatch (p : NamePattern) (name : List Char) : Bool := tokensMatch p.tokens name

end NamePattern

end ImportCycles
