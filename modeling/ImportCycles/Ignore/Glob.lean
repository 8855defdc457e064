import ImportCycles.Path
/-!
The patterns of ignore files. They are written in characters and match bytes: `?` and a set in
brackets stand for one byte, and `?` and `*` for none that is a slash.
-/
namespace ImportCycles.Ignore

inductive Token where
  | literal (c : Char)
  | anyByte
  /-- `*` -/
  | anyText
  /-- `**` at the front, with the slash after it. -/
  | anyFront
  /-- `**` at the end, with the slash before it. -/
  | anyEnd
  /-- `**` between two slashes, with both. -/
  | anyMiddle
  | inSet (negated : Bool) (ranges : List (Char × Char))
  | alternatives (branches : List (List Token))

namespace Glob

inductive Fault where
  | unopenedAlternatives
  | unclosedAlternatives
  | invalidRange
  | danglingEscape
deriving DecidableEq, Repr

/-- A set in brackets being read: the ranges so far, the last one first, and whether a dash has
just opened a range. -/
structure SetState where
  ranges : List (Char × Char)
  inRange : Bool
deriving Repr

/-- One more character of a set. A dash joins its two neighbours, unless it comes first or last. -/
def SetState.add (s : SetState) (c : Char) : Except Fault SetState :=
  match s.ranges, s.inRange with
  | (low, _) :: before, true =>
    if c < low then .error .invalidRange else .ok ⟨(low, c) :: before, false⟩
  | ranges, _ =>
    if c = '-' ∧ ranges ≠ [] then .ok ⟨ranges, true⟩ else .ok ⟨(c, c) :: ranges, false⟩

/-- The ranges up to the bracket that closes the set, and the text after it; nothing, if no
bracket closes it. A bracket that comes first does not close. -/
def setFrom (s : SetState) : List Char → Except Fault (Option (List (Char × Char) × List Char))
  | [] => .ok none
  | c :: rest =>
    if c = ']' ∧ s.ranges ≠ [] then
      let ranges := if s.inRange then ('-', '-') :: s.ranges else s.ranges
      .ok (some (ranges.reverse, rest))
    else
      match s.add c with
      | .error fault => .error fault
      | .ok next => setFrom next rest

/-- A set in brackets, after its opening bracket: the token and the text after it. -/
def set? (cs : List Char) : Except Fault (Option (Token × List Char)) :=
  let negated := cs.head?.any fun c => c = '!' || c = '^'
  (setFrom ⟨[], false⟩ (if negated then cs.tail else cs)).map
    (Option.map fun (ranges, rest) => (.inSet negated ranges, rest))

/-- The branches open at some point of a pattern: the group being read inside each brace still
open, the innermost first. Tokens and finished branches stand last first. -/
structure Open where
  tokens : List Token
  finished : List (List Token)

/-- A pattern being read: the innermost branch, and those around it. -/
structure State where
  inner : Open
  outer : List Open
  /-- The character before. -/
  previous : Option Char
  /-- Set once a bracket has been found that nothing closes: from then on brackets are text. -/
  plainBrackets : Bool

namespace State

def start : State := ⟨⟨[], []⟩, [], none, false⟩

def push (s : State) (token : Token) : State :=
  { s with inner := { s.inner with tokens := token :: s.inner.tokens } }

def isInside (s : State) : Bool := !s.outer.isEmpty

/-- A brace that opens alternatives. -/
def openBrace (s : State) : State :=
  { s with inner := ⟨[], []⟩, outer := s.inner :: s.outer }

/-- A comma between alternatives. -/
def comma (s : State) : State :=
  { s with inner := ⟨[], s.inner.tokens.reverse :: s.inner.finished⟩ }

/-- A brace that closes alternatives. -/
def closeBrace (s : State) : Except Fault State :=
  match s.outer with
  | [] => .error .unopenedAlternatives
  | around :: outer =>
    let branches := (s.inner.tokens.reverse :: s.inner.finished).reverse
    .ok ({ s with inner := around, outer := outer }.push (.alternatives branches))

/-- Two stars that do not stand between slashes. -/
def twoStars (s : State) : State := (s.push .anyText).push .anyText

/-- The token for `**` between slashes, in place of the slash before it. -/
def wholeComponents (s : State) (atEnd : Bool) : State :=
  match s.inner.tokens with
  | .anyFront :: _ | .anyEnd :: _ => s
  | tokens =>
    let token := if atEnd then Token.anyEnd else Token.anyMiddle
    { s with inner := { s.inner with tokens := token :: tokens.tail } }

/-- A `**`, before the text `rest`, and how many characters of that text belong to it. -/
def stars (s : State) (rest : List Char) : State × Nat :=
  if s.inner.tokens.isEmpty then
    match rest with
    | [] => (s.push .anyFront, 0)
    | '/' :: _ => (s.push .anyFront, 1)
    | _ => (s.twoStars, 0)
  else if s.previous = some '/' ∨ (s.isInside ∧ (s.previous = some ',' ∨ s.previous = some '{')) then
    match rest with
    | [] => (s.wholeComponents true, 0)
    | '/' :: _ => (s.wholeComponents false, 1)
    | c :: _ => if s.isInside ∧ (c = ',' ∨ c = '}') then (s.wholeComponents true, 0)
      else (s.twoStars, 0)
  else (s.twoStars, 0)

/-- The character `c`, before the text `rest`, and how many characters of that text it takes. -/
def read (s : State) (c : Char) (rest : List Char) : Except Fault (State × Nat) :=
  match c with
  | '?' => .ok (s.push .anyByte, 0)
  | '*' =>
    match rest with
    | '*' :: rest => let (s, taken) := s.stars rest; .ok (s, taken + 1)
    | _ => .ok (s.push .anyText, 0)
  | '[' =>
    if s.plainBrackets then .ok (s.push (.literal '['), 0)
    else
      match set? rest with
      | .error fault => .error fault
      | .ok none => .ok ({ s with plainBrackets := true }.push (.literal '['), 0)
      | .ok (some (set, after)) => .ok (s.push set, rest.length - after.length)
  | '{' => .ok (s.openBrace, 0)
  | '}' => s.closeBrace.map (·, 0)
  | ',' => .ok (if s.isInside then s.comma else s.push (.literal ','), 0)
  | '\\' =>
    match rest with
    | [] => .error .danglingEscape
    | c :: _ => .ok (s.push (.literal c), 1)
  | c => .ok (s.push (.literal c), 0)

end State

/-- The tokens of a pattern, from a state; `skip` characters at the front have been read. -/
def tokensFrom (s : State) (skip : Nat) : List Char → Except Fault (List Token)
  | [] => if s.isInside then .error .unclosedAlternatives else .ok s.inner.tokens.reverse
  | c :: rest =>
    match skip with
    | skip + 1 => tokensFrom { s with previous := some c } skip rest
    | 0 =>
      match s.read c rest with
      | .error fault => .error fault
      | .ok (s, taken) => tokensFrom { s with previous := some c } taken rest

def tokens (pattern : List Char) : Except Fault (List Token) := tokensFrom State.start 0 pattern

end Glob

/-- Whether a byte lies in a range of characters. Only the last byte of the one end and the first
byte of the other make a range; the other bytes of the two ends stand for themselves. -/
def rangeHolds (b : UInt8) (range : Char × Char) : Bool :=
  let low := Text.Utf8.encode [range.1]
  let high := Text.Utf8.encode [range.2]
  if range.1 = range.2 then low.contains b
  else
    low.dropLast.contains b || high.tail.contains b ||
      ((low.getLast?.any (· ≤ b)) && (high.head?.any (b ≤ ·)))

/-- The text itself and every text left of it after some of its front. -/
def suffixes : List UInt8 → List (List UInt8)
  | [] => [[]]
  | b :: rest => (b :: rest) :: suffixes rest

/-- The texts left after the front of `bs` up to some slash. -/
def afterSlashes : List UInt8 → List (List UInt8)
  | [] => []
  | b :: rest => if b = Path.slash then rest :: afterSlashes rest else afterSlashes rest

/-- The texts left after some bytes of the front of `bs`, none of them a slash. -/
def afterText : List UInt8 → List (List UInt8)
  | [] => [[]]
  | b :: rest => (b :: rest) :: if b = Path.slash then [] else afterText rest

mutual

/-- Whether a token asks for nothing: it offers alternatives, and none of them asks for anything. -/
def Token.isVoid : Token → Bool
  | .alternatives branches => allVoid branches
  | _ => false
termination_by structural token => token

def rowIsVoid : List Token → Bool
  | [] => true
  | token :: tokens => token.isVoid && rowIsVoid tokens
termination_by structural tokens => tokens

def allVoid : List (List Token) → Bool
  | [] => true
  | branch :: branches => rowIsVoid branch && allVoid branches
termination_by structural branches => branches

end

mutual

/-- What may be left of a text after its front has matched a token. -/
def Token.rests (bs : List UInt8) : Token → List (List UInt8)
  | .literal c => ((Text.Utf8.encode [c]).isPrefixOf? bs).toList
  | .anyByte =>
    match bs with
    | b :: rest => if b = Path.slash then [] else [rest]
    | [] => []
  | .anyText => afterText bs
  | .anyFront => bs :: afterSlashes bs
  | .anyEnd =>
    match bs with
    | b :: rest => if b = Path.slash then suffixes rest else []
    | [] => []
  | .anyMiddle =>
    match bs with
    | b :: rest => if b = Path.slash then rest :: afterSlashes rest else []
    | [] => []
  | .inSet negated ranges =>
    match bs with
    | b :: rest => if ranges.any (rangeHolds b) = negated then [] else [rest]
    | [] => []
  | .alternatives branches => if allVoid branches then [bs] else branchRests bs branches
termination_by structural token => token

/-- What may be left of one of some texts after a row of tokens. -/
def rowRests (texts : List (List UInt8)) : List Token → List (List UInt8)
  | [] => texts
  | token :: tokens => rowRests (texts.flatMap fun bs => token.rests bs).eraseDups tokens
termination_by structural tokens => tokens

/-- What may be left after one of the branches that ask for something. -/
def branchRests (bs : List UInt8) : List (List Token) → List (List UInt8)
  | [] => []
  | branch :: branches =>
    (if rowIsVoid branch then [] else rowRests [bs] branch) ++ branchRests bs branches
termination_by structural branches => branches

end

/-- Whether the tokens match the path from its front to its end. A lone `**` matches every path. -/
def matchesPath (tokens : List Token) (path : List UInt8) : Bool :=
  match tokens with
  | [.anyFront] => true
  | _ => (rowRests [path] tokens).any List.isEmpty

end ImportCycles.Ignore
