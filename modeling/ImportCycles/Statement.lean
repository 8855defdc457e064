import ImportCycles.ImportKind
import ImportCycles.Text.Blank
/-!
One statement at the front of a text: its keyword, what leads to the specifier, the specifier
between two quotes, and what closes it. A specifier ends at the first quote that can close it and
never crosses a line.
-/
namespace ImportCycles

/-- A statement cut into three; the three in a row are its text. -/
structure Statement where
  /-- From the keyword to the quote that opens the specifier. -/
  opening : List Char
  specifier : List Char
  /-- From the quote that closes the specifier to the end of the statement. -/
  closing : List Char
deriving DecidableEq, Repr

namespace Statement

def text (s : Statement) : List Char := s.opening ++ s.specifier ++ s.closing

/-- The same statement with more text before it. -/
def after (lead : List Char) (s : Statement) : Statement := { s with opening := lead ++ s.opening }

def isQuote (c : Char) : Bool := c = '\x27' || c = '\x22'

/-- What a shape asks for after the quote that closes the specifier. -/
def ending? : ImportKind.Shape → List Char → Option (List Char)
  | .call, cs =>
    match cs.dropWhile Text.isBlank with
    | ')' :: _ => some (cs.takeWhile Text.isBlank ++ [')'])
    | _ => none
  | _, _ => some []

/-- The specifier and its closing, read on from `seen`, whose last character comes first. -/
def specifierFrom (shape : ImportKind.Shape) (seen : List Char) : List Char → Option Statement
  | [] => none
  | c :: rest =>
    if isQuote c then
      match ending? shape rest with
      | some ending => some ⟨[], seen.reverse, c :: ending⟩
      | none => specifierFrom shape (c :: seen) rest
    else if c = '\n' then none
    else specifierFrom shape (c :: seen) rest

/-- A quoted specifier at the front of the text. -/
def quoted? (shape : ImportKind.Shape) : List Char → Option Statement
  | [] => none
  | c :: rest => if isQuote c then (specifierFrom shape [] rest).map (after [c]) else none

/-- Blanks, then a quoted specifier. -/
def spacedQuoted? (shape : ImportKind.Shape) (cs : List Char) : Option Statement :=
  (quoted? shape (cs.dropWhile Text.isBlank)).map (after (cs.takeWhile Text.isBlank))

def fromWord : List Char := ['f', 'r', 'o', 'm']

/-- The word `from`, at least one blank, and a quoted specifier. -/
def source? (cs : List Char) : Option Statement :=
  match fromWord.isPrefixOf? cs with
  | none => none
  | some rest =>
    if rest.head?.any Text.isBlank then (spacedQuoted? .clause rest).map (after fromWord)
    else none

/-- The rest of the line up to the first `from` that a quoted specifier follows, read on from
`seen`, whose last character comes first. -/
def clauseFrom (seen : List Char) : List Char → Option Statement
  | [] => none
  | c :: rest =>
    match source? (c :: rest) with
    | some s => some (after seen.reverse s)
    | none => if c = '\n' then none else clauseFrom (c :: seen) rest

/-- What follows the keyword of a statement. -/
def tail? : ImportKind.Shape → List Char → Option Statement
  | .clause, cs =>
    if cs.head?.any Text.isBlank then
      (clauseFrom [] (cs.dropWhile Text.isBlank)).map (after (cs.takeWhile Text.isBlank))
    else none
  | .plain, cs => if cs.head?.any Text.isBlank then spacedQuoted? .plain cs else none
  | .call, cs =>
    match cs.dropWhile Text.isBlank with
    | '(' :: rest =>
      (spacedQuoted? .call rest).map (after (cs.takeWhile Text.isBlank ++ ['(']))
    | _ => none

/-- The statement of this kind at the front of the text. -/
def atFront? (kind : ImportKind) (cs : List Char) : Option Statement :=
  match kind.keyword.isPrefixOf? cs with
  | none => none
  | some rest => (tail? kind.shape rest).map (after kind.keyword)

end Statement

end ImportCycles
