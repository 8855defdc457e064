import ImportCycles.Ignore.Glob
import ImportCycles.FileSystem
import ImportCycles.Text.Blank
/-!
Ignore files: which entries below a directory its rules ask to leave out. A later rule of a file
overrides an earlier one, and a rule of a nearer directory one of a farther directory.
-/
namespace ImportCycles.Ignore

structure Rule where
  pattern : List Token
  /-- A rule that keeps what it matches, written with `!`. -/
  keeps : Bool
  /-- A rule for directories only, written with a slash at its end. -/
  directoriesOnly : Bool

namespace Rule

/-- The line without blanks at its end, unless the last of them is escaped. -/
def trimLine (line : List Char) : List Char :=
  if [' ', '\\'].isPrefixOf line.reverse then line else Text.trimEnd line

/-- The pattern that a rule's text stands for: a text without a slash matches at any depth, and
one that ends in `/**` everything inside the directory but not the directory. -/
def patternText (anchored : Bool) (text : List Char) : List Char :=
  let floating := !anchored && !text.contains '/' && !(text = ['*', '*'])
  let text := if floating then ['*', '*', '/'] ++ text else text
  if ['*', '*', '/'].isPrefixOf text.reverse then text ++ ['/', '*'] else text

/-- The text without the slash at its end, and whether there was one. An escape before that slash
goes with it. -/
def stripEnd (text : List Char) : List Char × Bool :=
  match text.reverse with
  | '/' :: '\\' :: front => (front.reverse, true)
  | '/' :: front => (front.reverse, true)
  | _ => (text, false)

/-- The rule of a trimmed line; `keeps` and `anchored` have been read off its front. -/
def ofBody? (keeps anchored : Bool) (body : List Char) : Option Rule :=
  let (text, directoriesOnly) := stripEnd body
  match Glob.tokens (patternText anchored text) with
  | .ok pattern => some ⟨pattern, keeps, directoriesOnly⟩
  | .error _ => none

/-- The text without a slash at its front, and whether there was one. -/
def stripAnchor : List Char → List Char × Bool
  | '/' :: text => (text, true)
  | text => (text, false)

/-- The rule of a line. Blank lines, comments and malformed patterns give none. -/
def ofLine? (line : List Char) : Option Rule :=
  if line.head? = some '#' then none
  else
    match trimLine line with
    | [] => none
    | '\\' :: '!' :: body => ofBody? false false ('!' :: body)
    | '\\' :: '#' :: body => ofBody? false false ('#' :: body)
    | '!' :: body =>
      let (body, anchored) := stripAnchor body
      ofBody? true anchored body
    | body =>
      let (body, anchored) := stripAnchor body
      ofBody? false anchored body

end Rule

/-- The rules of one ignore file, the last line first. -/
abbrev Rules := List Rule

/-- What rules say about an entry. -/
inductive Verdict where
  | leaveOut
  | keep
deriving DecidableEq, Repr

namespace Rules

/-- The lines of a file, without the bytes that end them. -/
def lines (content : List UInt8) : List (List UInt8) :=
  go [] content
where
  /-- `line` holds the bytes of the line under way, the last one first. -/
  go (line : List UInt8) : List UInt8 → List (List UInt8)
    | [] => if line = [] then [] else [line.reverse]
    | b :: rest =>
      if b = 0x0A then
        (match line with
          | 0x0D :: line => line.reverse
          | line => line.reverse) :: go [] rest
      else go (b :: line) rest

/-- The rules of a file. Reading ends at the first line that is not UTF-8; byte order marks before
the first line do not count. -/
def ofContent (content : List UInt8) : Rules :=
  let texts := (lines content).map Text.Utf8.read?
  let texts := (texts.takeWhile Option.isSome).filterMap id
  let texts :=
    match texts with
    | first :: rest => first.dropWhile (· = '\uFEFF') :: rest
    | [] => []
  (texts.filterMap Rule.ofLine?).reverse

/-- The rules of the file at a path; none, if it cannot be read. -/
def ofFile (fs : FileSystem) (p : Path) : Rules :=
  match fs.read p with
  | .ok content => ofContent content
  | .error _ => []

/-- What the last rule that matches says about the entry at a path below the rules' directory. -/
def verdict? (rules : Rules) (path : List UInt8) (isDirectory : Bool) : Option Verdict :=
  (rules.find? fun rule =>
      (!rule.directoriesOnly || isDirectory) && matchesPath rule.pattern path).map
    fun rule => if rule.keeps then .keep else .leaveOut

end Rules

/-- The rules that hold below one directory, by the file they come from. The first file outweighs
the second, and the second the third. -/
structure Level where
  plain : Rules
  versioned : Rules
  excluded : Rules

namespace Level

/-- The ignore files of a directory. -/
def ofDirectory (fs : FileSystem) (directory : Path) : Level where
  plain := Rules.ofFile fs (directory.join (Path.ofString ".ignore"))
  versioned := Rules.ofFile fs (directory.join (Path.ofString ".gitignore"))
  excluded := Rules.ofFile fs (directory.join (Path.ofString ".git/info/exclude"))

end Level

/-- The first verdict of the rules that `choose` takes from each level. `levels` are the
directories around the entry, the nearest first; `path` leads to the entry from the nearest, and
`trail` holds the names of the directories inside the farthest one, the innermost first. -/
def firstVerdict? (choose : Level → Rules) (isDirectory : Bool) (path : List UInt8) :
    List Level → List Name → Option Verdict
  | [], _ => none
  | level :: levels, trail =>
    match (choose level).verdict? path isDirectory with
    | some verdict => some verdict
    | none =>
      match trail with
      | [] => none
      | name :: trail =>
        firstVerdict? choose isDirectory (name ++ Path.slash :: path) levels trail

/-- Whether the rules of the directories around an entry ask to leave it out. -/
def leavesOut (levels : List Level) (trail : List Name) (name : Name) (isDirectory : Bool) : Bool :=
  let verdict? := fun choose => firstVerdict? choose isDirectory name levels trail
  ((verdict? Level.plain).or ((verdict? Level.versioned).or (verdict? Level.excluded))) =
    some .leaveOut

end ImportCycles.Ignore
