import ImportCycles.Settings
/-!
The command line: which options there are, how arguments are read, and how their values are laid
over the settings. The value of an option is looked at only when the next option, the next
positional argument or the end of the line is reached, so a fault in it may come after another.
-/
namespace ImportCycles

inductive Format where
  | compact
  | json
  | dot
deriving DecidableEq, Repr

def Format.ofLabel? : String → Option Format
  | "compact" => some .compact
  | "json" => some .json
  | "dot" => some .dot
  | _ => none

structure CommandLine where
  root : Option Path
  settingsFile : Option Path
  extensions : List String
  excluded : List String
  /-- As written, one text for each use of the option. -/
  aliases : List String
  kinds : List ImportKind
  followsIgnoreFiles : Bool
  format : Format
  strict : Bool
  stats : Bool
  verbose : Bool
deriving DecidableEq, Repr

namespace CommandLine

/-- A line without arguments. -/
def empty : CommandLine :=
  { root := none, settingsFile := none, extensions := [], excluded := [], aliases := [], kinds := []
    followsIgnoreFiles := false, format := .compact, strict := false, stats := false
    verbose := false }

/-- Why a line is not carried out. -/
inductive Refusal where
  | unknownArgument
  /-- A value that is missing or that its option does not take. -/
  | invalidValue
  /-- An option given twice that may be given once. -/
  | argumentConflict
  /-- A value given to an option that takes none. -/
  | tooManyValues
  | helpAsked
  | versionAsked
deriving DecidableEq, Repr

inductive Argument where
  | root
  | config
  | ext
  | exclude
  | alias
  | kinds
  | gitignore
  | format
  | strict
  | stats
  | verbose
  | help
  | version
deriving DecidableEq, Repr

namespace Argument

def ofLong? : String → Option Argument
  | "config" => some .config
  | "ext" => some .ext
  | "exclude" => some .exclude
  | "alias" => some .alias
  | "syntax" => some .kinds
  | "gitignore" => some .gitignore
  | "format" => some .format
  | "strict" => some .strict
  | "stats" => some .stats
  | "verbose" => some .verbose
  | "help" => some .help
  | "version" => some .version
  | _ => none

def ofShort? : Char → Option Argument
  | 'c' => some .config
  | 'v' => some .verbose
  | 'h' => some .help
  | 'V' => some .version
  | _ => none

def takesValue : Argument → Bool
  | .root | .config | .ext | .exclude | .alias | .kinds | .format => true
  | _ => false

/-- Whether the argument may be given again. -/
def isRepeatable : Argument → Bool
  | .ext | .exclude | .alias | .kinds => true
  | _ => false

end Argument

/-- A line being read. -/
structure Reading where
  line : CommandLine
  /-- The arguments that may not be given again. -/
  given : List Argument
  /-- An argument whose value is still to be looked at, or still to come. -/
  pending : Option (Argument × Option String)
  /-- Whether the positional argument has been given. -/
  hasRoot : Bool
  /-- Set by `--`: no more options follow. -/
  onlyPositional : Bool

def Reading.start : Reading := ⟨empty, [], none, false, false⟩

/-- The pieces of a text between commas. -/
def pieces (text : String) : List String :=
  (go [] text.toList).map String.ofList
where
  /-- `piece` is the piece under way, its last character first. -/
  go (piece : List Char) : List Char → List (List Char)
    | [] => [piece.reverse]
    | c :: cs => if c = ',' then piece.reverse :: go [] cs else go (c :: piece) cs

/-- The line with one more value. -/
def withValue (line : CommandLine) (argument : Argument) (value : String) :
    Except Refusal CommandLine :=
  match argument with
  | .root =>
    if value = "" then .error .invalidValue else .ok { line with root := some (Path.ofString value) }
  | .config =>
    if value = "" then .error .invalidValue
    else .ok { line with settingsFile := some (Path.ofString value) }
  | .ext => .ok { line with extensions := line.extensions ++ pieces value }
  | .exclude => .ok { line with excluded := line.excluded ++ pieces value }
  | .alias => .ok { line with aliases := line.aliases ++ [value] }
  | .kinds =>
    match (pieces value).mapM ImportKind.ofLabel? with
    | some kinds => .ok { line with kinds := line.kinds ++ kinds }
    | none => .error .invalidValue
  | .format =>
    match Format.ofLabel? value with
    | some format => .ok { line with format := format }
    | none => .error .invalidValue
  | .gitignore | .strict | .stats | .verbose | .help | .version => .error .tooManyValues

/-- The line with an option set that takes no value. -/
def withFlag (line : CommandLine) : Argument → Except Refusal CommandLine
  | .gitignore => .ok { line with followsIgnoreFiles := true }
  | .strict => .ok { line with strict := true }
  | .stats => .ok { line with stats := true }
  | .verbose => .ok { line with verbose := true }
  | .help => .error .helpAsked
  | .version => .error .versionAsked
  | .root | .config | .ext | .exclude | .alias | .kinds | .format => .error .invalidValue

namespace Reading

/-- An argument counts as given, unless it was given before and may not be given again. -/
def mark (r : Reading) (argument : Argument) : Except Refusal Reading :=
  if argument.isRepeatable then .ok r
  else if r.given.contains argument then .error .argumentConflict
  else .ok { r with given := argument :: r.given }

def take (r : Reading) (argument : Argument) (value : String) : Except Refusal Reading := do
  let r ← r.mark argument
  let line ← r.line.withValue argument value
  return { r with line }

/-- Looks at the value that is pending. -/
def settle (r : Reading) : Except Refusal Reading :=
  match r.pending with
  | none => .ok r
  | some (_, none) => .error .invalidValue
  | some (argument, some value) => ({ r with pending := none }).take argument value

def setFlag (r : Reading) (argument : Argument) : Except Refusal Reading := do
  let r ← r.settle
  let r ← r.mark argument
  let line ← r.line.withFlag argument
  return { r with line }

/-- An option that takes a value, with that value or before it. -/
def setOption (r : Reading) (argument : Argument) (value? : Option String) :
    Except Refusal Reading := do
  let r ← r.settle
  match value? with
  | some value => r.take argument value
  | none => return { r with pending := some (argument, none) }

/-- An option with two dashes before its name. -/
def readLong (r : Reading) (name : String) (value? : Option String) : Except Refusal Reading :=
  match Argument.ofLong? name with
  | none => .error .unknownArgument
  | some argument =>
    if argument.takesValue then r.setOption argument value?
    else if value?.isSome then .error .tooManyValues
    else r.setFlag argument

/-- Options of one letter after one dash. The rest of the text is the value of the first that
takes one. -/
def readShort (r : Reading) : List Char → Except Refusal Reading
  | [] => .ok r
  | c :: cs =>
    match Argument.ofShort? c with
    | none => .error .unknownArgument
    | some argument =>
      if argument.takesValue then
        r.setOption argument <|
          match cs with
          | [] => none
          | '=' :: value => some (String.ofList value)
          | value => some (String.ofList value)
      else
        match r.setFlag argument with
        | .error refusal => .error refusal
        | .ok r => readShort r cs

def readPositional (r : Reading) (text : String) : Except Refusal Reading :=
  if r.hasRoot then .error .unknownArgument
  else do
    let r ← r.settle
    return { r with pending := some (.root, some text), hasRoot := true }

def read (r : Reading) (text : String) : Except Refusal Reading :=
  if r.onlyPositional then r.readPositional text
  else
    match text.toList with
    | ['-', '-'] => .ok { r with onlyPositional := true }
    | '-' :: '-' :: cs =>
      let name := String.ofList (cs.takeWhile (· ≠ '='))
      match cs.dropWhile (· ≠ '=') with
      | [] => r.readLong name none
      | _ :: value => r.readLong name (some (String.ofList value))
    | '-' :: c :: cs => r.readShort (c :: cs)
    | _ =>
      match r.pending with
      | some (argument, none) => .ok { r with pending := some (argument, some text) }
      | _ => r.readPositional text

end Reading

/-- The line that the arguments make. -/
def ofArguments (args : List String) : Except Refusal CommandLine := do
  let r ← args.foldlM Reading.read Reading.start
  let r ← r.settle
  return r.line

/-- The settings with aliases for directories below `base`, up to the first malformed one. -/
def layAliases (base : Path) : List String → Settings → Settings × Option Failure
  | [], s => (s, none)
  | text :: texts, s =>
    match Alias.ofText? text with
    | none => (s, some (.aliasMalformed text))
    | some a => layAliases base texts (s.withAlias base a)

/-- The settings under the values of the line, and the fault that ended their layering. -/
def layOver (line : CommandLine) (s : Settings) (base : Path) : Settings × Option Failure :=
  let s :=
    { s with
      root := line.root.getD s.root
      extensions :=
        if line.extensions = [] then s.extensions else Extension.clean line.extensions
      excluded := line.excluded.foldl
        (fun known pattern => if known.contains pattern then known else known ++ [pattern])
        s.excluded }
  match layAliases base line.aliases s with
  | (s, some failure) => (s, some failure)
  | (s, none) =>
    ({ s with
        kinds := if line.kinds = [] then s.kinds else line.kinds
        followsIgnoreFiles := s.followsIgnoreFiles || line.followsIgnoreFiles
        strict := s.strict || line.strict },
      none)

end CommandLine

end ImportCycles
