import ImportCycles.Ignore
import ImportCycles.Resolution
import ImportCycles.Settings
/-!
The source files below a root. Directories are entered unless their names are excluded or they
cannot be opened, links to directories are not entered, and a link to a file counts as a file.
-/
namespace ImportCycles.Scan

/-- The absolute path of the root without links. -/
def root (fs : FileSystem) (p : Path) : Except Failure Path :=
  if !fs.exists? p then .error (.rootNotFound p)
  else if !fs.isDirectory p then .error (.rootNotDirectory p)
  else
    match fs.canonical? p with
    | some root => .ok root
    -- Does not arise: what exists has a path without links.
    | none => .error (.rootNotFound p)

/-- The patterns of the excluded names; the first malformed one is an error. -/
def patterns : List String → Except Failure (List NamePattern)
  | [] => .ok []
  | text :: texts =>
    match NamePattern.ofText text with
    | .error fault => .error (.excludeMalformed text fault)
    | .ok pattern => (patterns texts).map (pattern :: ·)

/-- A name that is not UTF-8 matches no pattern. -/
def isExcluded (excluded : List NamePattern) (name : Name) : Bool :=
  match Text.Utf8.read? name with
  | none => false
  | some cs => excluded.any fun pattern => pattern.isMatch cs

/-- What a scan looks for. -/
structure Search where
  fs : FileSystem
  extensions : List String
  excluded : List NamePattern
  followsIgnoreFiles : Bool

variable (s : Search)

/-- The ignore files of a directory, under those of the directories around it. -/
def levelsIn (directory : Path) (levels : List Ignore.Level) : List Ignore.Level :=
  if s.followsIgnoreFiles then Ignore.Level.ofDirectory s.fs directory :: levels else []

mutual

/-- The sources that an entry of `directory` is or holds. `levels` are the ignore files from that
directory outwards, and `trail` the names of the directories inside the root, the innermost
first. -/
def sourcesOf (directory : Path) (levels : List Ignore.Level) (trail : List Name) (name : Name) :
    Node → List Path
  | .file _ =>
    if Ignore.leavesOut levels trail name false then []
    else if Probe.recognizes s.extensions name then [directory.child name]
    else []
  | .link _ =>
    if Ignore.leavesOut levels trail name false then []
    else if Probe.recognizes s.extensions name && s.fs.isFile (directory.child name) then
      [directory.child name]
    else []
  | .directory entries =>
    let inner := directory.child name
    if Ignore.leavesOut levels trail name true || isExcluded s.excluded name then []
    -- The path of a directory can be too long to open it. Such a directory is skipped.
    else if s.fs.isDirectory inner then
      sourcesIn inner (levelsIn s inner levels) (name :: trail) entries
    else []
termination_by structural node => node

/-- The sources that the entries of `directory` are or hold. -/
def sourcesIn (directory : Path) (levels : List Ignore.Level) (trail : List Name) :
    List (Name × Node) → List Path
  | [] => []
  | (name, node) :: entries =>
    sourcesOf directory levels trail name node ++ sourcesIn directory levels trail entries
termination_by structural entries => entries

end

/-- The sources below a root, in the order of their paths. -/
def sources (fs : FileSystem) (settings : Settings) (root : Path) : Except Failure (List Path) :=
  match patterns settings.excluded with
  | .error failure => .error failure
  | .ok excluded =>
    let s : Search := ⟨fs, settings.extensions, excluded, settings.followsIgnoreFiles⟩
    match fs.locate root with
    | .ok (_, .directory entries) => .ok (Path.sort (sourcesIn s root (levelsIn s root []) [] entries))
    | _ => .ok []

end ImportCycles.Scan
