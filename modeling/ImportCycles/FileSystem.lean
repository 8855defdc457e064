import ImportCycles.Path
/-!
A file system held in memory, and what a path leads to in it: `.` and `..` are taken from the
directory reached so far, and links are followed.
-/
namespace ImportCycles

inductive Node where
  | file (content : List UInt8)
  | link (target : Path)
  | directory (entries : List (Name × Node))

/-- All that a tree holds may be read: it has no permission bits, and reading fails for none but the
faults below. What cannot be read for another reason is not in it. -/
structure FileSystem where
  /-- The entries of the root directory. -/
  root : List (Name × Node)
  /-- Where relative paths begin, from the root on. -/
  workingDirectory : List Name

namespace FileSystem

/-- Why a path leads nowhere, or to nothing that can be read. -/
inductive Fault where
  | notFound
  | notDirectory
  | isDirectory
  | nameTooLong
  | tooManyLinks
  | nulByte
deriving DecidableEq, Repr

def Fault.message : Fault → String
  | .notFound => "No such file or directory (os error 2)"
  | .notDirectory => "Not a directory (os error 20)"
  | .isDirectory => "Is a directory (os error 21)"
  | .nameTooLong => "File name too long (os error 36)"
  | .tooManyLinks => "Too many levels of symbolic links (os error 40)"
  | .nulByte => "file name contained an unexpected NUL byte"

def longestName : Nat := 255

def longestPath : Nat := 4095

def mostLinks : Nat := 40

/-- The entries of the directory that these names lead to without any link; none, if they lead to
no directory. -/
def entriesAt (entries : List (Name × Node)) : List Name → List (Name × Node)
  | [] => entries
  | n :: names =>
    match entries.lookup n with
    | some (.directory inner) => entriesAt inner names
    | _ => []

/-- Where the way through a path first stops. -/
inductive Stop where
  /-- At its end: the names from the root on, and what is there. -/
  | arrived (names : List Name) (node : Node)
  /-- At a link in the directory `trail`, with pieces still to go. -/
  | link (trail : List Name) (target : Path) (rest : List Name)

/-- The way through the pieces of a path, up to the first link. `trail` is the directory reached
so far, the innermost name first. -/
def descend (root : List (Name × Node)) (trail : List Name) : List Name → Except Fault Stop
  | [] => .ok (.arrived trail.reverse (.directory (entriesAt root trail.reverse)))
  | piece :: rest =>
    if piece = [] ∨ piece = [Path.dot] then descend root trail rest
    else if piece = [Path.dot, Path.dot] then descend root trail.tail rest
    else if longestName < piece.length then .error .nameTooLong
    else
      match (entriesAt root trail.reverse).lookup piece with
      | none => .error .notFound
      | some (.directory _) => descend root (piece :: trail) rest
      | some (.link target) => .ok (.link trail target rest)
      | some (.file content) =>
        if rest = [] then .ok (.arrived (piece :: trail).reverse (.file content))
        else .error .notDirectory

/-- The way through the pieces of a path, with at most `links` links on it. -/
def follow (root : List (Name × Node)) :
    Nat → List Name → List Name → Except Fault (List Name × Node)
  | links, trail, pieces =>
    match descend root trail pieces with
    | .error fault => .error fault
    | .ok (.arrived names node) => .ok (names, node)
    | .ok (.link trail target rest) =>
      match links with
      | 0 => .error .tooManyLinks
      | links + 1 =>
        if target.bytes = [] then .error .notFound
        else
          follow root links (if target.isAbsolute then [] else trail)
            (Path.split target.bytes ++ rest)

variable (fs : FileSystem) (p : Path)

/-- What a path leads to, with the names that lead there from the root on without any link. -/
def locate : Except Fault (List Name × Node) :=
  if p.bytes.contains 0 then .error .nulByte
  else if p.bytes = [] then .error .notFound
  else if longestPath < p.bytes.length then .error .nameTooLong
  else
    follow fs.root mostLinks (if p.isAbsolute then [] else fs.workingDirectory.reverse)
      (Path.split p.bytes)

def isFile : Bool :=
  match fs.locate p with
  | .ok (_, .file _) => true
  | _ => false

def isDirectory : Bool :=
  match fs.locate p with
  | .ok (_, .directory _) => true
  | _ => false

def exists? : Bool := (fs.locate p).isOk

/-- The absolute path of names from the root on. -/
def pathOf (names : List Name) : Path :=
  Path.ofComponents (.root :: names.map .name)

/-- The absolute path, free of links, of what `p` leads to. -/
def canonical? : Option Path :=
  match fs.locate p with
  | .ok (names, _) => some (pathOf names)
  | .error _ => none

def read : Except Fault (List UInt8) :=
  match fs.locate p with
  | .ok (_, .file content) => .ok content
  | .ok _ => .error .isDirectory
  | .error fault => .error fault

/-- The absolute path of the working directory. -/
def workingPath : Path := pathOf fs.workingDirectory

end FileSystem

end ImportCycles
