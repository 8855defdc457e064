import ImportCycles.Text.Utf8
/-!
Paths as they are written: bytes, of which the slash divides and `.` and `..` are special. Two
spellings are the same path when they have the same components.
-/
namespace ImportCycles

/-- The name of one directory entry. -/
abbrev Name := List UInt8

structure Path where
  bytes : List UInt8
deriving DecidableEq, Repr, Inhabited

inductive Component where
  | root
  /-- A leading `.`; elsewhere `.` is no component. -/
  | here
  | up
  | name (name : Name)
deriving DecidableEq, Hashable, Repr

namespace Path

def slash : UInt8 := 0x2F

def dot : UInt8 := 0x2E

/-- The pieces between slashes, the empty ones too. There is always at least one. -/
def split : List UInt8 → List Name
  | [] => [[]]
  | b :: rest =>
    if b = slash then [] :: split rest
    else
      match split rest with
      | [] => [[b]]
      | piece :: pieces => (b :: piece) :: pieces

/-- Pieces with a slash between each two. -/
def unsplit : List Name → List UInt8
  | [] => []
  | [piece] => piece
  | piece :: pieces => piece ++ slash :: unsplit pieces

def ofString (s : String) : Path := ⟨Text.Utf8.encode s.toList⟩

/-- The text of the path, with U+FFFD for bytes that are not UTF-8. -/
def display (p : Path) : String := String.ofList (Text.Utf8.lenient p.bytes)

def isAbsolute (p : Path) : Bool := p.bytes.head? = some slash

/-- What a piece after the first one stands for. -/
def component? (piece : Name) : Option Component :=
  if piece = [] ∨ piece = [dot] then none
  else if piece = [dot, dot] then some .up
  else some (.name piece)

/-- What the first piece of a path stands for. -/
def firstComponent? (absolute : Bool) (piece : Name) : Option Component :=
  if absolute then some .root
  else if piece = [dot] then some .here
  else component? piece

/-- Each piece with what it stands for. -/
def parts (p : Path) : List (Name × Option Component) :=
  match split p.bytes with
  | [] => []
  | first :: rest =>
    (first, firstComponent? p.isAbsolute first) :: rest.map fun piece => (piece, component? piece)

def components (p : Path) : List Component := p.parts.filterMap Prod.snd

end Path

def Component.text : Component → Name
  | .root => []
  | .here => [Path.dot]
  | .up => [Path.dot, Path.dot]
  | .name n => n

namespace Path

/-- The plainest spelling of a list of components. -/
def ofComponents : List Component → Path
  | [.root] => ⟨[slash]⟩
  | cs => ⟨unsplit (cs.map Component.text)⟩

/-- The path itself, if it is absolute; otherwise the path taken below `p`. -/
def join (p q : Path) : Path :=
  if q.isAbsolute then q
  else if p.bytes = [] ∨ p.bytes.getLast? = some slash then ⟨p.bytes ++ q.bytes⟩
  else ⟨p.bytes ++ slash :: q.bytes⟩

/-- The entry of the directory `p` that has this name. -/
def child (p : Path) (name : Name) : Path := p.join ⟨name⟩

/-- The path without its last component. A root and the empty path have no parent. -/
def parent? (p : Path) : Option Path :=
  match p.components.getLast? with
  | none | some .root => none
  | _ => some (ofComponents p.components.dropLast)

/-- The last component, if it is a name. -/
def fileName? (p : Path) : Option Name :=
  match p.components.getLast? with
  | some (.name n) => some n
  | _ => none

/-- The parts after the first `n` components. -/
def dropComponents : Nat → List (Name × Option Component) → List (Name × Option Component)
  | 0, parts => parts
  | _ + 1, [] => []
  | n + 1, (_, none) :: parts => dropComponents (n + 1) parts
  | n + 1, (_, some _) :: parts => dropComponents n parts

/-- The pieces from the first to the last that stand for something, as they were written. -/
def respell (parts : List (Name × Option Component)) : Path :=
  match ((parts.dropWhile (·.2.isNone)).reverse.dropWhile (·.2.isNone)).reverse with
  | [(_, some .root)] => ⟨[slash]⟩
  | parts => ⟨unsplit (parts.map Prod.fst)⟩

/-- The rest of `p` after the components of `base`, if `p` begins with them. -/
def below? (p base : Path) : Option Path :=
  if base.components.isPrefixOf p.components then
    some (respell (dropComponents base.components.length p.parts))
  else none

/-- Paths are the same when their components are. -/
def same (p q : Path) : Bool := p.components = q.components

end Path

/-- Roots come before `.`, `.` before `..`, and `..` before names; names are ordered by their
bytes. -/
def Component.orderKey : Component → List UInt8
  | .root => [0]
  | .here => [1]
  | .up => [2]
  | .name n => 3 :: n

namespace Path

/-- The key of the order of paths: component by component, a shorter path before its
extensions. -/
def orderKey (p : Path) : List (List UInt8) := p.components.map Component.orderKey

def precedes (p q : Path) : Bool := p.orderKey ≤ q.orderKey

/-- The paths in order; the same paths keep their places. -/
def sort (ps : List Path) : List Path := ps.mergeSort precedes

end Path

end ImportCycles
