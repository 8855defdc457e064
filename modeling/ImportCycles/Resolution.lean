import ImportCycles.Alias
import ImportCycles.Extension
import ImportCycles.FileSystem
/-!
Where a specifier leads: to a file, out of the scanned code, or nowhere. A specifier gives a base
path, and the probes name in turn the file that the base could stand for.
-/
namespace ImportCycles

/-- A way of finding a file for a base path. -/
inductive Probe where
  /-- The base itself, if its name carries one of the extensions. -/
  | asIs (extensions : List String)
  /-- The base with an extension appended. -/
  | append (extension : String)
  /-- The index file with this extension in the directory that the base leads to. -/
  | index (extension : String)
deriving DecidableEq, Repr

namespace Probe

def label : Probe → String
  | .asIs _ => "as-is"
  | .append ext => "append ." ++ ext
  | .index ext => "directory index." ++ ext

/-- All the probes for a list of extensions, in the order in which they are tried. -/
def standard (extensions : List String) : List Probe :=
  .asIs extensions :: (extensions.map .append ++ extensions.map .index)

/-- A name that is UTF-8 and carries one of the extensions. -/
def recognizes (extensions : List String) (name : Name) : Bool :=
  (Text.Utf8.read? name).isSome && extensions.any (Extension.carriedBy name)

/-- The path that a probe looks at, if there is reason to look. -/
def candidate? (fs : FileSystem) (base : Path) : Probe → Option Path
  | .asIs exts => if base.fileName?.any (recognizes exts) then some base else none
  | .append ext => some ⟨base.bytes ++ Path.dot :: Extension.bytes ext⟩
  | .index ext =>
    if fs.isDirectory base then some (base.join (Path.ofString ("index." ++ ext))) else none

def hit? (fs : FileSystem) (base : Path) (probe : Probe) : Option Path :=
  (probe.candidate? fs base).filter fs.isFile

end Probe

/-- Whether a specifier is taken from the directory of the file that holds it. -/
def isRelativeSpecifier (specifier : String) : Bool :=
  specifier == "." || specifier == ".." ||
    "./".toList.isPrefixOf specifier.toList || "../".toList.isPrefixOf specifier.toList

inductive Resolution where
  | resolved (target : Path)
  /-- Neither relative nor under an alias. -/
  | external
  /-- No probe found a file. -/
  | unresolved
deriving DecidableEq, Repr

namespace Resolution

/-- The first file that a probe finds for the base. -/
def ofBase (fs : FileSystem) (extensions : List String) (base : Path) : Resolution :=
  match (Probe.standard extensions).findSome? (Probe.hit? fs base) with
  | some target => .resolved target
  | none => .unresolved

/-- Where a specifier in the file `origin` leads. -/
def ofSpecifier (fs : FileSystem) (extensions : List String) (aliases : AliasTable)
    (origin : Path) (specifier : String) : Resolution :=
  if isRelativeSpecifier specifier then
    match origin.parent? with
    | none => .unresolved
    | some directory =>
      ofBase fs extensions (directory.join (Path.ofString specifier)).normal
  else
    match aliases.expand? specifier with
    | none => .external
    | some path => ofBase fs extensions path.normal

end Resolution

end ImportCycles
