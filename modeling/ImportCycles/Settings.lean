import ImportCycles.Alias
import ImportCycles.Extension
import ImportCycles.Failure
import ImportCycles.ImportKind
/-!
What to scan and how: defaults, over which a settings file lays its own values, over which a
command line lays others.
-/
namespace ImportCycles

structure Settings where
  root : Path
  extensions : List String
  /-- Patterns of directory names that are not entered. -/
  excluded : List String
  /-- Whether ignore files count. -/
  followsIgnoreFiles : Bool
  kinds : List ImportKind
  /-- In the order in which their fronts were last given. -/
  aliases : List Alias
  /-- Whether a cycle makes the run fail. -/
  strict : Bool
deriving DecidableEq, Repr

namespace Settings

def defaults : Settings where
  root := Path.ofString "src"
  extensions := Extension.defaults
  excluded := ["node_modules", "bower_components", "vendor", ".git", ".hg", ".svn"]
  followsIgnoreFiles := false
  kinds := ImportKind.defaults
  aliases := []
  strict := false

/-- The settings with an alias for a directory below `base`, if it is not absolute. An alias of
the same front gives way to it. -/
def withAlias (s : Settings) (base : Path) (a : Alias) : Settings :=
  { s with
    aliases := s.aliases.filter (·.front ≠ a.front) ++
      [{ a with directory := (base.join a.directory).normal }] }

/-- A scan needs an extension to look for. -/
def check (s : Settings) : Except Failure Unit :=
  if s.extensions = [] then .error .noExtensions else .ok ()

/-- The values that one source of settings gives. -/
structure Layer where
  root : Option Path
  extensions : Option (List String)
  excluded : Option (List String)
  followsIgnoreFiles : Option Bool
  kinds : Option (List ImportKind)
  aliases : Option (List Alias)
  strict : Option Bool
deriving DecidableEq, Repr

/-- A layer that gives nothing. -/
def Layer.empty : Layer := ⟨none, none, none, none, none, none, none⟩

/-- The defaults under the values of a settings file, whose aliases are taken from `base`. -/
def ofLayer (layer : Layer) (base : Path) : Settings :=
  let s : Settings :=
    { root := layer.root.getD defaults.root
      extensions := (layer.extensions.map Extension.clean).getD defaults.extensions
      excluded := layer.excluded.getD defaults.excluded
      followsIgnoreFiles := layer.followsIgnoreFiles.getD defaults.followsIgnoreFiles
      kinds := layer.kinds.getD defaults.kinds
      aliases := defaults.aliases
      strict := layer.strict.getD defaults.strict }
  (layer.aliases.getD []).foldl (fun s a => s.withAlias base a) s

end Settings

end ImportCycles
