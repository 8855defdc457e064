import ImportCycles.Graph.Build
import ImportCycles.Reference
import ImportCycles.Report
import ImportCycles.Scan
/-!
A survey of a source tree: its files are scanned, their references resolved, and the cycles of the
graph of imports found.
-/
namespace ImportCycles

/-- Why a source file cannot be read. -/
inductive SourceFault where
  | unreadable (file : Path) (cause : FileSystem.Fault)
  | notText (file : Path) (cause : Text.Utf8.Fault)
deriving Repr

def SourceFault.message : SourceFault → String
  | .unreadable file cause => "failed to read " ++ file.display ++ ": " ++ cause.message
  | .notText file cause => file.display ++ " is not valid UTF-8: " ++ cause.message

/-- The specifiers in a source file. -/
def specifiersIn (fs : FileSystem) (kinds : List ImportKind) (file : Path) :
    Except SourceFault (List String) :=
  match fs.read file with
  | .error cause => .error (.unreadable file cause)
  | .ok content =>
    match Text.Utf8.read content with
    | .error cause => .error (.notText file cause)
    | .ok text => .ok (Reference.specifiers kinds (String.ofList text))

structure Survey where
  root : Path
  graph : Graph
  cycles : List Cycle
  tally : Tally

namespace Survey

/-- The aliases with the canonical paths of their directories, where there are any. -/
def aliases (fs : FileSystem) (settings : Settings) : AliasTable :=
  .ofList (settings.aliases.map fun a =>
    { a with directory := (fs.canonical? a.directory).getD a.directory })

/-- Where the specifiers of a file lead, or nothing, if the file cannot be read. -/
def resolutions? (fs : FileSystem) (settings : Settings) (aliases : AliasTable) (file : Path) :
    Option (List Resolution) :=
  match specifiersIn fs settings.kinds file with
  | .error _ => none
  | .ok specifiers =>
    some (specifiers.map (Resolution.ofSpecifier fs settings.extensions aliases file))

/-- The target of a resolution, if it has one. -/
def target? : Resolution → Option Path
  | .resolved target => some target
  | _ => none

/-- The survey of a tree. -/
def ofTree (fs : FileSystem) (settings : Settings) : Except Failure Survey := do
  settings.check
  let root ← Scan.root fs settings.root
  let files ← Scan.sources fs settings root
  let aliases := aliases fs settings
  let results := files.map (resolutions? fs settings aliases)
  let all := results.flatMap fun result => result.getD []
  let targets := results.map fun result => (result.getD []).filterMap target?
  let (graph, lost) := Graph.ofImports files targets
  let cycles := graph.cycles
  let tally : Tally :=
    { files := graph.fileCount
      skipped := results.countP Option.isNone
      specifiers := all.length
      resolved := all.countP fun r => (target? r).isSome
      external := all.countP (· = .external)
      unresolved := all.countP (· = .unresolved)
      dropped := lost.dropped
      duplicates := lost.repeated
      edges := graph.edgeCount
      cycles := cycles.length }
  return { root, graph, cycles, tally }

end Survey

end ImportCycles
