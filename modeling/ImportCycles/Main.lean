import Std.Data.HashSet
import ImportCycles.FileSystem.Edit
import ImportCycles.Program
/-!
The command: reads from the disk what a run can look at, and prints what the run says. The working
directory is read, and the places that the command line and the settings name. Names that are not
text, and what cannot be read, count as missing.
-/
namespace ImportCycles.Command

/-- What has been read from the disk so far, and the absolute paths of all of it. -/
structure Picture where
  fs : FileSystem
  seen : Std.HashSet String

def Picture.put (picture : Picture) (place : String) (node : Node) : Picture :=
  { picture with fs := picture.fs.place (Path.ofString place) node }

/-- The result of an action, if it succeeds. -/
def attempt {α : Type} (action : IO α) : IO (Option α) := do
  try return some (← action) catch _ => return none

/-- Reads all that lies at an absolute path whose directories are no links. A link stands for the
place that it leads to in the end, which is read too. -/
partial def load (picture : Picture) (place : String) : IO Picture := do
  if picture.seen.contains place then return picture
  let picture := { picture with seen := picture.seen.insert place }
  let some real ← attempt (IO.FS.realPath place) | return picture
  if real.toString ≠ place then
    load (picture.put place (.link (Path.ofString real.toString))) real.toString
  else if ← real.isDir then
    let some entries ← attempt real.readDir | return picture
    entries.foldlM (fun picture entry => load picture entry.path.toString)
      (picture.put place (.directory []))
  else
    let some content ← attempt (IO.FS.readBinFile real) | return picture
    return picture.put place (.file content.toList)

/-- Reads all that lies at a path, and sees to it that the path leads there. -/
def loadNamed (picture : Picture) (path : Path) : IO Picture := do
  let some real ← attempt (IO.FS.realPath path.display) | return picture
  let picture ← load picture real.toString
  if picture.fs.exists? path then return picture
  return picture.put path.display (.link (Path.ofString real.toString))

/-- The root and the directories of aliases of a run. -/
def places (fs : FileSystem) (line : CommandLine) : List Path :=
  match Program.settings fs line with
  | .error _ => []
  | .ok settings =>
    let (settings, _) := line.layOver settings fs.workingPath
    settings.root :: settings.aliases.map Alias.directory

/-- The file system that a run with these arguments looks at. -/
def fileSystem (args : List String) : IO FileSystem := do
  let place := (← IO.FS.realPath (← IO.currentDir)).toString
  let names := (Path.split (Path.ofString place).bytes).filter (· ≠ [])
  let picture : Picture := ⟨⟨[], names⟩, ∅⟩
  match CommandLine.ofArguments args with
  | .error _ => return picture.fs
  | .ok line =>
    let picture ← load picture place
    let picture ← line.settingsFile.toList.foldlM loadNamed picture
    let picture ← (places picture.fs line).foldlM loadNamed picture
    return picture.fs

end ImportCycles.Command

/-- Runs the program in the working directory. -/
def main (args : List String) : IO UInt32 := do
  let outcome := ImportCycles.Program.run (← ImportCycles.Command.fileSystem args) args
  IO.print outcome.output
  outcome.messages.forM fun line => IO.eprintln line
  return outcome.exitCode.toUInt32
