import ImportCycles.FileSystem
/-! Putting files, directories and links into a file system. -/
namespace ImportCycles

/-- The entries with one more; an entry of the same name gives way to it. -/
def Node.put (name : Name) (node : Node) : List (Name × Node) → List (Name × Node)
  | [] => [(name, node)]
  | (n, old) :: entries =>
    if n = name then (name, node) :: entries else (n, old) :: put name node entries

/-- The entries with `node` at the end of these names; directories on the way are made. -/
def Node.putAt (node : Node) : List Name → List (Name × Node) → List (Name × Node)
  | [], entries => entries
  | [name], entries => put name node entries
  | name :: names, entries =>
    match entries.lookup name with
    | some (.directory inner) => put name (.directory (putAt node names inner)) entries
    | _ => put name (.directory (putAt node names [])) entries

namespace FileSystem

/-- The file system with the directory that the pieces lead to, and the names of that directory.
Links on the way are followed, and what is missing is made, however long the path becomes. -/
def makeDirectory (fs : FileSystem) (names : List Name) : List Name → FileSystem × List Name
  | [] => (fs, names)
  | piece :: rest =>
    if piece = [] ∨ piece = [Path.dot] then makeDirectory fs names rest
    else if piece = [Path.dot, Path.dot] then makeDirectory fs names.dropLast rest
    else
      match follow fs.root mostLinks [] (names ++ [piece]) with
      | .ok (found, .directory _) => makeDirectory fs found rest
      | _ =>
        let names := names ++ [piece]
        makeDirectory { fs with root := Node.putAt (.directory []) names fs.root } names rest

/-- The file system with `node` at the path `p`. A directory that is there already stays. -/
def place (fs : FileSystem) (p : Path) (node : Node) : FileSystem :=
  let start := if p.isAbsolute then [] else fs.workingDirectory
  let pieces := Path.split p.bytes
  match node with
  | .directory _ => (fs.makeDirectory start pieces).1
  | _ =>
    let (fs, names) := fs.makeDirectory start pieces.dropLast
    { fs with root := Node.putAt node (names ++ pieces.getLast?.toList) fs.root }

end FileSystem

end ImportCycles
