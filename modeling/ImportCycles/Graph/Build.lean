import ImportCycles.Graph
/-! The graph of files whose targets are known, and the imports that it does not hold. -/
namespace ImportCycles.Graph

/-- Imports that became no edge. -/
structure Lost where
  /-- Imports of files outside the graph. -/
  dropped : Nat
  /-- Imports given before. -/
  repeated : Nat
deriving DecidableEq, Repr

def Lost.none : Lost := ⟨0, 0⟩

def Lost.count (lost : Lost) : Outcome → Lost
  | .added => lost
  | .repeated => { lost with repeated := lost.repeated + 1 }
  | .unknownTarget | .unknownOrigin => { lost with dropped := lost.dropped + 1 }

/-- The graph with all files, and where each of them stands in it. -/
def addFiles (g : Graph) : List Path → Graph × List Nat
  | [] => (g, [])
  | p :: ps =>
    let (g, i) := g.addFile p
    let (g, is) := addFiles g ps
    (g, i :: is)

/-- The graph with imports from one file. -/
def addTargets (origin : Nat) (state : Graph × Lost) (targets : List Path) : Graph × Lost :=
  targets.foldl (fun (g, lost) target =>
    let (g, outcome) := g.addImport origin target
    (g, lost.count outcome)) state

/-- The graph of the files, of which each imports the targets in the same place. All files are
added before any import, so a target may stand after its importer. -/
def ofImports (files : List Path) (targets : List (List Path)) : Graph × Lost :=
  let (g, indices) := addFiles empty files
  (indices.zip targets).foldl (fun state (origin, targets) => addTargets origin state targets)
    (g, .none)

end ImportCycles.Graph
