import Std.Data.HashMap
import ImportCycles.Path
/-!
The graph of imports: files in the order in which they were added, and for each file its targets
in the order in which they were added. Spellings of one path are one file, which keeps the first
of them, and an import given again changes nothing.
-/
namespace ImportCycles

structure Graph where
  files : Array Path
  /-- Where the file with these components stands in `files`. -/
  index : Std.HashMap (List Component) Nat
  /-- For each file where its targets stand in `files`. -/
  targetTable : Array (Array Nat)

namespace Graph

def empty : Graph := ⟨#[], ∅, #[]⟩

variable (g : Graph)

def fileCount : Nat := g.files.size

def edgeCount : Nat := g.targetTable.toList.foldr (fun targets n => targets.size + n) 0

def file? (i : Nat) : Option Path := g.files[i]?

def indexOf? (p : Path) : Option Nat := g.index[p.components]?

/-- Where the targets of file `i` stand; none, if there is no such file. -/
def targets (i : Nat) : List Nat := ((g.targetTable[i]?).getD #[]).toList

/-- Every import, by the places of its two files: the imports of the first file first. -/
def edges : List (Nat × Nat) :=
  (List.range g.fileCount).flatMap fun i => (g.targets i).map (i, ·)

/-- The graph with a file, and where that file stands in it. -/
def addFile (p : Path) : Graph × Nat :=
  match g.indexOf? p with
  | some i => (g, i)
  | none =>
    let i := g.fileCount
    (⟨g.files.push p, g.index.insert p.components i, g.targetTable.push #[]⟩, i)

/-- What became of an import. -/
inductive Outcome where
  | added
  | repeated
  /-- The target is no file of the graph. -/
  | unknownTarget
  /-- The target is one, but the origin is none. -/
  | unknownOrigin
deriving DecidableEq, Repr

/-- The graph with an import from file `origin`, unless it cannot be added. -/
def addImport (origin : Nat) (target : Path) : Graph × Outcome :=
  match g.indexOf? target with
  | none => (g, .unknownTarget)
  | some t =>
    match g.targetTable[origin]? with
    | none => (g, .unknownOrigin)
    | some known =>
      if known.contains t then (g, .repeated)
      else ({ g with targetTable := g.targetTable.modify origin (·.push t) }, .added)

end Graph

end ImportCycles
