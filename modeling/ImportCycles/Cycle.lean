import ImportCycles.Graph
/-!
Cycles of a graph, found depth first. The search keeps the way to the file it is at; an import of a
file on that way closes a cycle, and an import of a file that has been left is passed over.
-/
namespace ImportCycles

/-- Files of which each imports the next; the last one is the first again. -/
structure Cycle where
  files : List Path
deriving DecidableEq, Repr

/-- The imports along a cycle. -/
def Cycle.edges (c : Cycle) : List (Path × Path) := c.files.zip c.files.tail

namespace Graph

/-- How far the search has come with a file. -/
inductive Mark where
  | fresh
  /-- On the way, with so many files before it. -/
  | onWay (position : Nat)
  | left
deriving DecidableEq, Repr, Inhabited

/-- A file on the way, and its targets that have not been looked at. -/
structure Frame where
  node : Nat
  pending : List Nat
deriving DecidableEq, Repr

structure Search where
  marks : Array Mark
  /-- The way, the file that the search is at first. -/
  way : List Frame
  /-- The cycles found, the last one first. -/
  found : List (List Nat)

namespace Search

/-- The search goes on to a file. -/
def enter (g : Graph) (s : Search) (node : Nat) : Search :=
  { s with
    marks := s.marks.setIfInBounds node (.onWay s.way.length)
    way := ⟨node, g.targets node⟩ :: s.way }

/-- The files of the way from a position on, and `target` again. -/
def closed (way : List Frame) (position target : Nat) : List Nat :=
  ((way.take (way.length - position)).map Frame.node).reverse ++ [target]

/-- One more target is looked at, or a file is left that has none. -/
def step (g : Graph) (s : Search) : Option Search :=
  match s.way with
  | [] => none
  | ⟨node, []⟩ :: before => some { s with marks := s.marks.setIfInBounds node .left, way := before }
  | ⟨node, target :: pending⟩ :: before =>
    let s : Search := { s with way := ⟨node, pending⟩ :: before }
    match s.marks[target]? with
    | some .fresh => some (s.enter g target)
    | some (.onWay position) => some { s with found := closed s.way position target :: s.found }
    | _ => some s

/-- At most `steps` steps. -/
def run (g : Graph) : Nat → Search → Search
  | 0, s => s
  | steps + 1, s =>
    match s.step g with
    | none => s
    | some s => run g steps s

/-- The search of all that a file leads to, if it is fresh. -/
def fromRoot (g : Graph) (steps : Nat) (s : Search) (root : Nat) : Search :=
  match s.marks[root]? with
  | some .fresh => run g steps (s.enter g root)
  | _ => s

def start (g : Graph) : Search := ⟨Array.replicate g.fileCount .fresh, [], []⟩

end Search

/-- The search of the whole graph. Each file is left once and each import looked at once, so there
are as many steps as files and imports together. -/
def search (g : Graph) : Search :=
  (List.range g.fileCount).foldl (Search.fromRoot g (g.fileCount + g.edgeCount)) (Search.start g)

/-- The cycles of the graph by the places of their files, in the order in which they are found. -/
def cycleIndices (g : Graph) : List (List Nat) := g.search.found.reverse

def cycles (g : Graph) : List Cycle :=
  g.cycleIndices.map fun indices => ⟨indices.filterMap g.file?⟩

end Graph

end ImportCycles
