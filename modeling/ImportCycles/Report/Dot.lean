import Std.Data.HashSet
import ImportCycles.Report
/-! The graph as a DOT drawing, in which files and imports on reported cycles stand out. -/
namespace ImportCycles.Report.Dot

/-- A character inside a label. -/
def escapeChar (c : Char) : List Char :=
  if c = '\x22' then ['\\', '\x22']
  else if c = '\\' then ['\\', '\\']
  else if c = '\n' then ['\\', 'n']
  else [c]

/-- A text that can stand between double quotes on one line. -/
def escape (s : String) : String := String.ofList (s.toList.flatMap escapeChar)

def fill (onCycle : Bool) : String := if onCycle then "#F1948A" else "#EAECEE"

def node (i : Nat) (label : String) (onCycle : Bool) : String :=
  "    n" ++ toString i ++ " [label=\x22" ++ escape label ++ "\x22 fillcolor=\x22" ++ fill onCycle ++
    "\x22];\n"

def edge (i j : Nat) (onCycle : Bool) : String :=
  "    n" ++ toString i ++ " -> n" ++ toString j ++
    (if onCycle then " [color=red penwidth=2];\n" else ";\n")

/-- The files on cycles. Spellings of one path are one file. -/
def filesOn (cycles : List Cycle) : Std.HashSet (List Component) :=
  Std.HashSet.ofList (cycles.flatMap fun c => c.files.map Path.components)

/-- The imports along cycles, each by its two files. -/
def importsOn (cycles : List Cycle) : Std.HashSet (List Component × List Component) :=
  Std.HashSet.ofList <| cycles.flatMap fun c =>
    c.edges.map fun (p, q) => (p.components, q.components)

variable (g : Graph)

/-- The line of an import of file `j` by file `i`. An import whose files are not found again in the
graph has none. -/
def edge? (onCycles : Std.HashSet (List Component × List Component)) (i j : Nat) :
    Option String := do
  let origin ← g.file? i
  let target ← g.file? j
  let i ← g.indexOf? origin
  let j ← g.indexOf? target
  some (edge i j (onCycles.contains (origin.components, target.components)))

/-- The drawing: a line for each file, then a line for each import. -/
def render (names : Naming) (cycles : List Cycle) : String :=
  let files := filesOn cycles
  let imports := importsOn cycles
  "digraph imports \x7b\n" ++
    "    rankdir=LR;\n" ++
    "    node [shape=box style=filled fontname=monospace];\n" ++
    String.join
      (g.files.toList.mapIdx fun i f => node i (names.name f) (files.contains f.components)) ++
    String.join (g.edges.filterMap fun (i, j) => edge? g imports i j) ++
    "\x7d\n"

end ImportCycles.Report.Dot
