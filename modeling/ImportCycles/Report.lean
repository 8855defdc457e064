import ImportCycles.Cycle
import ImportCycles.Json
/-!
Reports on cycles: for readers, as JSON, and as a drawing of the whole graph in DOT. Files below
the scanned root are named from the root as the user wrote it.
-/
namespace ImportCycles

/-- What a scan counts. -/
structure Tally where
  files : Nat
  /-- Files that cannot be read. -/
  skipped : Nat
  specifiers : Nat
  resolved : Nat
  external : Nat
  unresolved : Nat
  /-- Imports of files that were not scanned. -/
  dropped : Nat
  /-- Imports of a file that its importer imports already. -/
  duplicates : Nat
  edges : Nat
  cycles : Nat
deriving DecidableEq, Repr

namespace Report

/-- How files are named: below the canonical root, from the root as it was written. -/
structure Naming where
  canonicalRoot : Path
  writtenRoot : Path
deriving DecidableEq, Repr

namespace Naming

variable (names : Naming)

def name (file : Path) : String :=
  match file.below? names.canonicalRoot with
  | some rest => (names.writtenRoot.join rest).display
  | none => file.display

/-- The written root with one slash at its end in place of all slashes and backslashes there; a
root of nothing else stays. -/
def rootLabel : String :=
  let text := names.writtenRoot.display.toList
  match text.reverse.dropWhile fun c => c = '/' || c = '\\' with
  | [] => String.ofList text
  | front => String.ofList (front.reverse ++ ['/'])

end Naming

variable (names : Naming)

/-- A line that counts the cycles, and one for each. -/
def compact (cycles : List Cycle) : String :=
  if cycles = [] then "No circular dependencies found in " ++ names.rootLabel ++ "\n"
  else
    "Found " ++ toString cycles.length ++ " circular dependencies:\n" ++
      String.join (cycles.map fun c => " -> ".intercalate (c.files.map names.name) ++ "\n")

def tallyJson (t : Tally) : Json :=
  .object
    [("file_count", .number t.files), ("skipped", .number t.skipped),
      ("specifiers", .number t.specifiers), ("resolved", .number t.resolved),
      ("external", .number t.external), ("unresolved", .number t.unresolved),
      ("dropped", .number t.dropped), ("duplicates", .number t.duplicates),
      ("edges", .number t.edges), ("cycles", .number t.cycles)]

/-- The report as one JSON value. -/
def value (cycles : List Cycle) (t : Tally) : Json :=
  .object
    [("root", .string names.rootLabel), ("cycle_count", .number cycles.length),
      ("cycles",
        .array (cycles.map fun c => .array (c.files.map fun f => .string (names.name f)))),
      ("stats", tallyJson t)]

def json (cycles : List Cycle) (t : Tally) : String := (value names cycles t).pretty ++ "\n"

end Report

end ImportCycles
