import ImportCycles.CommandLine
import ImportCycles.CommandLine.Help
import ImportCycles.Report.Dot
import ImportCycles.Settings.File
import ImportCycles.Survey
/-! A whole run: from arguments and files to a report and an exit code. -/
namespace ImportCycles.Program

def version : String := "modcycles 0.1.0"

/-- The code of a strict run that found cycles, and of a line that cannot be read. -/
def strictCode : Nat := 2

def faultCode : Nat := 1

structure Outcome where
  exitCode : Nat
  output : String
  /-- Lines beside the output: counts that were asked for, or why the run failed. -/
  messages : List String
deriving DecidableEq, Repr

/-- What could not be done, and what lies behind it, the nearest cause first. -/
structure Fault where
  summary : String
  causes : List String
deriving DecidableEq, Repr

namespace Fault

/-- A text after a mark; its other lines are set in by `margin`. -/
def setIn (mark margin text : String) : String :=
  mark ++ String.ofList (text.toList.flatMap fun c => if c = '\n' then c :: margin.toList else [c])

/-- Several causes are numbered. -/
def causeTexts : List String → List String
  | [cause] => [setIn "    " "    " cause]
  | causes => causes.mapIdx fun i cause => setIn ("    " ++ toString i ++ ": ") "       " cause

def text (fault : Fault) : String :=
  "Error: " ++ fault.summary ++
    if fault.causes = [] then ""
    else "\n\nCaused by:" ++ String.join ((causeTexts fault.causes).map ("\n" ++ ·))

/-- A fault in a settings file or an alias. -/
def ofFailure (failure : Failure) : Fault := ⟨failure.message, failure.cause?.toList⟩

/-- A fault that keeps a root from being scanned. -/
def ofScan (root : Path) (failure : Failure) : Fault :=
  { summary := "cannot scan " ++ root.display ++
      if failure.isMissingRoot then " (pass ROOT or set `root` in modcycles.toml)" else ""
    causes := failure.message :: failure.cause?.toList }

def outcome (fault : Fault) : Outcome := ⟨faultCode, "", fault.text.splitOn "\n"⟩

end Fault

/-- The settings of a run before the line is laid over them: those of the settings file that the
line names, which must be usable, or of the one in the working directory. -/
def settings (fs : FileSystem) (line : CommandLine) : Except Failure Settings :=
  match line.settingsFile with
  | none => .ok (.ofLayer (.ofDirectory fs fs.workingPath) fs.workingPath)
  | some file =>
    (Settings.Layer.ofFile fs file).map fun layer =>
      .ofLayer layer ((fs.workingPath.join file).parent?.getD fs.workingPath)

def summary (t : Tally) : List String :=
  [s!"Scanned {t.files} files",
    s!"  {t.specifiers} imports: {t.resolved} resolved, {t.external} external, {t.unresolved} unresolved",
    s!"  {t.edges} edges ({t.duplicates} duplicate imports collapsed, {t.dropped} imports outside the scanned tree dropped)",
    s!"  {t.cycles} cycles"] ++
    if t.skipped = 0 then [] else [s!"  {t.skipped} files skipped (unreadable)"]

def report (format : Format) (names : Report.Naming) (survey : Survey) : String :=
  match format with
  | .compact => Report.compact names survey.cycles
  | .json => Report.json names survey.cycles survey.tally
  | .dot => Report.Dot.render survey.graph names survey.cycles

/-- The run of a line that has been read. -/
def runLine (fs : FileSystem) (line : CommandLine) : Outcome :=
  match settings fs line with
  | .error failure => (Fault.ofFailure failure).outcome
  | .ok s =>
    match line.layOver s fs.workingPath with
    | (_, some failure) => (Fault.ofFailure failure).outcome
    | (s, none) =>
      match Survey.ofTree fs s with
      | .error failure => (Fault.ofScan s.root failure).outcome
      | .ok survey =>
        { exitCode := if s.strict ∧ survey.cycles ≠ [] then strictCode else 0
          output := report line.format ⟨survey.root, s.root⟩ survey
          messages := if line.stats then summary survey.tally else [] }

/-- The run of a program with these arguments in a file system. -/
def run (fs : FileSystem) (args : List String) : Outcome :=
  match CommandLine.ofArguments args with
  | .ok line => runLine fs line
  | .error .helpAsked => ⟨0, CommandLine.help, []⟩
  | .error .versionAsked => ⟨0, version ++ "\n", []⟩
  | .error _ => ⟨strictCode, "", []⟩

end ImportCycles.Program
