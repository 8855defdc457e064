import ImportCycles.Settings
import ImportCycles.Toml
/-! Settings files: which keys count, what their values must be, and where the file is found. -/
namespace ImportCycles.Settings

namespace File

/-- The name under which a settings file is looked for in a directory. -/
def name : Path := Path.ofString "modcycles.toml"

open Toml (Value Entries)

def string? : Value → Option String
  | .string s => some s
  | _ => none

def boolean? : Value → Option Bool
  | .boolean b => some b
  | _ => none

def strings? : Value → Option (List String)
  | .array items => items.mapM string?
  | _ => none

/-- A value without any content may stand beside the label of an import kind. -/
def isEmpty : Value → Bool
  | .array [] | .tables [] | .table _ [] => true
  | _ => false

/-- An import kind: its label, or a table whose key is the label. Between braces it is the only
key; under a header the first key counts. -/
def kind? : Value → Option ImportKind
  | .string label => ImportKind.ofLabel? label
  | .table kind ((label, value) :: others) =>
    if isEmpty value ∧ (kind ≠ .inline ∨ others.isEmpty) then ImportKind.ofLabel? label else none
  | _ => none

def kinds? : Value → Option (List ImportKind)
  | .array items => items.mapM kind?
  | .tables items => (items.reverse.map (Value.table .headed)).mapM kind?
  | _ => none

/-- The key under which a date or time is read where a table is asked for. -/
def dateTimeKey : String := "$__toml_private_datetime"

def aliasEntries? : Value → Option Entries
  | .table _ entries => some entries
  | .dateTime text => some [(dateTimeKey, .string text)]
  | _ => none

/-- The aliases of a table, in the order of their fronts. -/
def aliases? (value : Value) : Option (List Alias) := do
  let entries ← aliasEntries? value
  let aliases ← entries.mapM fun (front, directory) =>
    (string? directory).map fun directory => Alias.mk front (Path.ofString directory)
  some (aliases.mergeSort fun a b =>
    Text.Utf8.encode a.front.toList ≤ Text.Utf8.encode b.front.toList)

/-- The value under the first of some spellings of a key. More than one of them, or a value that
`read` refuses, is an error. -/
def field? {α : Type} (entries : Entries) (spellings : List String) (read : Value → Option α) :
    Option (Option α) :=
  match entries.filter (spellings.contains ·.1) with
  | [] => some none
  | [(_, value)] => (read value).map some
  | _ => none

/-- The layer that the entries of a document give. Keys that mean nothing here do not count. -/
def layer? (entries : Entries) : Option Layer := do
  let root ← field? entries ["root"] fun v => (string? v).map Path.ofString
  let extensions ← field? entries ["extensions"] strings?
  let excluded ← field? entries ["exclude_dirs", "excludeDirs"] strings?
  let followsIgnoreFiles ← field? entries ["respect_gitignore", "respectGitignore"] boolean?
  let kinds ← field? entries ["import_syntax", "importSyntax"] kinds?
  let aliases ← field? entries ["alias_map", "aliasMap"] aliases?
  let strict ← field? entries ["strict"] boolean?
  some { root, extensions, excluded, followsIgnoreFiles, kinds, aliases, strict }

end File

/-- The layer in a settings file. -/
def Layer.ofFile (fs : FileSystem) (file : Path) : Except Failure Layer :=
  match fs.read file with
  | .error fault => .error (.settingsUnreadable file (.fileSystem fault))
  | .ok content =>
    match Text.Utf8.read? content with
    | none => .error (.settingsUnreadable file .notText)
    | some text =>
      match (Toml.read? (String.ofList text)).bind File.layer? with
      | none => .error (.settingsMalformed file)
      | some layer => .ok layer

/-- The layer in the settings file of a directory, or an empty one, if there is none that can be
used. -/
def Layer.ofDirectory (fs : FileSystem) (directory : Path) : Layer :=
  (Layer.ofFile fs (directory.join File.name)).toOption.getD .empty

end ImportCycles.Settings
