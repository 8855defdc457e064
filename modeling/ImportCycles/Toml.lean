import ImportCycles.Toml.Text
/-! Reading TOML documents. -/
namespace ImportCycles.Toml

/-- The items of an array after its opening bracket, each read by `item`; `most` bounds their
number. -/
def arrayItems? (item : List Char → Option (Value × List Char)) :
    Nat → List Char → Option (List Value × List Char)
  | 0, _ => none
  | most + 1, cs =>
    match Text.skipBlanks false cs with
    | ']' :: rest => some ([], rest)
    | cs => do
      let (value, rest) ← item cs
      match Text.skipBlanks false rest with
      | ']' :: rest => some ([value], rest)
      | ',' :: rest => do
        let (values, rest) ← arrayItems? item most rest
        some (value :: values, rest)
      | _ => none

/-- The entries of an inline table up to its closing brace, each value read by `item`; `most`
bounds their number. -/
def inlineEntries? (item : List Char → Option (Value × List Char)) :
    Nat → Entries → List Char → Option (Entries × List Char)
  | 0, _, _ => none
  | most + 1, entries, cs => do
    let ((path, key), rest) ← Text.key? cs
    match rest with
    | '=' :: rest => do
      let (value, rest) ← item (Text.skipSpaces rest)
      let entries ← entries.addDotted? key value path
      match Text.skipSpaces rest with
      | '}' :: rest => some (entries, rest)
      | ',' :: rest => inlineEntries? item most entries rest
      | _ => none
    | _ => none

/-- A value at the front of the text; arrays and inline tables are nested at most `depth` deep. -/
def value? (depth : Nat) (cs : List Char) : Option (Value × List Char) :=
  match cs with
  | '[' :: rest =>
    match depth with
    | 0 => none
    | depth + 1 =>
      (arrayItems? (value? depth) (rest.length + 1) rest).map fun (items, rest) =>
        (.array items, rest)
  | '{' :: rest =>
    match depth with
    | 0 => none
    | depth + 1 =>
      match Text.skipSpaces rest with
      | '}' :: rest => some (.table .inline [], rest)
      | _ =>
        (inlineEntries? (value? depth) (rest.length + 1) [] rest).map fun (entries, rest) =>
          (.table .inline entries, rest)
  | '\x22' :: _ | '\x27' :: _ => (Text.string? cs).map fun (s, rest) => (.string s, rest)
  | cs => Scalar.read? cs

/-- One line: a header, a key and its value, or neither. -/
def line? (d : Document) (cs : List Char) : Option (Document × List Char) :=
  match Text.skipSpaces cs with
  | '[' :: '[' :: rest => do
    let ((path, key), rest) ← Text.key? rest
    match rest with
    | ']' :: ']' :: rest => do
      let d ← d.openOneOfMany? path key
      let rest ← Text.lineEnd? rest
      some (d, rest)
    | _ => none
  | '[' :: rest => do
    let ((path, key), rest) ← Text.key? rest
    match rest with
    | ']' :: rest => do
      let d ← d.openTable? path key
      let rest ← Text.lineEnd? rest
      some (d, rest)
    | _ => none
  | '#' :: _ | '\n' :: _ | '\r' :: _ | [] => (Text.lineEnd? cs).map (d, ·)
  | cs => do
    let ((path, key), rest) ← Text.key? cs
    match rest with
    | '=' :: rest => do
      let (value, rest) ← value? (Text.depthLimit - 1) (Text.skipSpaces rest)
      let d ← d.add? path key value
      let rest ← Text.lineEnd? rest
      some (d, rest)
    | _ => none

/-- The lines of a document, at most `most` of them. -/
def lines? : Nat → Document → List Char → Option Document
  | _, d, [] => some d
  | 0, _, _ => none
  | most + 1, d, cs => do
    let (d, rest) ← line? d cs
    lines? most d rest

/-- The entries of a document; a byte order mark before it does not count. -/
def read? (text : String) : Option Entries := do
  let cs :=
    match text.toList with
    | '\uFEFF' :: rest => rest
    | cs => cs
  let d ← lines? (cs.length + 1) .empty cs
  d.close?

end ImportCycles.Toml
