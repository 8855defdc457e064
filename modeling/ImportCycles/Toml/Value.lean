/-!
TOML values, and the rules for building tables: which table a key may still be added to depends on
how the table came to be.
-/
namespace ImportCycles.Toml

/-- How a table came to be. -/
inductive TableKind where
  /-- By a header of its own. -/
  | headed
  /-- By the header of a table inside it. -/
  | implied
  /-- By a dotted key. -/
  | dotted
  /-- Written between braces. -/
  | inline
deriving DecidableEq, Repr

inductive Value where
  | string (s : String)
  | integer (n : Int)
  | float
  | boolean (b : Bool)
  /-- A date, a time or both, in one spelling. -/
  | dateTime (text : String)
  | array (items : List Value)
  /-- Tables written one by one under headers in double brackets, each by its entries; the last
  one comes first. -/
  | tables (items : List (List (String × Value)))
  | table (kind : TableKind) (entries : List (String × Value))

abbrev Entries := List (String × Value)

namespace Entries

/-- The entries with one more; nothing, if its key is taken. -/
def add? (key : String) (value : Value) (entries : Entries) : Option Entries :=
  if (entries.lookup key).isSome then none else some (entries ++ [(key, value)])

/-- The entries with another value for a key. -/
def set (key : String) (value : Value) : Entries → Entries
  | [] => [(key, value)]
  | (k, old) :: rest => if k = key then (key, value) :: rest else (k, old) :: set key value rest

def remove (key : String) (entries : Entries) : Entries := entries.filter (·.1 ≠ key)

/-- A dotted key and its value. The tables on the way must have come from dotted keys too, or from
headers of tables inside them, and the last one from dotted keys. -/
def addDotted? (entries : Entries) (key : String) (value : Value) : List String → Option Entries
  | [] => entries.add? key value
  | step :: path =>
    match entries.lookup step with
    | none => do
      let inner ← addDotted? [] key value path
      some (entries ++ [(step, .table .dotted inner)])
    | some (.table .dotted inner) => do
      let inner ← addDotted? inner key value path
      some (entries.set step (.table .dotted inner))
    | some (.table .implied inner) =>
      if path = [] then none
      else do
        let inner ← addDotted? inner key value path
        some (entries.set step (.table .implied inner))
    | some (.tables (last :: before)) =>
      if path = [] then none
      else do
        let last ← addDotted? last key value path
        some (entries.set step (.tables (last :: before)))
    | some _ => none

/-- A change of the table that a header's path leads to; missing tables on the way are made. -/
def changeAt? {α : Type} (change : Entries → Option (Entries × α)) (entries : Entries) :
    List String → Option (Entries × α)
  | [] => change entries
  | step :: path =>
    match entries.lookup step with
    | none => do
      let (inner, result) ← changeAt? change [] path
      some (entries ++ [(step, .table .implied inner)], result)
    | some (.table .inline _) => none
    | some (.table kind inner) => do
      let (inner, result) ← changeAt? change inner path
      some (entries.set step (.table kind inner), result)
    | some (.tables (last :: before)) => do
      let (last, result) ← changeAt? change last path
      some (entries.set step (.tables (last :: before)), result)
    | some _ => none

end Entries

/-- A document being read: the tables closed so far, and the one under way with its path. -/
structure Document where
  root : Entries
  current : Entries
  /-- The path of the table under way and its own key; none for the root table. -/
  place : Option (List String × String)
  /-- Whether the table under way is one of several under one key. -/
  isOneOfMany : Bool

namespace Document

def empty : Document := ⟨[], [], none, false⟩

def add? (d : Document) (path : List String) (key : String) (value : Value) : Option Document :=
  (Entries.addDotted? d.current key value path).map fun current => { d with current := current }

/-- The entries of the whole document, with the table under way in its place. -/
def close? (d : Document) : Option Entries :=
  match d.place with
  | none => some d.current
  | some (path, key) =>
    let change (entries : Entries) : Option (Entries × Unit) :=
      if d.isOneOfMany then
        match entries.lookup key with
        | none => some (entries ++ [(key, .tables [d.current])], ())
        | some (.tables items) => some (entries.set key (.tables (d.current :: items)), ())
        | some _ => none
      else (entries.add? key (.table .headed d.current)).map (·, ())
    (Entries.changeAt? change d.root path).map Prod.fst

/-- A header in single brackets. The table may have been implied, but not made before. -/
def openTable? (d : Document) (path : List String) (key : String) : Option Document := do
  let root ← d.close?
  let change (entries : Entries) : Option (Entries × Entries) :=
    match entries.lookup key with
    | none => some (entries, [])
    | some (.table .implied inner) => some (entries.remove key, inner)
    | some _ => none
  let (root, current) ← Entries.changeAt? change root path
  some ⟨root, current, some (path, key), false⟩

/-- A header in double brackets: one more table under its key. -/
def openOneOfMany? (d : Document) (path : List String) (key : String) : Option Document := do
  let root ← d.close?
  let change (entries : Entries) : Option (Entries × Unit) :=
    match entries.lookup key with
    | none | some (.tables _) => some (entries, ())
    | some _ => none
  let (root, _) ← Entries.changeAt? change root path
  some ⟨root, [], some (path, key), true⟩

end Document

end ImportCycles.Toml
