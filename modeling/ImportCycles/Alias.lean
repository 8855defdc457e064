import ImportCycles.Path.Normal
/-!
Aliases: directories that stand for the front of a specifier. Of the aliases that match a
specifier the longest one counts.
-/
namespace ImportCycles

structure Alias where
  /-- The text that a specifier begins with. -/
  front : String
  directory : Path
deriving DecidableEq, Repr

namespace Alias

/-- An alias written `FRONT=DIRECTORY`, cut at the first `=`; neither side is empty. -/
def ofText? (text : String) : Option Alias :=
  let cs := text.toList
  let front := cs.takeWhile (· ≠ '=')
  match cs.dropWhile (· ≠ '=') with
  | _ :: c :: rest => if front = [] then none
    else some ⟨String.ofList front, Path.ofString (String.ofList (c :: rest))⟩
  | _ => none

/-- What is left of a specifier after the front of an alias that matches it. A front that does
not end in a slash matches whole segments only, and takes one slash with it. -/
def rest? (front specifier : String) : Option (List Char) :=
  match front.toList.isPrefixOf? specifier.toList with
  | none => none
  | some [] => some []
  | some (c :: rest) =>
    if front.toList.getLast? = some '/' then some (c :: rest)
    else if c = '/' then some rest
    else none

def Matches (a : Alias) (specifier : String) : Prop := (rest? a.front specifier).isSome

instance (a : Alias) (specifier : String) : Decidable (a.Matches specifier) :=
  inferInstanceAs (Decidable (_ = true))

/-- The path that stands for the specifier, if the alias matches it. -/
def expand? (a : Alias) (specifier : String) : Option Path :=
  match rest? a.front specifier with
  | none => none
  | some [] => some a.directory
  | some rest => some (a.directory.join (Path.ofString (String.ofList rest)))

/-- Longer fronts come first; fronts of one length are ordered by their bytes. -/
def precedes (a b : Alias) : Bool :=
  let x := Text.Utf8.encode a.front.toList
  let y := Text.Utf8.encode b.front.toList
  y.length < x.length || (x.length = y.length && x ≤ y)

end Alias

/-- Aliases in the order in which they are tried. -/
structure AliasTable where
  entries : List Alias
deriving Repr

namespace AliasTable

def ofList (aliases : List Alias) : AliasTable := ⟨aliases.mergeSort Alias.precedes⟩

/-- The path that stands for the specifier, by the first alias that matches. -/
def expand? (t : AliasTable) (specifier : String) : Option Path :=
  t.entries.findSome? fun a => a.expand? specifier

end AliasTable

end ImportCycles
