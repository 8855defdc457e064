import ImportCycles.Path
import ImportCycles.Text.Blank
/-! File name extensions: how a list of them is cleaned, and which names carry one. -/
namespace ImportCycles.Extension

/-- The extensions scanned for unless others are asked for. -/
def defaults : List String := ["js", "mjs"]

/-- The bytes of an extension, without a point before them. -/
def bytes (ext : String) : List UInt8 := Text.Utf8.encode ext.toList

/-- A name carries an extension when it is that extension after a point after something more. -/
def carriedBy (name : Name) (ext : String) : Bool :=
  let rest := name.length - (bytes ext).length
  1 < rest && name.drop rest == bytes ext && name[rest - 1]? == some Path.dot

/-- The text without blanks around it and without points at its front. -/
def bare (ext : String) : String :=
  String.ofList ((Text.trim ext.toList).dropWhile (· = '.'))

/-- The bare texts that are not empty, each once, in the order of their first occurrences. -/
def clean (exts : List String) : List String :=
  ((exts.map bare).filter (· ≠ "")).eraseDups

end ImportCycles.Extension
