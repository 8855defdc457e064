/-! The kinds of statement by which one module refers to another. -/
namespace ImportCycles

inductive ImportKind where
  /-- An import clause and where it comes from: the clause ends with the word `from`. -/
  | namedFrom
  /-- An import of a whole module for its effects. -/
  | sideEffect
  | reExport
  /-- A call of `import`. -/
  | dynamic
  /-- A call of `require`. -/
  | require
deriving DecidableEq, Repr

namespace ImportKind

def all : List ImportKind := [.namedFrom, .sideEffect, .reExport, .dynamic, .require]

def label : ImportKind → String
  | .namedFrom => "named-from"
  | .sideEffect => "side-effect"
  | .reExport => "re-export"
  | .dynamic => "dynamic"
  | .require => "require"

def ofLabel? (s : String) : Option ImportKind := all.find? (·.label == s)

/-- The kinds looked for unless others are asked for. -/
def defaults : List ImportKind := [.namedFrom, .sideEffect]

/-- What stands between the keyword and the quoted specifier. -/
inductive Shape where
  /-- Blanks, any text that ends with `from` on the line where the blanks end, and blanks. -/
  | clause
  /-- Blanks. -/
  | plain
  /-- An opening parenthesis; one that closes it follows the specifier. -/
  | call
deriving DecidableEq, Repr

def shape : ImportKind → Shape
  | .namedFrom | .reExport => .clause
  | .sideEffect => .plain
  | .dynamic | .require => .call

def keyword : ImportKind → List Char
  | .namedFrom | .sideEffect | .dynamic => ['i', 'm', 'p', 'o', 'r', 't']
  | .reExport => ['e', 'x', 'p', 'o', 'r', 't']
  | .require => ['r', 'e', 'q', 'u', 'i', 'r', 'e']

theorem ofLabel?_label (k : ImportKind) : ofLabel? k.label = some k := by
  cases k <;> decide

end ImportKind

end ImportCycles
