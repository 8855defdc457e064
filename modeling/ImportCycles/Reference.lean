import ImportCycles.Statement
import ImportCycles.Text.Utf8
/-!
The references of a source text: the statements of some kinds, in the order in which their
specifiers stand in the text.
-/
namespace ImportCycles

structure Reference where
  kind : ImportKind
  specifier : String
  /-- Bytes before the specifier, in UTF-8. -/
  offset : Nat
deriving DecidableEq, Repr

namespace Reference

/-- The statements of one kind, leftmost first, none beginning inside another. `offset` counts the
bytes before the text, and `skip` the characters at its front that belong to a statement. -/
def ofKindFrom (kind : ImportKind) (offset skip : Nat) : List Char → List Reference
  | [] => []
  | c :: rest =>
    match skip with
    | skip + 1 => ofKindFrom kind (offset + c.utf8Size) skip rest
    | 0 =>
      match Statement.atFront? kind (c :: rest) with
      | none => ofKindFrom kind (offset + c.utf8Size) 0 rest
      | some s =>
        ⟨kind, String.ofList s.specifier, offset + Text.Utf8.size s.opening⟩ ::
          ofKindFrom kind (offset + c.utf8Size) (s.text.length - 1) rest

def ofKind (kind : ImportKind) (source : List Char) : List Reference :=
  ofKindFrom kind 0 0 source

/-- Of neighbours with one offset only the first stays. -/
def distinctOffsets : List Reference → List Reference
  | [] => []
  | r :: rest =>
    match distinctOffsets rest with
    | [] => [r]
    | s :: others => if r.offset = s.offset then r :: others else r :: s :: others

/-- The references of all kinds asked for; where two kinds give the same offset, the kind that was
named first counts. -/
def all (kinds : List ImportKind) (source : String) : List Reference :=
  distinctOffsets
    ((kinds.eraseDups.flatMap fun kind => ofKind kind source.toList).mergeSort
      fun r s => r.offset ≤ s.offset)

/-- The specifiers of a source text. -/
def specifiers (kinds : List ImportKind) (source : String) : List String :=
  (all kinds source).map specifier

end Reference

end ImportCycles
