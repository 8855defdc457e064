import ImportCycles.Path
/-!
The normal form of a path, found without looking at any file: no `.`, and no `..` but at the front
of a relative path. It is never empty.
-/
namespace ImportCycles.Path

/-- One more component on a stack whose top is its head: `..` takes a name away, and nothing from
a root. -/
def climb (stack : List Component) : Component → List Component
  | .here => stack
  | .up =>
    match stack with
    | .name _ :: below => below
    | .root :: _ => stack
    | _ => .up :: stack
  | c => c :: stack

def normalComponents (cs : List Component) : List Component :=
  (cs.foldl climb []).reverse

/-- The normal form; `.` stands for the path that leads nowhere else. -/
def normal (p : Path) : Path :=
  match normalComponents p.components with
  | [] => ⟨[dot]⟩
  | cs => ofComponents cs

end ImportCycles.Path
