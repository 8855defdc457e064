import Mathlib
import ImportCycles.Program
import ImportCycles.Proofs.Search.Feedback
import ImportCycles.Proofs.Settings.Layers
import ImportCycles.Proofs.Survey.ImportGraph
/-! How a whole run ends: with a fault, or with a report and a code that tells of cycles. -/
namespace ImportCycles.Program

open ImportCycles.Graph (IsCycle)

variable {fs : FileSystem} {line : CommandLine} {args : List String} {survey : Survey}

end ImportCycles.Program
