import ImportCycles.Survey
import ImportCycles.Proofs.Graph.Built
/-! The graph that a survey holds. -/
namespace ImportCycles.Survey

/-- The files that a source file imports, in the order of its specifiers. -/
def targetsOf (fs : FileSystem) (settings : Settings) (file : Path) : List Path :=
  ((resolutions? fs settings (aliases fs settings) file).getD []).filterMap target?

/-- The graph of the imports among source files. -/
def importGraph (fs : FileSystem) (settings : Settings) (files : List Path) : Graph :=
  (Graph.ofImports files (files.map (targetsOf fs settings))).1

variable {fs : FileSystem} {settings : Settings} {survey : Survey}

/-- A survey that succeeds has scanned its root, and holds the graph of the sources there. -/
theorem exists_files (h : ofTree fs settings = .ok survey) :
    ∃ files, Scan.root fs settings.root = .ok survey.root ∧
      Scan.sources fs settings survey.root = .ok files ∧
      survey.graph = importGraph fs settings files ∧ survey.cycles = survey.graph.cycles := by
  simp only [ofTree, bind, Except.bind] at h
  split at h
  · simp at h
  split at h
  · simp at h
  next root hroot =>
  split at h
  · simp at h
  next files hfiles =>
  obtain rfl := Except.ok.inj h
  refine ⟨files, hroot, hfiles, ?_, rfl⟩
  rw [importGraph, List.map_map]
  rfl

theorem built_importGraph (files : List Path) : (importGraph fs settings files).Built :=
  Graph.built_ofImports files _

end ImportCycles.Survey
