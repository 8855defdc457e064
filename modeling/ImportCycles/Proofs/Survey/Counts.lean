import ImportCycles.Proofs.Survey.Targets
/-! The counts of a survey: every specifier and every import is counted once. -/
namespace ImportCycles.Survey

variable {fs : FileSystem} {settings : Settings} {survey : Survey} {files : List Path}

/-- Where the specifiers of all files lead. -/
def resolutionsOf (fs : FileSystem) (settings : Settings) (files : List Path) : List Resolution :=
  files.flatMap fun file => (resolutions? fs settings (aliases fs settings) file).getD []

/-- The counts of a survey of these files that found `cycles` cycles. -/
def tallyOf (fs : FileSystem) (settings : Settings) (files : List Path) (cycles : Nat) : Tally :=
  let made := Graph.ofImports files (files.map (targetsOf fs settings))
  let all := resolutionsOf fs settings files
  { files := made.1.fileCount
    skipped := files.countP fun file => (text? fs file).isNone
    specifiers := all.length
    resolved := all.countP fun r => (target? r).isSome
    external := all.countP (· = .external)
    unresolved := all.countP (· = .unresolved)
    dropped := made.2.dropped
    duplicates := made.2.repeated
    edges := made.1.edgeCount
    cycles }

/-- The survey of these files below a root. -/
def surveyOf (fs : FileSystem) (settings : Settings) (root : Path) (files : List Path) : Survey :=
  let graph := importGraph fs settings files
  { root, graph, cycles := graph.cycles, tally := tallyOf fs settings files graph.cycles.length }

theorem ofTree_eq : ofTree fs settings = do
    settings.check
    let root ← Scan.root fs settings.root
    let files ← Scan.sources fs settings root
    return surveyOf fs settings root files := by
  unfold ofTree
  refine bind_congr fun _ => bind_congr fun root => bind_congr fun files => ?_
  have hall : (files.map (resolutions? fs settings (aliases fs settings))).flatMap
      (fun result => result.getD []) = resolutionsOf fs settings files := by
    rw [List.flatMap_map]
    rfl
  have htargets : (files.map (resolutions? fs settings (aliases fs settings))).map
      (fun result => (result.getD []).filterMap target?) = files.map (targetsOf fs settings) := by
    rw [List.map_map]
    rfl
  have hskipped : (files.map (resolutions? fs settings (aliases fs settings))).countP
      Option.isNone = files.countP fun file => (text? fs file).isNone := by
    rw [List.countP_map]
    simp only [Function.comp_def, resolutions?_eq, Option.isNone_map]
  simp only [hall, htargets, hskipped, surveyOf, tallyOf, importGraph]

theorem exists_tally (h : ofTree fs settings = .ok survey) :
    ∃ files, Scan.root fs settings.root = .ok survey.root ∧
      Scan.sources fs settings survey.root = .ok files ∧
      survey.graph = importGraph fs settings files ∧
      survey.tally = tallyOf fs settings files survey.cycles.length := by
  simp only [ofTree_eq, bind, Except.bind] at h
  split at h
  · simp at h
  split at h
  · simp at h
  next root hroot =>
  split at h
  · simp at h
  next files hfiles =>
  obtain rfl := Except.ok.inj h
  exact ⟨files, hroot, hfiles, rfl, rfl⟩

theorem isSome_target? {r : Resolution} : (target? r).isSome = true ↔ ∃ target, r = .resolved target := by
  simp only [Option.isSome_iff_exists, target?_eq_some]

/-- A resolution has a target, or is one of the two kinds without. -/
theorem length_eq_counts (all : List Resolution) :
    all.length = all.countP (fun r => (target? r).isSome) + all.countP (· = .external) +
      all.countP (· = .unresolved) := by
  induction all with
  | nil => rfl
  | cons r all ih =>
    simp only [List.length_cons, List.countP_cons]
    cases r <;> simp [isSome_target?] <;> omega

theorem length_targets : (files.map (targetsOf fs settings)).flatten.length =
    (resolutionsOf fs settings files).countP fun r => (target? r).isSome := by
  have hflatten : (files.map (targetsOf fs settings)).flatten =
      (resolutionsOf fs settings files).filterMap target? := by
    rw [resolutionsOf, List.filterMap_flatMap, List.flatMap]
    rfl
  rw [hflatten, List.length_filterMap_eq_countP]

/-- The counts of every survey that succeeds balance: each specifier is resolved, external or
unresolved, and each that is resolved becomes an edge, repeats one or is dropped. -/
theorem tally_balances (hfs : fs.WellFormed) (h : ofTree fs settings = .ok survey) :
    ∃ files, Scan.sources fs settings survey.root = .ok files ∧
      survey.tally.specifiers =
        survey.tally.resolved + survey.tally.external + survey.tally.unresolved ∧
      survey.tally.resolved =
        survey.tally.edges + survey.tally.duplicates + survey.tally.dropped ∧
      survey.tally.files = files.length ∧
      survey.tally.skipped = (files.filter fun file => (text? fs file).isNone).length ∧
      survey.tally.edges = survey.graph.edges.length ∧
      survey.tally.cycles = survey.cycles.length := by
  obtain ⟨files, hroot, hsources, hgraph, htally⟩ := exists_tally h
  obtain ⟨place, entries, excluded, hended⟩ := Scan.exists_ended hfs hroot hsources
  have hmade : Graph.OfDistinct files (files.map (targetsOf fs settings)) _ :=
    ofDistinct (hended.distinct hfs)
  have hwf : (importGraph fs settings files).WellFormed := (built_importGraph files).wellFormed
  rw [htally, hgraph]
  refine ⟨files, hsources, length_eq_counts _, ?_, ?_, ?_, ?_, rfl⟩
  · simp only [tallyOf]
    rw [hmade.balance, length_targets]
  · simp only [tallyOf]
    rw [Graph.fileCount, ← Array.length_toList, hmade.files_eq]
  · exact List.countP_eq_length_filter
  · exact (Graph.length_edges hwf).symm

theorem mixedTree_balances : ∃ survey files, ofTree Scan.mixedTree .defaults = .ok survey ∧
    Scan.sources Scan.mixedTree .defaults survey.root = .ok files ∧ files.length = 2 ∧
    survey.tally.specifiers =
      survey.tally.resolved + survey.tally.external + survey.tally.unresolved ∧
    survey.tally.resolved =
      survey.tally.edges + survey.tally.duplicates + survey.tally.dropped ∧
    survey.tally.files = 2 ∧ survey.tally.skipped = 1 := by
  have hok : (ofTree Scan.mixedTree .defaults).isOk = true := by decide +kernel
  obtain ⟨survey, hsurvey, hroot⟩ := exists_survey hok Scan.root_mixedTree
  obtain ⟨files, hsources, hspecifiers, hresolved, hfiles, hskipped, -⟩ :=
    tally_balances Scan.wellFormed_mixedTree hsurvey
  have hlist := hsources
  rw [hroot, Scan.sources_mixedTree] at hlist
  obtain rfl := Except.ok.inj hlist
  refine ⟨survey, _, hsurvey, hsources, rfl, hspecifiers, hresolved, hfiles, ?_⟩
  rw [hskipped]
  decide +kernel

end ImportCycles.Survey
