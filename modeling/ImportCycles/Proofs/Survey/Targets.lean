import ImportCycles.Proofs.Graph.OfImports
import ImportCycles.Proofs.Scan.Sources
import ImportCycles.Proofs.Survey.ImportGraph
/-! What the graph of a survey says of the tree: its files are the sources, and the targets of a
file are the sources that its specifiers lead to. -/
namespace ImportCycles.Survey

open ImportCycles.Graph (placeOf?)

/-- The text of a file, if it can be read and is UTF-8. -/
def text? (fs : FileSystem) (file : Path) : Option (List Char) :=
  (fs.read file).toOption.bind Text.Utf8.read?

/-- The specifiers of a file in order of appearance; none, if it has no text. -/
def specifiersOf (fs : FileSystem) (settings : Settings) (file : Path) : List String :=
  match text? fs file with
  | none => []
  | some text => Reference.specifiers settings.kinds (String.ofList text)

/-- The file that a specifier of the file `origin` resolves to. -/
def resolve? (fs : FileSystem) (settings : Settings) (origin : Path) (specifier : String) :
    Option Path :=
  target? (Resolution.ofSpecifier fs settings.extensions (aliases fs settings) origin specifier)

variable {fs : FileSystem} {settings : Settings} {survey : Survey} {files : List Path}
  {file origin target : Path} {specifier : String} {i j : Nat}

theorem target?_eq_some {r : Resolution} : target? r = some target ↔ r = .resolved target := by
  cases r <;> simp [target?]

theorem resolutions?_eq : resolutions? fs settings (aliases fs settings) file =
    (text? fs file).map fun text =>
      (Reference.specifiers settings.kinds (String.ofList text)).map
        (Resolution.ofSpecifier fs settings.extensions (aliases fs settings) file) := by
  unfold resolutions? specifiersIn text? Text.Utf8.read?
  cases fs.read file with
  | error cause => rfl
  | ok content =>
    cases hread : Text.Utf8.read content with
    | error cause => simp [Except.toOption, hread]
    | ok text => simp [Except.toOption, hread]

theorem getD_resolutions? : (resolutions? fs settings (aliases fs settings) file).getD [] =
    (specifiersOf fs settings file).map
      (Resolution.ofSpecifier fs settings.extensions (aliases fs settings) file) := by
  rw [resolutions?_eq, specifiersOf]
  cases text? fs file <;> rfl

/-- Statements that the kinds give in the order of their offsets are left so. -/
theorem specifiersOf_eq {text : List Char} (htext : text? fs file = some text)
    (hsorted : (settings.kinds.eraseDups.flatMap fun kind => Reference.ofKind kind text).Pairwise
      fun r s => r.offset ≤ s.offset) :
    specifiersOf fs settings file = (Reference.distinctOffsets
      (settings.kinds.eraseDups.flatMap fun kind => Reference.ofKind kind text)).map
        Reference.specifier := by
  have hsort : (settings.kinds.eraseDups.flatMap fun kind => Reference.ofKind kind text).mergeSort
      (fun r s => r.offset ≤ s.offset) = _ := List.mergeSort_of_pairwise (by simpa using hsorted)
  simp only [specifiersOf, htext, Reference.specifiers, Reference.all, String.toList_ofList, hsort]

theorem targetsOf_eq :
    targetsOf fs settings file = (specifiersOf fs settings file).filterMap (resolve? fs settings file) := by
  rw [targetsOf, getD_resolutions?, List.filterMap_map]
  rfl

/-- Without aliases only relative specifiers lead to files. -/
theorem isRelativeSpecifier_of_resolve? (h : settings.aliases = [])
    (hr : resolve? fs settings origin specifier = some target) :
    isRelativeSpecifier specifier = true := by
  by_contra hnot
  have hexpand : (aliases fs settings).expand? specifier = none := by
    simp [aliases, h, AliasTable.ofList, AliasTable.expand?]
  simp [resolve?, Resolution.ofSpecifier, hnot, hexpand, target?] at hr

/-- The scan behind a survey, and the graph that was made of it. -/
theorem exists_ended (hfs : fs.WellFormed) (h : ofTree fs settings = .ok survey) :
    ∃ files place entries excluded, Scan.sources fs settings survey.root = .ok files ∧
      Scan.Ended fs settings survey.root files place entries excluded ∧
      survey.graph = importGraph fs settings files ∧ survey.cycles = survey.graph.cycles := by
  obtain ⟨files, hroot, hsources, hgraph, hcycles⟩ := exists_files h
  obtain ⟨place, entries, excluded, hended⟩ := Scan.exists_ended hfs hroot hsources
  exact ⟨files, place, entries, excluded, hsources, hended, hgraph, hcycles⟩

theorem exists_survey {root : Path} (hok : (ofTree fs settings).isOk = true)
    (hroot : Scan.root fs settings.root = .ok root) :
    ∃ survey, ofTree fs settings = .ok survey ∧ survey.root = root := by
  cases hsurvey : ofTree fs settings with
  | error failure => simp [hsurvey, Except.isOk, Except.toBool] at hok
  | ok survey =>
    obtain ⟨_, hroot', -⟩ := exists_files hsurvey
    exact ⟨survey, rfl, Except.ok.inj (hroot'.symm.trans hroot)⟩

section Distinct

variable (hd : files.Pairwise fun p q => ¬ p.same q)
include hd

theorem ofDistinct : Graph.OfDistinct files (files.map (targetsOf fs settings))
    (Graph.ofImports files (files.map (targetsOf fs settings))) :=
  Graph.ofImports_distinct hd (List.length_map _)

theorem targets_importGraph (hfile : files[i]? = some file) :
    (importGraph fs settings files).targets i =
      (((specifiersOf fs settings file).filterMap (resolve? fs settings file)).filterMap
        (placeOf? files)).eraseDups := by
  rw [importGraph, (ofDistinct hd).targets_eq, List.getElem?_map, hfile, Option.map_some,
    Option.getD_some, targetsOf_eq]

/-- A source imports another just when one of its specifiers leads there. -/
theorem imports_importGraph_iff : (importGraph fs settings files).Imports i j ↔
    ∃ origin target specifier reached, files[i]? = some origin ∧ files[j]? = some target ∧
      specifier ∈ specifiersOf fs settings origin ∧
      resolve? fs settings origin specifier = some reached ∧ target.same reached = true := by
  constructor
  · intro h
    cases hfile : files[i]? with
    | none =>
      rw [Graph.Imports, importGraph, (ofDistinct hd).targets_eq, List.getElem?_map, hfile] at h
      simp at h
    | some origin =>
      rw [Graph.Imports, targets_importGraph hd hfile, List.mem_eraseDups, List.mem_filterMap] at h
      obtain ⟨reached, hreached, hplace⟩ := h
      obtain ⟨specifier, hspecifier, hresolve⟩ := List.mem_filterMap.mp hreached
      obtain ⟨target, htarget, hsame⟩ := (Graph.placeOf?_eq_some hd).mp hplace
      exact ⟨origin, target, specifier, reached, rfl, htarget, hspecifier, hresolve, hsame⟩
  · rintro ⟨origin, target, specifier, reached, hfile, htarget, hspecifier, hresolve, hsame⟩
    rw [Graph.Imports, targets_importGraph hd hfile, List.mem_eraseDups, List.mem_filterMap]
    exact ⟨reached, List.mem_filterMap.mpr ⟨specifier, hspecifier, hresolve⟩,
      (Graph.placeOf?_eq_some hd).mpr ⟨target, htarget, hsame⟩⟩

end Distinct

/-- The graph of every survey that succeeds: its files are the sources in their order, and the
targets of a file are the sources that its specifiers lead to, in order of appearance and each
once; a file without text has none. An import leads from a source to a source, and without aliases
it stems from a relative specifier. -/
theorem graph_of_tree (hfs : fs.WellFormed) (h : ofTree fs settings = .ok survey) :
    ∃ files, Scan.sources fs settings survey.root = .ok files ∧
      survey.graph.files.toList = files ∧
      (∀ i file, files[i]? = some file →
        survey.graph.targets i =
          (((specifiersOf fs settings file).filterMap (resolve? fs settings file)).filterMap
            (placeOf? files)).eraseDups ∧
        (text? fs file = none → survey.graph.targets i = [])) ∧
      (∀ i j, survey.graph.Imports i j → ∃ origin target specifier reached,
        files[i]? = some origin ∧ files[j]? = some target ∧
        specifier ∈ specifiersOf fs settings origin ∧
        resolve? fs settings origin specifier = some reached ∧ target.same reached = true ∧
        (settings.aliases = [] → isRelativeSpecifier specifier = true)) := by
  obtain ⟨files, place, entries, excluded, hsources, hended, hgraph, -⟩ := exists_ended hfs h
  have hd := hended.distinct hfs
  rw [hgraph]
  refine ⟨files, hsources, (ofDistinct hd).files_eq, ?_, ?_⟩
  · intro i file hfile
    refine ⟨targets_importGraph hd hfile, fun htext => ?_⟩
    rw [targets_importGraph hd hfile, specifiersOf, htext]
    rfl
  · intro i j himports
    obtain ⟨origin, target, specifier, reached, hfile, htarget, hspecifier, hresolve, hsame⟩ :=
      (imports_importGraph_iff hd).mp himports
    exact ⟨origin, target, specifier, reached, hfile, htarget, hspecifier, hresolve, hsame,
      fun halias => isRelativeSpecifier_of_resolve? halias hresolve⟩

open Scan (mixedTree)

theorem specifiersOf_mixedTree : specifiersOf mixedTree .defaults (Path.ofString "/src/a.js") =
    ["./b", "./b.js", "react", "./none", "../lib"] :=
  (specifiersOf_eq rfl (by decide +kernel)).trans (by decide +kernel)

theorem mixedTree_targets : ∃ survey, ofTree mixedTree .defaults = .ok survey ∧
    survey.graph.files.toList = [Path.ofString "/src/a.js", Path.ofString "/src/b.js"] ∧
    survey.graph.targets 0 = [1] ∧ survey.graph.targets 1 = [] := by
  have hok : (ofTree mixedTree .defaults).isOk = true := by decide +kernel
  obtain ⟨survey, hsurvey, hroot⟩ := exists_survey hok Scan.root_mixedTree
  obtain ⟨files, hsources, hfiles, htargets, -⟩ := graph_of_tree Scan.wellFormed_mixedTree hsurvey
  rw [hroot, Scan.sources_mixedTree] at hsources
  obtain rfl := Except.ok.inj hsources
  refine ⟨survey, hsurvey, hfiles, ?_, ?_⟩
  · have haliases : aliases mixedTree .defaults = ⟨[]⟩ := by
      simp [aliases, Settings.defaults, AliasTable.ofList]
    rw [(htargets 0 _ rfl).1, specifiersOf_mixedTree]
    unfold resolve?
    rw [haliases]
    decide +kernel
  · exact (htargets 1 _ rfl).2 (by decide +kernel)

end ImportCycles.Survey
