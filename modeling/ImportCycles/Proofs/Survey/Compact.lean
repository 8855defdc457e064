import ImportCycles.Proofs.Report.Compact
import ImportCycles.Proofs.Report.Naming
import ImportCycles.Proofs.Survey.Links
/-!
The report for readers on a survey. Names without line breaks and arrows are read back from it, so
it tells surveys with different cycles apart. Nothing keeps other names out of the cycles of a
survey, and these cannot be read back.
-/
namespace ImportCycles

open Report (Naming)
open Text (lines pieces)

namespace Survey

/-- How the files of a survey are named in its reports. -/
def naming (survey : Survey) (settings : Settings) : Naming := ⟨survey.root, settings.root⟩

variable {fs fs' : FileSystem} {settings settings' : Settings} {survey survey' : Survey}
  {files : List Path} {c : Cycle} {f : Path}

/-- What a survey reports is closed and has two entries at least. -/
theorem isElementary_of_mem (h : ofTree fs settings = .ok survey) (hc : c ∈ survey.cycles) :
    c.IsElementary survey.graph := by
  obtain ⟨files, -, -, hgraph, hcycles⟩ := exists_files h
  have hg : survey.graph.WellFormed := by
    rw [hgraph]
    exact (built_importGraph files).wellFormed
  rw [hcycles] at hc
  exact Graph.isElementary_of_mem_cycles hg hc

theorem files_ne_nil (h : ofTree fs settings = .ok survey) (hc : c ∈ survey.cycles) :
    c.files ≠ [] := by
  have htwo := (isElementary_of_mem h hc).two_le
  exact List.ne_nil_of_length_pos (by omega)

/-- What a survey reports are files of its scan. -/
theorem exists_ended_of_cycles (hfs : fs.WellFormed) (h : ofTree fs settings = .ok survey) :
    ∃ files place entries excluded,
      Scan.Ended fs settings survey.root files place entries excluded ∧
      ∀ c ∈ survey.cycles, ∀ f ∈ c.files, f ∈ files := by
  obtain ⟨files, place, entries, excluded, -, hended, hgraph, hcycles⟩ := exists_ended hfs h
  refine ⟨files, place, entries, excluded, hended, ?_⟩
  intro c hc f hf
  have hmem := Graph.mem_files_of_mem_cycles (built_importGraph files).wellFormed
    (by rwa [hcycles, hgraph] at hc) hf
  rwa [importGraph, (ofDistinct (hended.distinct hfs)).files_eq] at hmem

/-- With one root and one spelling of it, cycles of different surveys are named alike only if they
are the same. -/
theorem cycles_eq_of_namesOn_eq (hfs : fs.WellFormed) (hfs' : fs'.WellFormed)
    (h : ofTree fs settings = .ok survey) (h' : ofTree fs' settings' = .ok survey')
    (hroot : survey.root = survey'.root) (hwritten : settings.root = settings'.root)
    (htext : settings.root.IsText) (htexts : ∀ c ∈ survey.cycles, ∀ f ∈ c.files, f.IsText)
    (htexts' : ∀ c ∈ survey'.cycles, ∀ f ∈ c.files, f.IsText)
    (hnames : survey.cycles.map (Report.namesOn (naming survey settings)) =
      survey'.cycles.map (Report.namesOn (naming survey' settings'))) :
    survey.cycles = survey'.cycles := by
  obtain ⟨files, place, entries, excluded, hended, hmem⟩ := exists_ended_of_cycles hfs h
  obtain ⟨files', place', entries', excluded', hended', hmem'⟩ := exists_ended_of_cycles hfs' h'
  have hnaming : naming survey' settings' = naming survey settings := by
    rw [naming, naming, hroot, hwritten]
  rw [hnaming] at hnames
  rw [← hroot] at hended'
  refine Lists.eq_of_map_eq ?_ hnames
  intro c hc c' hc' hfiles
  refine congrArg Cycle.mk (Lists.eq_of_map_eq ?_ hfiles)
  intro f hf f' hf' hname
  exact Naming.eq_of_name_eq hfs hfs' hended hended' (hmem c hc f hf) (hmem' c' hc' f' hf') htext
    (htexts c hc f hf) (htexts' c' hc' f' hf') hname

/-- The report on a survey has a line for each cycle after the first line, and the names of a cycle
are read back from its line just when they are plain. Surveys with plain names only that are
reported alike have the same names on their cycles, and the same cycles, if the root and its
spelling are the same. -/
theorem compact_reads_back (hfs : fs.WellFormed) (h : ofTree fs settings = .ok survey)
    (hne : survey.cycles ≠ [])
    (hline : Report.StayInLine (naming survey settings) survey.cycles) :
    (∃ rows, lines (Report.compact (naming survey settings) survey.cycles) =
        Report.heading survey.cycles.length :: rows ++ [""] ∧
      rows.length = survey.cycles.length ∧
      ∀ (i : Nat) c row, survey.cycles[i]? = some c → rows[i]? = some row →
        (pieces row = Report.namesOn (naming survey settings) c ↔
          ∀ name ∈ Report.namesOn (naming survey settings) c, Text.IsPlain name)) ∧
    (Report.ArePlain (naming survey settings) survey.cycles →
      ∀ (fs' : FileSystem) (settings' : Settings) (survey' : Survey), fs'.WellFormed →
        ofTree fs' settings' = .ok survey' →
        Report.StayInLine (naming survey' settings') survey'.cycles →
        Report.ArePlain (naming survey' settings') survey'.cycles →
        Report.compact (naming survey settings) survey.cycles =
          Report.compact (naming survey' settings') survey'.cycles →
        survey.cycles.map (Report.namesOn (naming survey settings)) =
            survey'.cycles.map (Report.namesOn (naming survey' settings')) ∧
          (survey.root = survey'.root → settings.root = settings'.root → settings.root.IsText →
            (∀ c ∈ survey.cycles, ∀ f ∈ c.files, f.IsText) →
            (∀ c ∈ survey'.cycles, ∀ f ∈ c.files, f.IsText) →
            survey.cycles = survey'.cycles)) := by
  constructor
  · refine ⟨_, Report.lines_compact hne hline, List.length_map _, ?_⟩
    intro i c row hc hrow
    have helementary := isElementary_of_mem h (List.mem_of_getElem? hc)
    rw [List.getElem?_map, hc, Option.map_some] at hrow
    obtain rfl := Option.some.inj hrow
    refine Text.pieces_intercalate_iff ?_ ?_
    · simpa [Report.namesOn] using helementary.two_le
    · simp [Report.namesOn, helementary.closed]
  · intro hplain fs' settings' survey' hfs' h' hline' hplain' hreport
    have hnames := Report.namesOn_eq_of_compact_eq (fun c hc => files_ne_nil h hc)
      (fun c hc => files_ne_nil h' hc) hline hline' hplain hplain' hreport
    refine ⟨hnames, ?_⟩
    intro hroot hwritten htext htexts htexts'
    exact cycles_eq_of_namesOn_eq hfs hfs' h h' hroot hwritten htext htexts htexts' hnames

/-- The import of a file with one statement, when the text of the file is known. -/
theorem targetsOf_eq_singleton {text : List Char} {target : Path} (specifier : String)
    (htext : text? fs f = some text)
    (hsorted : (settings.kinds.eraseDups.flatMap fun kind => Reference.ofKind kind text).Pairwise
      fun r s => r.offset ≤ s.offset)
    (hspecifier : (Reference.distinctOffsets
      (settings.kinds.eraseDups.flatMap fun kind => Reference.ofKind kind text)).map
        Reference.specifier = [specifier])
    (htarget : resolve? fs settings f specifier = some target) :
    targetsOf fs settings f = [target] := by
  rw [targetsOf_eq, specifiersOf_eq htext hsorted, hspecifier, List.filterMap_cons_some htarget,
    List.filterMap_nil]

/-- A scan below this root that finds these files, and where each of them leads. -/
structure IsWorkedOut (fs : FileSystem) (settings : Settings) (root : Path) (files : List Path)
    (targets : List (List Path)) : Prop where
  usable : settings.check = .ok ()
  rooted : Scan.root fs settings.root = .ok root
  scanned : Scan.sources fs settings root = .ok files
  imported : files.map (targetsOf fs settings) = targets

/-- The cycles of a survey are those of the graph that is worked out. -/
theorem IsWorkedOut.exists_survey {root : Path} {targets : List (List Path)}
    (hwork : IsWorkedOut fs settings root files targets) :
    ∃ survey, ofTree fs settings = .ok survey ∧ survey.root = root ∧
      survey.cycles = (Graph.ofImports files targets).1.cycles := by
  have hok : (ofTree fs settings).isOk = true := by
    simp only [ofTree, hwork.usable, hwork.rooted, hwork.scanned, bind, Except.bind]
    rfl
  obtain ⟨survey, hsurvey, rfl⟩ := Survey.exists_survey hok hwork.rooted
  exact ⟨survey, hsurvey, rfl, cycles_eq hsurvey hwork.scanned hwork.imported⟩

theorem besideTree_cycles : ∃ survey, ofTree besideTree .defaults = .ok survey ∧
    survey.root = Path.ofString "/src" ∧
    survey.cycles = [⟨["/src/a.js", "/src/link.js", "/src/a.js"].map Path.ofString⟩] := by
  have ha : targetsOf besideTree .defaults (Path.ofString "/src/a.js") =
      [Path.ofString "/src/link.js"] :=
    targetsOf_eq_singleton "./link" rfl (by decide +kernel) (by decide +kernel) (by decide +kernel)
  have hlink : targetsOf besideTree .defaults (Path.ofString "/src/link.js") =
      [Path.ofString "/src/a.js"] :=
    targetsOf_eq_singleton "./a.js" rfl (by decide +kernel) (by decide +kernel) (by decide +kernel)
  have hreal : targetsOf besideTree .defaults (Path.ofString "/src/real.js") =
      [Path.ofString "/src/a.js"] :=
    targetsOf_eq_singleton "./a.js" rfl (by decide +kernel) (by decide +kernel) (by decide +kernel)
  have hwork : IsWorkedOut besideTree .defaults (Path.ofString "/src")
      (["/src/a.js", "/src/link.js", "/src/real.js"].map Path.ofString)
      (["/src/link.js", "/src/a.js", "/src/a.js"].map fun text => [Path.ofString text]) :=
    { usable := rfl
      rooted := rfl
      scanned := Scan.sources_eq rfl rfl (by decide +kernel) (by decide +kernel)
      imported := by simp only [List.map_cons, List.map_nil, ha, hlink, hreal] }
  obtain ⟨survey, hsurvey, hroot, hcycles⟩ := hwork.exists_survey
  refine ⟨survey, hsurvey, hroot, ?_⟩
  rw [hcycles]
  cbv

theorem besideTree_read_back : ∃ survey, ofTree besideTree .defaults = .ok survey ∧
    survey.cycles = [⟨["/src/a.js", "/src/link.js", "/src/a.js"].map Path.ofString⟩] ∧
    (∃ row, lines (Report.compact (naming survey .defaults) survey.cycles) =
        ["Found 1 circular dependencies:", row, ""] ∧
      pieces row = ["src/a.js", "src/link.js", "src/a.js"]) ∧
    ∀ survey' : Survey, ofTree besideTree .defaults = .ok survey' →
      Report.StayInLine (naming survey' .defaults) survey'.cycles →
      Report.ArePlain (naming survey' .defaults) survey'.cycles →
      Report.compact (naming survey .defaults) survey.cycles =
        Report.compact (naming survey' .defaults) survey'.cycles →
      survey.cycles.map (Report.namesOn (naming survey .defaults)) =
        survey'.cycles.map (Report.namesOn (naming survey' .defaults)) := by
  obtain ⟨survey, hsurvey, hroot, hcycles⟩ := besideTree_cycles
  have hline : Report.StayInLine (naming survey .defaults) survey.cycles := by
    rw [naming, hroot, hcycles]
    decide +kernel
  have hplain : Report.ArePlain (naming survey .defaults) survey.cycles := by
    rw [naming, hroot, hcycles]
    decide +kernel
  obtain ⟨⟨rows, hlines, hlength, hrows⟩, hdistinct⟩ :=
    compact_reads_back wellFormed_besideTree hsurvey (by simp [hcycles]) hline
  refine ⟨survey, hsurvey, hcycles, ?_, ?_⟩
  · obtain ⟨row, rfl⟩ := List.length_eq_one_iff.mp (hlength.trans (by simp [hcycles]))
    refine ⟨row, hlines.trans ?_, ?_⟩
    · rw [hcycles]
      rfl
    · have hpieces := (hrows 0 _ row (by rw [hcycles]; rfl) rfl).mpr
        (hplain _ (by rw [hcycles]; exact List.mem_singleton_self _))
      rw [hpieces, naming, hroot]
      decide +kernel
  · intro survey' hsurvey' hline' hplain' hreport
    exact (hdistinct hplain besideTree .defaults survey' wellFormed_besideTree hsurvey' hline'
      hplain' hreport).1

/-- A file that imports itself, in a directory with a line break in its name. -/
def brokenTree : FileSystem where
  root := [((Path.ofString "src").bytes, .directory
    [((Path.ofString "d\nd").bytes, .directory
      [((Path.ofString "b.js").bytes, .file (Path.ofString "import './b'").bytes)])])]
  workingDirectory := []

theorem brokenTree_cycles : ∃ survey, ofTree brokenTree .defaults = .ok survey ∧
    survey.root = Path.ofString "/src" ∧
    survey.cycles = [⟨["/src/d\nd/b.js", "/src/d\nd/b.js"].map Path.ofString⟩] := by
  have hb : targetsOf brokenTree .defaults (Path.ofString "/src/d\nd/b.js") =
      [Path.ofString "/src/d\nd/b.js"] :=
    targetsOf_eq_singleton "./b" rfl (by decide +kernel) (by decide +kernel) (by decide +kernel)
  have hwork : IsWorkedOut brokenTree .defaults (Path.ofString "/src")
      [Path.ofString "/src/d\nd/b.js"]
      [[Path.ofString "/src/d\nd/b.js"]] :=
    { usable := rfl
      rooted := rfl
      scanned := Scan.sources_eq rfl rfl (by decide +kernel) (by decide +kernel)
      imported := by simp only [List.map_cons, List.map_nil, hb] }
  obtain ⟨survey, hsurvey, hroot, hcycles⟩ := hwork.exists_survey
  refine ⟨survey, hsurvey, hroot, ?_⟩
  rw [hcycles]
  cbv

/-- Two files that import each other; the path of one reads like three files of a cycle. -/
def longNameTree : FileSystem where
  root := [((Path.ofString "src").bytes, .directory
    [((Path.ofString "a.js").bytes,
       .file (Path.ofString "import './b.js -> src/a.js -> src/b'").bytes),
     ((Path.ofString "b.js -> src").bytes, .directory
       [((Path.ofString "a.js -> src").bytes, .directory
          [((Path.ofString "b.js").bytes, .file (Path.ofString "import '../../a'").bytes)])])])]
  workingDirectory := []

theorem longNameTree_cycles : ∃ survey, ofTree longNameTree .defaults = .ok survey ∧
    survey.root = Path.ofString "/src" ∧
    survey.cycles = [⟨["/src/a.js", "/src/b.js -> src/a.js -> src/b.js", "/src/a.js"].map
      Path.ofString⟩] := by
  have ha : targetsOf longNameTree .defaults (Path.ofString "/src/a.js") =
      [Path.ofString "/src/b.js -> src/a.js -> src/b.js"] :=
    targetsOf_eq_singleton "./b.js -> src/a.js -> src/b" rfl (by decide +kernel) (by decide +kernel)
      (by decide +kernel)
  have hb : targetsOf longNameTree .defaults (Path.ofString "/src/b.js -> src/a.js -> src/b.js") =
      [Path.ofString "/src/a.js"] :=
    targetsOf_eq_singleton "../../a" rfl (by decide +kernel) (by decide +kernel) (by decide +kernel)
  have hwork : IsWorkedOut longNameTree .defaults (Path.ofString "/src")
      (["/src/a.js", "/src/b.js -> src/a.js -> src/b.js"].map Path.ofString)
      (["/src/b.js -> src/a.js -> src/b.js", "/src/a.js"].map fun text => [Path.ofString text]) :=
    { usable := rfl
      rooted := rfl
      scanned := Scan.sources_eq rfl rfl (by decide +kernel) (by decide +kernel)
      imported := by simp only [List.map_cons, List.map_nil, ha, hb] }
  obtain ⟨survey, hsurvey, hroot, hcycles⟩ := hwork.exists_survey
  refine ⟨survey, hsurvey, hroot, ?_⟩
  rw [hcycles]
  cbv

/-- Three files of which each imports the next; the path of one reads like two files of a cycle. -/
def threeFilesTree : FileSystem where
  root := [((Path.ofString "src").bytes, .directory
    [((Path.ofString "a.js").bytes, .file (Path.ofString "import './b.js -> src/a'").bytes),
     ((Path.ofString "b.js").bytes, .file (Path.ofString "import './a'").bytes),
     ((Path.ofString "b.js -> src").bytes, .directory
       [((Path.ofString "a.js").bytes, .file (Path.ofString "import '../b'").bytes)])])]
  workingDirectory := []

theorem threeFilesTree_cycles : ∃ survey, ofTree threeFilesTree .defaults = .ok survey ∧
    survey.root = Path.ofString "/src" ∧
    survey.cycles = [⟨["/src/a.js", "/src/b.js -> src/a.js", "/src/b.js", "/src/a.js"].map
      Path.ofString⟩] := by
  have ha : targetsOf threeFilesTree .defaults (Path.ofString "/src/a.js") =
      [Path.ofString "/src/b.js -> src/a.js"] :=
    targetsOf_eq_singleton "./b.js -> src/a" rfl (by decide +kernel) (by decide +kernel)
      (by decide +kernel)
  have hb : targetsOf threeFilesTree .defaults (Path.ofString "/src/b.js") =
      [Path.ofString "/src/a.js"] :=
    targetsOf_eq_singleton "./a" rfl (by decide +kernel) (by decide +kernel) (by decide +kernel)
  have hlong : targetsOf threeFilesTree .defaults (Path.ofString "/src/b.js -> src/a.js") =
      [Path.ofString "/src/b.js"] :=
    targetsOf_eq_singleton "../b" rfl (by decide +kernel) (by decide +kernel) (by decide +kernel)
  have hwork : IsWorkedOut threeFilesTree .defaults (Path.ofString "/src")
      (["/src/a.js", "/src/b.js", "/src/b.js -> src/a.js"].map Path.ofString)
      (["/src/b.js -> src/a.js", "/src/a.js", "/src/b.js"].map fun text => [Path.ofString text]) :=
    { usable := rfl
      rooted := rfl
      scanned := Scan.sources_eq rfl rfl (by decide +kernel) (by decide +kernel)
      imported := by simp only [List.map_cons, List.map_nil, ha, hb, hlong] }
  obtain ⟨survey, hsurvey, hroot, hcycles⟩ := hwork.exists_survey
  refine ⟨survey, hsurvey, hroot, ?_⟩
  rw [hcycles]
  cbv

/-- Any name can come into a cycle. With a line break in it a cycle stands in several lines, and
with arrows different cycles have one report. -/
theorem names_mislead : (∃ survey, brokenTree.WellFormed ∧
      ofTree brokenTree .defaults = .ok survey ∧ survey.cycles.length = 1 ∧
      lines (Report.compact (naming survey .defaults) survey.cycles) =
        ["Found 1 circular dependencies:", "src/d", "d/b.js -> src/d", "d/b.js", ""]) ∧
    ∃ survey survey', longNameTree.WellFormed ∧ threeFilesTree.WellFormed ∧
      ofTree longNameTree .defaults = .ok survey ∧ ofTree threeFilesTree .defaults = .ok survey' ∧
      survey.root = survey'.root ∧
      survey.cycles.map (Report.namesOn (naming survey .defaults)) =
        [["src/a.js", "src/b.js -> src/a.js -> src/b.js", "src/a.js"]] ∧
      survey'.cycles.map (Report.namesOn (naming survey' .defaults)) =
        [["src/a.js", "src/b.js -> src/a.js", "src/b.js", "src/a.js"]] ∧
      lines (Report.compact (naming survey .defaults) survey.cycles) =
        ["Found 1 circular dependencies:",
          "src/a.js -> src/b.js -> src/a.js -> src/b.js -> src/a.js", ""] ∧
      pieces "src/a.js -> src/b.js -> src/a.js -> src/b.js -> src/a.js" =
        ["src/a.js", "src/b.js", "src/a.js", "src/b.js", "src/a.js"] ∧
      Report.compact (naming survey .defaults) survey.cycles =
        Report.compact (naming survey' .defaults) survey'.cycles := by
  constructor
  · obtain ⟨survey, hsurvey, hroot, hcycles⟩ := brokenTree_cycles
    refine ⟨survey, ⟨by decide +kernel, _, rfl⟩, hsurvey, ?_, ?_⟩
    · rw [hcycles]
      rfl
    · rw [naming, hroot, hcycles]
      decide +kernel
  · obtain ⟨survey, hsurvey, hroot, hcycles⟩ := longNameTree_cycles
    obtain ⟨survey', hsurvey', hroot', hcycles'⟩ := threeFilesTree_cycles
    refine ⟨survey, survey', ⟨by decide +kernel, _, rfl⟩, ⟨by decide +kernel, _, rfl⟩, hsurvey,
      hsurvey', hroot.trans hroot'.symm, ?_⟩
    rw [naming, naming, hroot, hroot', hcycles, hcycles']
    decide +kernel

end Survey

end ImportCycles
