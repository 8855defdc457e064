import ImportCycles.Proofs.Scan.Content
import ImportCycles.Proofs.Survey.Counts
/-!
What the content of one file can change of a survey: the imports of the sources that lead to it,
and nothing else.
-/
namespace ImportCycles.Survey

open Scan (HoldsRules mixedTree)

variable {fs fs' : FileSystem} {settings : Settings} {names : List Name} {files : List Path}
  {file base origin : Path} {specifier : String} {extensions : List String} {table : AliasTable}
  {content content' : List UInt8}

theorem candidate?_form {probe : Probe} :
    probe.candidate? fs.form base = probe.candidate? fs base := by
  cases probe <;> simp only [Probe.candidate?, FileSystem.isDirectory_form]

theorem hit?_form : Probe.hit? fs.form base = Probe.hit? fs base := by
  have hfile : fs.form.isFile = fs.isFile := funext fun _ => FileSystem.isFile_form
  funext probe
  rw [Probe.hit?, Probe.hit?, candidate?_form, hfile]

theorem ofBase_form :
    Resolution.ofBase fs.form extensions base = Resolution.ofBase fs extensions base := by
  rw [Resolution.ofBase, Resolution.ofBase, hit?_form]

/-- Where a specifier leads does not depend on what is in the files. -/
theorem ofSpecifier_form : Resolution.ofSpecifier fs.form extensions table origin specifier =
    Resolution.ofSpecifier fs extensions table origin specifier := by
  simp only [Resolution.ofSpecifier, ofBase_form]

theorem aliases_form : aliases fs.form settings = aliases fs settings := by
  simp only [aliases, FileSystem.canonical?_form]

theorem specifiers_nil {kinds : List ImportKind} :
    Reference.specifiers kinds (String.ofList []) = [] := by
  have hnone : (kinds.eraseDups.flatMap fun kind => Reference.ofKind kind []) = [] :=
    List.flatMap_eq_nil_iff.mpr fun _ _ => rfl
  rw [Reference.specifiers, Reference.all, String.toList_ofList, hnone, List.mergeSort_nil]
  rfl

theorem specifiersOf_eq_nil (hfs : fs.WellFormed) (hat : fs.top.at? names = some (.file content))
    (hfile : fs.LeadsTo file names) (hcontent : content = [] ∨ Text.Utf8.read? content = none) :
    specifiersOf fs settings file = [] := by
  obtain ⟨node, hlocate⟩ := hfile
  obtain rfl := Option.some.inj ((hfs.at?_of_locate hlocate).symm.trans hat)
  have htext : text? fs file = Text.Utf8.read? content := by
    simp [text?, FileSystem.read, hlocate, Except.toOption]
  rw [specifiersOf, htext]
  rcases hcontent with rfl | hnone
  · exact specifiers_nil
  · rw [hnone]

theorem getD_resolutions?_eq (hform : fs'.form = fs.form)
    (h : specifiersOf fs' settings file = specifiersOf fs settings file) :
    (resolutions? fs' settings (aliases fs' settings) file).getD [] =
      (resolutions? fs settings (aliases fs settings) file).getD [] := by
  have haliases : aliases fs' settings = aliases fs settings := by
    rw [← aliases_form, hform, aliases_form]
  rw [getD_resolutions?, getD_resolutions?, h, haliases]
  refine List.map_congr_left fun specifier _ => ?_
  rw [← ofSpecifier_form, hform, ofSpecifier_form]

theorem specifiersOf_eq_of_differsOnlyAt (hd : fs.DiffersOnlyAt fs' names) (hfs : fs.WellFormed)
    (hfile : ¬ fs.LeadsTo file names) :
    specifiersOf fs' settings file = specifiersOf fs settings file := by
  simp only [specifiersOf, text?, hd.read_eq hfs hfile]

theorem targetsOf_eq_of_specifiers (hform : fs'.form = fs.form)
    (h : specifiersOf fs' settings file = specifiersOf fs settings file) :
    targetsOf fs' settings file = targetsOf fs settings file := by
  rw [targetsOf, targetsOf, getD_resolutions?_eq hform h]

/-- Files that hold the same specifiers give the same survey, but for the count of those without
text. -/
theorem surveyOf_eq (root : Path) (hform : fs'.form = fs.form)
    (h : ∀ file ∈ files, specifiersOf fs' settings file = specifiersOf fs settings file) :
    (surveyOf fs' settings root files).graph = (surveyOf fs settings root files).graph ∧
      (surveyOf fs' settings root files).tally =
        { (surveyOf fs settings root files).tally with
          skipped := (surveyOf fs' settings root files).tally.skipped } := by
  have htargets : files.map (targetsOf fs' settings) = files.map (targetsOf fs settings) :=
    List.map_congr_left fun file hfile => targetsOf_eq_of_specifiers hform (h file hfile)
  have hall : resolutionsOf fs' settings files = resolutionsOf fs settings files :=
    List.flatMap_congr fun file hfile => getD_resolutions?_eq hform (h file hfile)
  simp only [surveyOf, importGraph, tallyOf, htargets, hall, and_self]

/-- A file's content matters to its own imports only. Of two trees that differ in the content of
one file, which holds no rules for the scan, both cannot be surveyed for the same reason, or both
have the same sources, and each source that does not lead to that file imports the same files in
the same order. That the file is empty in one tree and not UTF-8 in the other shows in the count of
skipped files alone. -/
theorem content_matters_to_own_imports (hfs : fs.WellFormed) (hd : fs.DiffersOnlyAt fs' names)
    (hrules : settings.followsIgnoreFiles = true →
      ∀ root, Scan.root fs settings.root = .ok root → ¬ HoldsRules fs root names) :
    (∃ failure, ofTree fs settings = .error failure ∧ ofTree fs' settings = .error failure) ∨
      ∃ survey survey' files, ofTree fs settings = .ok survey ∧ ofTree fs' settings = .ok survey' ∧
        survey'.root = survey.root ∧
        Scan.sources fs settings survey.root = .ok files ∧
        Scan.sources fs' settings survey.root = .ok files ∧
        survey.graph.files.toList = files ∧ survey'.graph.files.toList = files ∧
        (∀ i file, files[i]? = some file → ¬ fs.LeadsTo file names →
          survey'.graph.targets i = survey.graph.targets i) ∧
        (∀ content content', fs.top.at? names = some (.file content) →
          fs'.top.at? names = some (.file content') →
          Text.Utf8.read? content = none ∧ content' = [] ∨
            content = [] ∧ Text.Utf8.read? content' = none →
          survey'.graph = survey.graph ∧ survey'.cycles = survey.cycles ∧
            survey'.tally = { survey.tally with skipped := survey'.tally.skipped }) := by
  have hfs' := hfs.of_form hd.form_eq
  have hroot : Scan.root fs' settings.root = Scan.root fs settings.root := by
    rw [← Scan.root_form, hd.form_eq, Scan.root_form]
  rw [ofTree_eq, ofTree_eq, hroot]
  cases settings.check with
  | error failure => exact .inl ⟨failure, rfl, rfl⟩
  | ok checked =>
  cases hlocated : Scan.root fs settings.root with
  | error failure => exact .inl ⟨failure, rfl, rfl⟩
  | ok root =>
  have hsources := Scan.sources_eq_of_differsOnlyAt hd hfs hlocated
    fun hfollows => hrules hfollows root hlocated
  simp only [bind, Except.bind, hsources]
  cases hfiles : Scan.sources fs settings root with
  | error failure => exact .inl ⟨failure, rfl, rfl⟩
  | ok files =>
  obtain ⟨place, entries, excluded, hended⟩ := Scan.exists_ended hfs hlocated hfiles
  have hdistinct := hended.distinct hfs
  refine .inr ⟨_, _, files, rfl, rfl, rfl, hfiles, hsources.trans hfiles,
    (ofDistinct hdistinct).files_eq, (ofDistinct hdistinct).files_eq, ?_, ?_⟩
  · intro i file hfile hleads
    have hspecifiers : specifiersOf fs' settings file = specifiersOf fs settings file :=
      specifiersOf_eq_of_differsOnlyAt hd hfs hleads
    have htargets := targetsOf_eq_of_specifiers hd.form_eq hspecifiers
    simp only [surveyOf, importGraph, (ofDistinct hdistinct).targets_eq, List.getElem?_map, hfile,
      Option.map_some, htargets]
  · intro content content' hat hat' hcontents
    have hspecifiers : ∀ file ∈ files,
        specifiersOf fs' settings file = specifiersOf fs settings file := by
      intro file _
      by_cases hleads : fs.LeadsTo file names
      · rw [specifiersOf_eq_nil hfs hat hleads (by tauto),
          specifiersOf_eq_nil hfs' hat' (hleads.of_form hd.form_eq) (by tauto)]
      · exact specifiersOf_eq_of_differsOnlyAt hd hfs hleads
    obtain ⟨hgraph, htally⟩ := surveyOf_eq root hd.form_eq hspecifiers
    exact ⟨hgraph, congrArg Graph.cycles hgraph, htally⟩

/-- The names of the file in the mixed tree that is not UTF-8. -/
def binaryNames : List Name := [(Path.ofString "src").bytes, (Path.ofString "b.js").bytes]

theorem not_holdsRules_mixedTree : ¬ HoldsRules mixedTree (Path.ofString "/src") binaryNames := by
  rintro ⟨place, inner, entries, hplace, hat, name, hname, node, hlocate⟩
  have hnames := (Scan.wellFormed_mixedTree.tree.at? hat).1
  obtain rfl : [(Path.ofString "src").bytes] = place := by
    refine Path.pathOf_inj ?_ (areEntryNames_append.mp hnames).1 (by rw [← hplace]; rfl)
    exact areEntryNames_cons.mpr ⟨by decide, areEntryNames_nil⟩
  obtain rfl : inner = [] := by
    cases inner with
    | nil => rfl
    | cons n inner =>
      obtain ⟨next, hnext, hrest⟩ := Option.bind_eq_some_iff.mp hat
      obtain rfl := Option.some.inj hnext
      obtain ⟨found, hfound, hrest⟩ := Option.bind_eq_some_iff.mp hrest
      have hmem := Node.mem_of_lookup hfound
      simp only [List.mem_cons, Prod.mk.injEq, List.not_mem_nil, or_false] at hmem
      rcases hmem with ⟨-, rfl⟩ | ⟨-, rfl⟩ <;> simpa using (Node.eq_of_at?_file hrest).2
  have hnone : ∀ name ∈ Scan.ruleFiles,
      (mixedTree.locate ((FileSystem.pathOf [(Path.ofString "src").bytes]).join
        (Path.ofString name))).isOk = false := by
    decide +kernel
  have := hnone name hname
  rw [List.append_nil] at hlocate
  simp [hlocate, Except.isOk, Except.toBool] at this

/-- The defaults, but ignore files count. -/
def countingIgnoreFiles : Settings := { Settings.defaults with followsIgnoreFiles := true }

theorem mixedTree_content : ∃ survey survey' : Survey,
    ofTree mixedTree countingIgnoreFiles = .ok survey ∧
    ofTree (mixedTree.withContent binaryNames []) countingIgnoreFiles = .ok survey' ∧
    survey'.root = survey.root ∧ survey'.graph = survey.graph ∧ survey'.cycles = survey.cycles ∧
    survey'.tally = { survey.tally with skipped := survey'.tally.skipped } := by
  have hok : (ofTree mixedTree countingIgnoreFiles).isOk = true := by decide +kernel
  have hbinary : mixedTree.top.at? binaryNames = some (.file [0xFF]) := rfl
  have hrules : countingIgnoreFiles.followsIgnoreFiles = true →
      ∀ root, Scan.root mixedTree countingIgnoreFiles.root = .ok root →
        ¬ HoldsRules mixedTree root binaryNames := by
    intro _ root hroot
    obtain rfl := Except.ok.inj (Scan.root_mixedTree.symm.trans hroot)
    exact not_holdsRules_mixedTree
  rcases content_matters_to_own_imports Scan.wellFormed_mixedTree
      (FileSystem.differsOnlyAt_withContent hbinary) hrules with
    ⟨failure, hfailure, -⟩ | ⟨survey, survey', files, h, h', hroot, -, -, -, -, -, hsame⟩
  · rw [hfailure] at hok
    cases hok
  · exact ⟨survey, survey', h, h', hroot, hsame [0xFF] [] hbinary rfl (.inl ⟨by decide, rfl⟩)⟩

end ImportCycles.Survey
