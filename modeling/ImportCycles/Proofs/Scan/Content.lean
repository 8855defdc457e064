import ImportCycles.Proofs.FileSystem.Form
import ImportCycles.Proofs.Scan.Sources
/-!
What a scan reads of the content of files: the rules in the ignore files of the directories at and
below its root, and nothing else.
-/
namespace ImportCycles.Scan

open FileSystem (pathOf)

variable {s : Search} {fs fs' : FileSystem} {settings : Settings} {place names trail : List Name}
  {n : Name} {node : Node} {entries : List (Name × Node)} {levels : List Ignore.Level}
  {p root directory : Path}

theorem root_form : Scan.root fs.form p = Scan.root fs p := by
  simp only [Scan.root, FileSystem.exists?_form, FileSystem.isDirectory_form,
    FileSystem.canonical?_form]

mutual

theorem sourcesOf_form : ∀ (node : Node) (directory : Path) (levels : List Ignore.Level)
    (trail : List Name) (n : Name),
    sourcesOf s directory levels trail n node.form = sourcesOf s directory levels trail n node
  | .file _, _, _, _, _ => by rw [Node.form, sourcesOf, sourcesOf]
  | .link _, _, _, _, _ => rfl
  | .directory entries, _, _, _, _ => by
    rw [Node.form, sourcesOf, sourcesOf]
    simp only [sourcesIn_forms entries]

/-- What is in the files of a directory does not matter to the sources in it. -/
theorem sourcesIn_forms : ∀ (entries : List (Name × Node)) (directory : Path)
    (levels : List Ignore.Level) (trail : List Name),
    sourcesIn s directory levels trail (Node.forms entries) =
      sourcesIn s directory levels trail entries
  | [], _, _, _ => rfl
  | (n, node) :: entries, directory, levels, trail => by
    rw [Node.forms, sourcesIn, sourcesIn, sourcesOf_form node, sourcesIn_forms entries]

end

/-- The sources are the same in another file system where paths lead to files and directories alike
and the directories below have the same rules. -/
theorem sourcesIn_congr (hfile : ∀ p, fs'.isFile p = s.fs.isFile p)
    (hdirectory : ∀ p, fs'.isDirectory p = s.fs.isDirectory p) (hw : node.WellFormed)
    (hnode : node = .directory entries) (hplace : AreEntryNames place)
    (hlevels : ∀ names inner levels, node.at? names = some (.directory inner) →
      levelsIn { s with fs := fs' } (pathOf (place ++ names)) levels =
        levelsIn s (pathOf (place ++ names)) levels) :
    sourcesIn { s with fs := fs' } (pathOf place) levels trail entries =
      sourcesIn s (pathOf place) levels trail entries := by
  induction hw generalizing entries place levels trail with
  | file content => simp at hnode
  | link target => simp at hnode
  | @directory around distinct named inner ih =>
    obtain rfl := Node.directory.inj hnode
    rw [sourcesIn_eq_flatMap, sourcesIn_eq_flatMap]
    refine List.flatMap_congr fun ⟨n, node⟩ hmem => ?_
    have hn := named _ hmem
    have hentry : (Node.directory around).child? n = some node := Node.lookup_of_mem distinct hmem
    have hchild : (pathOf place).child n = pathOf (place ++ [n]) := Path.child_pathOf hplace hn
    cases node with
    | file content => simp only [sourcesOf]
    | link target => simp only [sourcesOf, hfile]
    | directory entries =>
      have hinner : ∀ names found levels,
          (Node.directory entries).at? names = some (.directory found) →
          levelsIn { s with fs := fs' } (pathOf (place ++ [n] ++ names)) levels =
            levelsIn s (pathOf (place ++ [n] ++ names)) levels := by
        intro names found levels hfound
        rw [List.append_assoc]
        exact hlevels (n :: names) found levels (by rw [Node.at?_cons, hentry]; exact hfound)
      have hhere := hlevels [n] entries levels (by rw [Node.at?_cons, hentry]; rfl)
      simp only [sourcesOf, hchild, hhere, hdirectory]
      rw [ih _ hmem rfl (areEntryNames_concat.mpr ⟨hplace, hn⟩) hinner]

/-- The names of the files that hold the rules of a directory. -/
def ruleFiles : List String := [".ignore", ".gitignore", ".git/info/exclude"]

/-- The names lead to what is an ignore file, perhaps by links, of a directory at or below the
root. -/
def HoldsRules (fs : FileSystem) (root : Path) (names : List Name) : Prop :=
  ∃ place inner entries, root = pathOf place ∧
    fs.top.at? (place ++ inner) = some (.directory entries) ∧
    ∃ name ∈ ruleFiles, fs.LeadsTo ((pathOf (place ++ inner)).join (Path.ofString name)) names

theorem ofDirectory_eq (hd : fs.DiffersOnlyAt fs' names) (hfs : fs.WellFormed)
    (h : ∀ name ∈ ruleFiles, ¬ fs.LeadsTo (directory.join (Path.ofString name)) names) :
    Ignore.Level.ofDirectory fs' directory = Ignore.Level.ofDirectory fs directory := by
  simp only [ruleFiles, List.forall_mem_cons, List.not_mem_nil, false_implies, implies_true,
    and_true] at h
  simp only [Ignore.Level.ofDirectory, Ignore.Rules.ofFile, hd.read_eq hfs h.1,
    hd.read_eq hfs h.2.1, hd.read_eq hfs h.2.2]

/-- A file that holds no rules for a scan does not matter to the sources that it finds. -/
theorem sources_eq_of_differsOnlyAt (hd : fs.DiffersOnlyAt fs' names) (hfs : fs.WellFormed)
    (hroot : Scan.root fs settings.root = .ok root)
    (hrules : settings.followsIgnoreFiles = true → ¬ HoldsRules fs root names) :
    sources fs' settings root = sources fs settings root := by
  obtain ⟨place, entries, rfl, hat⟩ := exists_place hfs hroot
  have hplace := hfs.tree.at? hat
  unfold sources
  cases patterns settings.excluded with
  | error failure => rfl
  | ok excluded =>
    have hlevels : ∀ names inner levels,
        (Node.directory entries).at? names = some (.directory inner) →
        levelsIn (searchOf fs' settings excluded) (pathOf (place ++ names)) levels =
          levelsIn (searchOf fs settings excluded) (pathOf (place ++ names)) levels := by
      intro inside inner levels hinner
      by_cases hfollows : settings.followsIgnoreFiles = true
      · simp only [levelsIn, searchOf, hfollows]
        rw [ofDirectory_eq hd hfs fun name hname hleads => hrules hfollows ?_]
        refine ⟨place, inside, inner, rfl, ?_, name, hname, hleads⟩
        rw [Node.at?_append, hat]
        exact hinner
      · simp [levelsIn, searchOf, hfollows]
    rcases FileSystem.locate_cases_of_form (p := pathOf place) hd.form_eq with
      ⟨fault, hlocate, hlocate'⟩ | ⟨found, node, node', hlocate, hlocate', hform⟩
    · simp only [hlocate, hlocate']
    · obtain ⟨rfl, rfl⟩ := Prod.mk.inj (FileSystem.locate_directory hplace.1 hat hlocate)
      obtain ⟨entries', rfl, hforms⟩ := Node.exists_directory_of_form hform
      have hfile : ∀ p, fs'.isFile p = fs.isFile p := fun p => by
        rw [← FileSystem.isFile_form, hd.form_eq, FileSystem.isFile_form]
      have hdirectory : ∀ p, fs'.isDirectory p = fs.isDirectory p := fun p => by
        rw [← FileSystem.isDirectory_form, hd.form_eq, FileSystem.isDirectory_form]
      have hhere := hlevels [] entries [] rfl
      rw [List.append_nil] at hhere
      have hsame : sourcesIn (searchOf fs' settings excluded) (pathOf found)
          (levelsIn (searchOf fs settings excluded) (pathOf found) []) [] entries =
          sourcesIn (searchOf fs settings excluded) (pathOf found)
            (levelsIn (searchOf fs settings excluded) (pathOf found) []) [] entries :=
        sourcesIn_congr (s := searchOf fs settings excluded) hfile hdirectory hplace.2 rfl hplace.1
          hlevels
      simp only [searchOf] at hhere hsame
      simp only [hlocate, hlocate']
      rw [hhere, ← sourcesIn_forms entries', hforms, sourcesIn_forms, hsame]

end ImportCycles.Scan
