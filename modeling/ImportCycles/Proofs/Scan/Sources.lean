import ImportCycles.Scan
import ImportCycles.Proofs.FileSystem.Tree
/-!
What a scan finds: a source is a file, or a link to one, whose name is recognized and to which
directories lead that can be opened and whose names are not excluded. Those are found that no ignore
file leaves out, and none of them twice.
-/
namespace ImportCycles.Scan

open FileSystem (pathOf)

/-- The names lead from a node at `place` to a source, and on the way through directories that are
entered. -/
structure IsSource (s : Search) (place : List Name) (node : Node) (names : List Name) : Prop where
  ne_nil : names ≠ []
  entered : ∀ before n after, names = before ++ n :: after → after ≠ [] →
    isExcluded s.excluded n = false ∧
      s.fs.isDirectory (pathOf (place ++ (before ++ [n]))) = true ∧
      ∃ entries, node.at? (before ++ [n]) = some (.directory entries)
  recognized : ∀ n ∈ names.getLast?, Probe.recognizes s.extensions n = true
  candidate : (∃ content, node.at? names = some (.file content)) ∨
    (∃ target, node.at? names = some (.link target)) ∧ s.fs.isFile (pathOf (place ++ names)) = true

/-- The ignore files around the entries of the directory to which the names lead from `directory`,
where `levels` are around its own entries. -/
def levelsAlong (s : Search) : Path → List Ignore.Level → List Name → List Ignore.Level
  | _, levels, [] => levels
  | directory, levels, n :: names =>
    levelsAlong s (directory.child n) (levelsIn s (directory.child n) levels) names

/-- The ignore files leave out nothing on the way that the names lead from `directory`. -/
def IsSpared (s : Search) (directory : Path) (levels : List Ignore.Level)
    (trail names : List Name) : Prop :=
  ∀ before n after, names = before ++ n :: after →
    Ignore.leavesOut (levelsAlong s directory levels before) (before.reverse ++ trail) n
      (!after.isEmpty) = false

variable {s : Search} {fs : FileSystem} {settings : Settings} {place names trail : List Name}
  {n : Name} {node : Node} {entries : List (Name × Node)} {levels : List Ignore.Level}
  {directory p root f : Path} {files : List Path} {excluded : List NamePattern}

theorem isSource_singleton : IsSource s place node [n] ↔ Probe.recognizes s.extensions n = true ∧
    ((∃ content, node.child? n = some (.file content)) ∨
      (∃ target, node.child? n = some (.link target)) ∧
        s.fs.isFile (pathOf (place ++ [n])) = true) := by
  have hat : node.at? [n] = node.child? n := by simp
  constructor
  · intro h
    exact ⟨h.recognized n (by simp), hat ▸ h.candidate⟩
  · rintro ⟨hr, hc⟩
    refine ⟨by simp, ?_, by simpa using hr, hat.symm ▸ hc⟩
    intro before m after he hafter
    have := congrArg List.length he
    simp only [List.length_cons, List.length_nil, List.length_append] at this
    exact absurd (List.eq_nil_of_length_eq_zero (by omega)) hafter

theorem isSource_cons (hne : names ≠ []) : IsSource s place node (n :: names) ↔
    isExcluded s.excluded n = false ∧ s.fs.isDirectory (pathOf (place ++ [n])) = true ∧
      ∃ entries, node.child? n = some (.directory entries) ∧
        IsSource s (place ++ [n]) (.directory entries) names := by
  constructor
  · intro h
    obtain ⟨hx, hopens, entries, hentries⟩ := h.entered [] n names rfl hne
    have hentry : node.child? n = some (.directory entries) := by simpa using hentries
    have hat : ∀ names, node.at? (n :: names) = (Node.directory entries).at? names := by
      simp [hentry]
    refine ⟨hx, hopens, entries, hentry, hne, ?_, ?_, ?_⟩
    · intro before m after he hafter
      obtain ⟨hm, hinside, inner, hinner⟩ :=
        h.entered (n :: before) m after (by rw [he]; rfl) hafter
      exact ⟨hm, by simpa using hinside, inner, hat _ ▸ hinner⟩
    · intro m hm
      exact h.recognized m (by rwa [List.getLast?_cons_of_ne_nil hne])
    · simpa only [hat, List.append_assoc, List.singleton_append] using h.candidate
  · rintro ⟨hx, hopens, entries, hentry, h⟩
    have hat : ∀ names, node.at? (n :: names) = (Node.directory entries).at? names := by
      simp [hentry]
    refine ⟨by simp, ?_, ?_, ?_⟩
    · intro before m after he hafter
      cases before with
      | nil =>
        obtain ⟨rfl, -⟩ := List.cons.inj he
        exact ⟨hx, hopens, entries, by rw [List.nil_append, hat]; rfl⟩
      | cons first before =>
        obtain ⟨rfl, hrest⟩ := List.cons.inj he
        obtain ⟨hm, hinside, inner, hinner⟩ := h.entered before m after hrest hafter
        exact ⟨hm, by simpa using hinside, inner, by rw [List.cons_append, hat]; exact hinner⟩
    · intro m hm
      exact h.recognized m (by rwa [List.getLast?_cons_of_ne_nil hne] at hm)
    · simpa only [hat, List.append_assoc, List.singleton_append] using h.candidate

theorem IsSource.exists_at? (h : IsSource s place node names) :
    ∃ found, node.at? names = some found := by
  rcases h.candidate with ⟨content, hc⟩ | ⟨⟨target, ht⟩, -⟩
  · exact ⟨_, hc⟩
  · exact ⟨_, ht⟩

theorem IsSource.areEntryNames (h : IsSource s place node names) (hw : node.WellFormed) :
    AreEntryNames names := by
  obtain ⟨found, hat⟩ := h.exists_at?
  exact (hw.at? hat).1

theorem sourcesIn_eq_flatMap :
    sourcesIn s p levels trail entries =
      entries.flatMap fun e => sourcesOf s p levels trail e.1 e.2 := by
  induction entries with
  | nil => rfl
  | cons e entries ih => rw [sourcesIn, ih, List.flatMap_cons]

theorem isSpared_nil : IsSpared s directory levels trail [] := by
  intro before n after he
  simp at he

theorem isSpared_cons : IsSpared s directory levels trail (n :: names) ↔
    Ignore.leavesOut levels trail n (!names.isEmpty) = false ∧
      IsSpared s (directory.child n) (levelsIn s (directory.child n) levels) (n :: trail) names := by
  constructor
  · intro h
    refine ⟨h [] n names rfl, fun before m after he => ?_⟩
    simpa [levelsAlong] using h (n :: before) m after (by rw [he]; rfl)
  · rintro ⟨hfirst, hrest⟩ before m after he
    cases before with
    | nil =>
      obtain ⟨rfl, rfl⟩ := List.cons.inj he
      exact hfirst
    | cons first before =>
      obtain ⟨rfl, hafter⟩ := List.cons.inj he
      simpa [levelsAlong] using hrest before m after hafter

theorem leavesOut_nil {isDirectory : Bool} :
    Ignore.leavesOut [] trail n isDirectory = false := by
  simp [Ignore.leavesOut, Ignore.firstVerdict?]

theorem isSpared_of_not_follows (hi : s.followsIgnoreFiles = false) :
    IsSpared s directory [] trail names := by
  induction names generalizing directory trail with
  | nil => exact isSpared_nil
  | cons n names ih =>
    refine isSpared_cons.mpr ⟨leavesOut_nil, ?_⟩
    simpa [levelsIn, hi] using ih

/-- What is found is a source that no ignore file leaves out. -/
theorem exists_spared_of_mem (hw : node.WellFormed) (hnode : node = .directory entries)
    (hplace : AreEntryNames place) (hp : p ∈ sourcesIn s (pathOf place) levels trail entries) :
    ∃ names, IsSource s place node names ∧ IsSpared s (pathOf place) levels trail names ∧
      p = pathOf (place ++ names) := by
  induction hw generalizing entries place levels trail p with
  | file content => simp at hnode
  | link target => simp at hnode
  | @directory around distinct named inner ih =>
    obtain rfl := Node.directory.inj hnode
    rw [sourcesIn_eq_flatMap, List.mem_flatMap] at hp
    obtain ⟨⟨n, node⟩, hmem, hp⟩ := hp
    have hn := named _ hmem
    have hentry : (Node.directory around).child? n = some node := Node.lookup_of_mem distinct hmem
    have hchild : (pathOf place).child n = pathOf (place ++ [n]) := Path.child_pathOf hplace hn
    cases node with
    | file content =>
      simp only [sourcesOf, hchild] at hp
      split at hp
      · simp at hp
      next hspared =>
      split at hp
      · next hr =>
        exact ⟨[n], isSource_singleton.mpr ⟨hr, .inl ⟨content, hentry⟩⟩,
          isSpared_cons.mpr ⟨by simpa using hspared, isSpared_nil⟩, by simpa using hp⟩
      · simp at hp
    | link target =>
      simp only [sourcesOf, hchild, Bool.and_eq_true] at hp
      split at hp
      · simp at hp
      next hspared =>
      split at hp
      · next hr =>
        exact ⟨[n], isSource_singleton.mpr ⟨hr.1, .inr ⟨⟨target, hentry⟩, hr.2⟩⟩,
          isSpared_cons.mpr ⟨by simpa using hspared, isSpared_nil⟩, by simpa using hp⟩
      · simp at hp
    | directory entries =>
      simp only [sourcesOf, hchild, Bool.or_eq_true] at hp
      split at hp
      · simp at hp
      next hkept =>
      split at hp
      · next hopens =>
        rw [not_or] at hkept
        obtain ⟨names, hsource, hspared, rfl⟩ :=
          ih _ hmem rfl (areEntryNames_concat.mpr ⟨hplace, hn⟩) hp
        refine ⟨n :: names,
          (isSource_cons hsource.ne_nil).mpr ⟨?_, hopens, entries, hentry, hsource⟩,
          isSpared_cons.mpr ⟨?_, hchild.symm ▸ hspared⟩, ?_⟩
        · simpa using hkept.2
        · simpa [List.isEmpty_eq_false_iff.mpr hsource.ne_nil] using hkept.1
        · simp
      · simp at hp

/-- A source that no ignore file leaves out is found. -/
theorem mem_of_isSource_of_isSpared (hw : (Node.directory entries).WellFormed)
    (hplace : AreEntryNames place) (h : IsSource s place (.directory entries) names)
    (hspared : IsSpared s (pathOf place) levels trail names) :
    pathOf (place ++ names) ∈ sourcesIn s (pathOf place) levels trail entries := by
  induction names generalizing entries place levels trail with
  | nil => exact absurd rfl h.ne_nil
  | cons n names ih =>
    have hfind : ∀ p node, (Node.directory entries).child? n = some node →
        p ∈ sourcesOf s (pathOf place) levels trail n node →
        p ∈ sourcesIn s (pathOf place) levels trail entries := by
      intro p node hnode hp
      rw [sourcesIn_eq_flatMap, List.mem_flatMap]
      exact ⟨_, Node.mem_of_lookup hnode, hp⟩
    have hn := (areEntryNames_cons.mp (h.areEntryNames hw)).1
    have hchild : (pathOf place).child n = pathOf (place ++ [n]) := Path.child_pathOf hplace hn
    obtain ⟨hfirst, hrest⟩ := isSpared_cons.mp hspared
    by_cases hne : names = []
    · subst hne
      rw [List.isEmpty_nil, Bool.not_true] at hfirst
      obtain ⟨hr, ⟨content, hfile⟩ | ⟨⟨target, hlink⟩, hisFile⟩⟩ := isSource_singleton.mp h
      · exact hfind _ _ hfile (by simp [sourcesOf, hfirst, hr, hchild])
      · exact hfind _ _ hlink (by simp [sourcesOf, hfirst, hr, hchild, hisFile])
    · obtain ⟨hx, hopens, inner, hentry, hsource⟩ := (isSource_cons hne).mp h
      rw [hchild] at hrest
      have hmem := ih (hw.child? hentry).2 (areEntryNames_concat.mpr ⟨hplace, hn⟩) hsource hrest
      rw [List.append_assoc] at hmem
      refine hfind _ _ hentry ?_
      rw [List.isEmpty_eq_false_iff.mpr hne, Bool.not_false] at hfirst
      simpa [sourcesOf, hfirst, hx, hchild, hopens] using hmem

/-- Ignore files or not, what is found is a source. -/
theorem isSource_of_mem (hw : node.WellFormed) (hnode : node = .directory entries)
    (hplace : AreEntryNames place) (hp : p ∈ sourcesIn s (pathOf place) levels trail entries) :
    ∃ names, IsSource s place node names ∧ p = pathOf (place ++ names) := by
  obtain ⟨names, hsource, -, heq⟩ := exists_spared_of_mem hw hnode hplace hp
  exact ⟨names, hsource, heq⟩

/-- What is found at or below one entry begins with the name of that entry. -/
theorem exists_names_of_mem_sourcesOf (hn : IsEntryName n) (hw : node.WellFormed)
    (hplace : AreEntryNames place) (hp : p ∈ sourcesOf s (pathOf place) levels trail n node) :
    ∃ names, AreEntryNames (n :: names) ∧ p = pathOf (place ++ n :: names) := by
  have halone : (Node.directory [(n, node)]).WellFormed :=
    .directory (by simp) (by simpa using hn) (by simpa using hw)
  have hp : p ∈ sourcesIn s (pathOf place) levels trail [(n, node)] := by
    simpa [sourcesIn] using hp
  obtain ⟨names, hsource, rfl⟩ := isSource_of_mem halone rfl hplace hp
  obtain ⟨first, rest, rfl⟩ := List.exists_cons_of_ne_nil hsource.ne_nil
  obtain ⟨found, hat⟩ := hsource.exists_at?
  obtain rfl : first = n := by
    rw [Node.at?_cons, Option.bind_eq_some_iff] at hat
    obtain ⟨next, hnext, -⟩ := hat
    simpa using (Prod.mk.inj (List.mem_singleton.mp (Node.mem_of_lookup hnext))).1
  exact ⟨rest, hsource.areEntryNames halone, rfl⟩

/-- No path is found twice. -/
theorem nodup_sourcesIn (hw : node.WellFormed) (hnode : node = .directory entries)
    (hplace : AreEntryNames place) : (sourcesIn s (pathOf place) levels trail entries).Nodup := by
  induction hw generalizing entries place levels trail with
  | file content => simp at hnode
  | link target => simp at hnode
  | @directory around distinct named inner ih =>
    obtain rfl := Node.directory.inj hnode
    rw [sourcesIn_eq_flatMap, List.nodup_flatMap]
    constructor
    · rintro ⟨n, node⟩ hmem
      have hchild : (pathOf place).child n = pathOf (place ++ [n]) :=
        Path.child_pathOf hplace (named _ hmem)
      cases node with
      | file content =>
        simp only [sourcesOf]
        split <;> try simp
        split <;> simp
      | link target =>
        simp only [sourcesOf]
        split <;> try simp
        split <;> simp
      | directory entries =>
        simp only [sourcesOf, hchild]
        split
        · simp
        split
        · exact ih _ hmem rfl (areEntryNames_concat.mpr ⟨hplace, named _ hmem⟩)
        · simp
    -- What two entries hold begins with their names, and these differ.
    · rw [List.Nodup, List.pairwise_map] at distinct
      refine distinct.imp_of_mem fun {e e'} he he' hne => ?_
      intro p hp hp'
      obtain ⟨names, hnames, rfl⟩ :=
        exists_names_of_mem_sourcesOf (named _ he) (inner _ he) hplace hp
      obtain ⟨names', hnames', heq⟩ :=
        exists_names_of_mem_sourcesOf (named _ he') (inner _ he') hplace hp'
      have hsame := Path.pathOf_inj (areEntryNames_append.mpr ⟨hplace, hnames⟩)
        (areEntryNames_append.mpr ⟨hplace, hnames'⟩) (by rw [heq])
      exact hne (List.cons.inj (List.append_cancel_left hsame)).1

/-- The search that the settings ask for. -/
def searchOf (fs : FileSystem) (settings : Settings) (excluded : List NamePattern) : Search :=
  ⟨fs, settings.extensions, excluded, settings.followsIgnoreFiles⟩

/-- What a scan finds in the order of paths it leaves so. -/
theorem sources_eq {names : List Name} (hpatterns : patterns settings.excluded = .ok excluded)
    (hroot : fs.locate root = .ok (names, .directory entries))
    (hfiles : sourcesIn (searchOf fs settings excluded) root
      (levelsIn (searchOf fs settings excluded) root []) [] entries = files)
    (hsorted : files.Pairwise fun p q => p.precedes q) : sources fs settings root = .ok files := by
  have hsort : Path.sort files = files := List.mergeSort_of_pairwise hsorted
  simp only [searchOf] at hfiles
  simp only [sources, hpatterns, hroot, hfiles, hsort]

/-- A scan of the directory at `place` has come to an end with these files. -/
structure Ended (fs : FileSystem) (settings : Settings) (root : Path) (files : List Path)
    (place : List Name) (entries : List (Name × Node)) (excluded : List NamePattern) : Prop where
  root_eq : root = pathOf place
  at_place : fs.top.at? place = some (.directory entries)
  patterns_eq : patterns settings.excluded = .ok excluded
  files_eq : files = [] ∧ (∀ found, fs.locate root ≠ .ok found) ∨
    (∃ found, fs.locate root = .ok found) ∧
      files = Path.sort (sourcesIn (searchOf fs settings excluded) root
        (levelsIn (searchOf fs settings excluded) root []) [] entries)

/-- The root is the plain path of a directory to which the path given for it leads. -/
theorem exists_directory_of_root (h : Scan.root fs p = .ok root) :
    ∃ place entries, root = pathOf place ∧ fs.locate p = .ok (place, .directory entries) := by
  unfold Scan.root at h
  split at h
  · simp at h
  split at h
  · simp at h
  · next hdirectory =>
    split at h
    · next real hreal =>
      obtain rfl := Except.ok.inj h
      obtain ⟨names, entries, hlocate⟩ := FileSystem.isDirectory_iff.mp (by simpa using hdirectory)
      obtain ⟨names', node, hlocate', rfl⟩ := FileSystem.canonical?_eq_some.mp hreal
      rw [hlocate] at hlocate'
      obtain ⟨rfl, rfl⟩ := Prod.mk.inj (Except.ok.inj hlocate')
      exact ⟨names, entries, rfl, hlocate⟩
    · simp at h

theorem exists_place (hfs : fs.WellFormed) (h : Scan.root fs p = .ok root) :
    ∃ place entries, root = pathOf place ∧ fs.top.at? place = some (.directory entries) := by
  obtain ⟨place, entries, rfl, hlocate⟩ := exists_directory_of_root h
  exact ⟨place, entries, rfl, hfs.at?_of_locate hlocate⟩

theorem exists_ended (hfs : fs.WellFormed) (hroot : Scan.root fs p = .ok root)
    (h : sources fs settings root = .ok files) :
    ∃ place entries excluded, Ended fs settings root files place entries excluded := by
  obtain ⟨place, entries, rfl, hat⟩ := exists_place hfs hroot
  unfold sources at h
  split at h
  · simp at h
  · next excluded hpatterns =>
    refine ⟨place, entries, excluded, rfl, hat, hpatterns, ?_⟩
    dsimp only at h
    split at h
    · next names inner hlocate =>
      obtain ⟨rfl, rfl⟩ : names = place ∧ inner = entries := by
        have := FileSystem.locate_directory (hfs.tree.at? hat).1 hat hlocate
        simpa using Prod.mk.inj this
      exact Or.inr ⟨⟨_, hlocate⟩, (Except.ok.inj h).symm⟩
    · next hnot =>
      refine Or.inl ⟨(Except.ok.inj h).symm, fun found hfound => ?_⟩
      have := FileSystem.locate_directory (hfs.tree.at? hat).1 hat hfound
      exact hnot place entries (by rw [hfound, this])

namespace Ended

theorem areEntryNames (h : Ended fs settings root files place entries excluded)
    (hfs : fs.WellFormed) : AreEntryNames place :=
  (hfs.tree.at? h.at_place).1

theorem wellFormed (h : Ended fs settings root files place entries excluded)
    (hfs : fs.WellFormed) : (Node.directory entries).WellFormed :=
  (hfs.tree.at? h.at_place).2

theorem top_at?_append (h : Ended fs settings root files place entries excluded)
    (names : List Name) : fs.top.at? (place ++ names) = (Node.directory entries).at? names := by
  rw [Node.at?_append, h.at_place]
  rfl

theorem areEntryNames_of_at? (h : Ended fs settings root files place entries excluded)
    (hfs : fs.WellFormed) (hat : (Node.directory entries).at? names = some node) :
    AreEntryNames (place ++ names) :=
  (hfs.tree.at? ((h.top_at?_append names).trans hat)).1

/-- Every file of a scan has a plain path below the root. -/
theorem isSource_of_mem (h : Ended fs settings root files place entries excluded)
    (hfs : fs.WellFormed) (hf : f ∈ files) :
    ∃ names, IsSource (searchOf fs settings excluded) place (.directory entries) names ∧
      AreEntryNames (place ++ names) ∧ f = pathOf (place ++ names) := by
  rcases h.files_eq with ⟨rfl, -⟩ | ⟨-, rfl⟩
  · simp at hf
  · have hplace := h.areEntryNames hfs
    rw [Path.sort, List.mem_mergeSort, h.root_eq] at hf
    obtain ⟨names, hsource, rfl⟩ := Scan.isSource_of_mem (h.wellFormed hfs) rfl hplace hf
    obtain ⟨found, hat⟩ := hsource.exists_at?
    exact ⟨names, hsource, h.areEntryNames_of_at? hfs hat, rfl⟩

/-- The files of a scan are distinct paths. -/
theorem distinct (h : Ended fs settings root files place entries excluded) (hfs : fs.WellFormed) :
    files.Pairwise fun f g => ¬ f.same g := by
  have hnodup : files.Nodup := by
    rcases h.files_eq with ⟨rfl, -⟩ | ⟨-, rfl⟩
    · simp
    · rw [Path.sort, (List.mergeSort_perm _ _).nodup_iff, h.root_eq]
      exact nodup_sourcesIn (h.wellFormed hfs) rfl (h.areEntryNames hfs)
  refine hnodup.imp_of_mem fun hf hg hne hsame => hne ?_
  obtain ⟨names, -, hnames, rfl⟩ := h.isSource_of_mem hfs hf
  obtain ⟨names', -, hnames', rfl⟩ := h.isSource_of_mem hfs hg
  rw [(Path.same_pathOf hnames hnames').mp hsame]

/-- A root that cannot be found has no files. -/
theorem exists_located (h : Ended fs settings root files place entries excluded) (hf : f ∈ files) :
    ∃ found, fs.locate root = .ok found := by
  rcases h.files_eq with ⟨rfl, -⟩ | ⟨hfound, -⟩
  · simp at hf
  · exact hfound

/-- A scan that finds its root finds every source that no ignore file leaves out. -/
theorem mem_iff_isSpared (h : Ended fs settings root files place entries excluded)
    (hfs : fs.WellFormed) (hroot : ∃ found, fs.locate root = .ok found) :
    f ∈ files ↔ ∃ names,
      IsSource (searchOf fs settings excluded) place (.directory entries) names ∧
        IsSpared (searchOf fs settings excluded) root
          (levelsIn (searchOf fs settings excluded) root []) [] names ∧
        f = pathOf (place ++ names) := by
  have hplace := h.areEntryNames hfs
  rcases h.files_eq with ⟨-, hnone⟩ | ⟨-, rfl⟩
  · obtain ⟨found, hfound⟩ := hroot
    exact absurd hfound (hnone found)
  · rw [Path.sort, List.mem_mergeSort, h.root_eq]
    constructor
    · exact exists_spared_of_mem (h.wellFormed hfs) rfl hplace
    · rintro ⟨names, hsource, hspared, rfl⟩
      exact mem_of_isSource_of_isSpared (h.wellFormed hfs) hplace hsource hspared

/-- Without ignore files a scan that finds its root finds every source. -/
theorem mem_iff (h : Ended fs settings root files place entries excluded) (hfs : fs.WellFormed)
    (hi : settings.followsIgnoreFiles = false) (hroot : ∃ found, fs.locate root = .ok found) :
    f ∈ files ↔ ∃ names,
      IsSource (searchOf fs settings excluded) place (.directory entries) names ∧
        f = pathOf (place ++ names) := by
  have hlevels : levelsIn (searchOf fs settings excluded) root [] = [] := by
    simp [levelsIn, searchOf, hi]
  rw [h.mem_iff_isSpared hfs hroot, hlevels]
  refine exists_congr fun names => and_congr_right fun _ => and_iff_right ?_
  exact isSpared_of_not_follows hi

end Ended

/-- A file imports another in two spellings, a package, a file that is missing and one outside the
root; the other one is not UTF-8. -/
def mixedTree : FileSystem where
  root := [((Path.ofString "lib.js").bytes, .file []),
    ((Path.ofString "src").bytes, .directory
      [((Path.ofString "a.js").bytes, .file (Path.ofString
        "import './b'\nimport './b.js'\nimport 'react'\nimport './none'\nimport '../lib'\n").bytes),
       ((Path.ofString "b.js").bytes, .file [0xFF])])]
  workingDirectory := []

theorem wellFormed_mixedTree : mixedTree.WellFormed := ⟨by decide +kernel, _, rfl⟩

theorem root_mixedTree :
    Scan.root mixedTree Settings.defaults.root = .ok (Path.ofString "/src") := by rfl

theorem sources_mixedTree : sources mixedTree .defaults (Path.ofString "/src") =
    .ok [Path.ofString "/src/a.js", Path.ofString "/src/b.js"] :=
  sources_eq rfl rfl (by decide +kernel) (by decide +kernel)

end ImportCycles.Scan
