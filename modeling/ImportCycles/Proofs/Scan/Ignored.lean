import ImportCycles.Proofs.Scan.Exact
/-!
Ignore files take files out of a scan and put none in. What is left is in the order in which it
stands without them, and it is just the sources on whose way no rule leaves out anything: a rule that
keeps what it matches goes before other rules only, not before the excluded names or the extensions.
-/
namespace ImportCycles

/-- The settings with ignore files followed, or not. -/
def Settings.following (settings : Settings) (follows : Bool) : Settings :=
  { settings with followsIgnoreFiles := follows }

namespace Scan

/-- The ignore files of the directories on the way that the names lead from the root, the nearest
first. -/
def levelsOn (fs : FileSystem) (root : Path) (names : List Name) : List Ignore.Level :=
  (names.inits.map fun way => Ignore.Level.ofDirectory fs (root.along way)).reverse

/-- At every entry on the way that the names lead from the root, the ignore files of the directories
around it do not ask to leave it out. -/
def IsLeftIn (fs : FileSystem) (root : Path) (names : List Name) : Prop :=
  ∀ before n after, names = before ++ n :: after →
    Ignore.leavesOut (levelsOn fs root before) before.reverse n (!after.isEmpty) = false

variable {s : Search} {fs : FileSystem} {settings : Settings} {directory root f : Path}
  {names place : List Name} {levels : List Ignore.Level} {entries : List (Name × Node)}
  {excluded : List NamePattern} {files kept : List Path}

/-- The search that does not follow ignore files. -/
def Search.heedless (s : Search) : Search := { s with followsIgnoreFiles := false }

mutual

theorem sourcesOf_sublist (s : Search) : ∀ (node : Node) (directory : Path)
    (levels : List Ignore.Level) (trail : List Name) (n : Name),
    (sourcesOf s directory levels trail n node).Sublist
      (sourcesOf s.heedless directory [] trail n node)
  | .file _, directory, levels, trail, n => by
    rw [sourcesOf, sourcesOf, leavesOut_nil]
    split
    · exact List.nil_sublist _
    · exact .refl _
  | .link _, directory, levels, trail, n => by
    rw [sourcesOf, sourcesOf, leavesOut_nil]
    split
    · exact List.nil_sublist _
    · exact .refl _
  | .directory entries, directory, levels, trail, n => by
    rw [sourcesOf, sourcesOf, leavesOut_nil, Bool.false_or]
    -- An excluded name stops both searches, whatever the rules say of it.
    cases hexcluded : isExcluded s.excluded n with
    | true => simp
    | false =>
      have hkept : isExcluded s.heedless.excluded n = false := hexcluded
      simp only [Bool.or_false, hkept, Bool.false_eq_true, if_false]
      split
      · exact List.nil_sublist _
      by_cases hopens : s.fs.isDirectory (directory.child n) = true
      · have hopens' : s.heedless.fs.isDirectory (directory.child n) = true := hopens
        rw [if_pos hopens, if_pos hopens']
        exact sourcesIn_sublist s entries _ _ _
      · rw [if_neg hopens]
        exact List.nil_sublist _

/-- Ignore files only take away what is found without them. -/
theorem sourcesIn_sublist (s : Search) : ∀ (entries : List (Name × Node)) (directory : Path)
    (levels : List Ignore.Level) (trail : List Name),
    (sourcesIn s directory levels trail entries).Sublist
      (sourcesIn s.heedless directory [] trail entries)
  | [], _, _, _ => .refl _
  | (n, node) :: entries, directory, levels, trail => by
    rw [sourcesIn, sourcesIn]
    exact (sourcesOf_sublist s node directory levels trail n).append
      (sourcesIn_sublist s entries directory levels trail)

end

theorem levelsAlong_eq (hi : s.followsIgnoreFiles = true) :
    levelsAlong s directory (levelsIn s directory levels) names =
      levelsOn s.fs directory names ++ levels := by
  induction names generalizing directory levels with
  | nil => simp [levelsAlong, levelsIn, hi, levelsOn, Path.along]
  | cons n names ih =>
    rw [levelsAlong, ih]
    simp [levelsOn, levelsIn, hi, Path.along, Function.comp_def]

theorem isSpared_iff_isLeftIn (hi : s.followsIgnoreFiles = true) :
    IsSpared s root (levelsIn s root []) [] names ↔ IsLeftIn s.fs root names := by
  simp only [IsSpared, IsLeftIn, levelsAlong_eq hi, List.append_nil]

theorem Ended.mem_iff_isLeftIn (h : Ended fs settings root files place entries excluded)
    (hfs : fs.WellFormed) (hi : settings.followsIgnoreFiles = true)
    (hfound : ∃ found, fs.locate root = .ok found) :
    f ∈ files ↔ ∃ names, IsListed fs settings root names ∧ IsLeftIn fs root names ∧
      f = root.along names := by
  have hspared : ∀ names, IsSpared (searchOf fs settings excluded) root
      (levelsIn (searchOf fs settings excluded) root []) [] names ↔ IsLeftIn fs root names :=
    fun names => isSpared_iff_isLeftIn hi
  rw [h.mem_iff_isSpared hfs hfound]
  refine exists_congr fun names => ?_
  rw [and_left_comm, h.isSource_at_iff hfs, hspared, and_left_comm]

/-- With ignore files a scan lists some of what it lists without them, in the same order, or both
fail alike. -/
theorem sources_sublist (fs : FileSystem) (settings : Settings) (root : Path) :
    (∃ failure, sources fs (settings.following true) root = .error failure ∧
      sources fs (settings.following false) root = .error failure) ∨
    ∃ kept all, sources fs (settings.following true) root = .ok kept ∧
      sources fs (settings.following false) root = .ok all ∧
      kept.Sublist all := by
  simp only [sources, Settings.following]
  cases patterns settings.excluded with
  | error failure => exact .inl ⟨failure, rfl, rfl⟩
  | ok excluded =>
    refine .inr ?_
    dsimp only
    split
    · next names entries hlocate =>
      refine ⟨_, _, rfl, rfl, Path.sort_sublist ?_⟩
      exact sourcesIn_sublist ⟨fs, settings.extensions, excluded, true⟩ entries root _ []
    · exact ⟨[], [], rfl, rfl, .refl _⟩

theorem isListed_following (follows : Bool) :
    IsListed fs (settings.following follows) root names ↔
      IsListed fs settings root names :=
  ⟨fun h => ⟨⟨h.ne_nil, h.entered, h.named, h.leads⟩, h.opened⟩,
    fun h => ⟨⟨h.ne_nil, h.entered, h.named, h.leads⟩, h.opened⟩⟩

theorem mem_kept_iff (hfs : fs.WellFormed) (hroot : Scan.root fs root = .ok root)
    (h : sources fs (settings.following true) root = .ok kept) :
    f ∈ kept ↔ ∃ names, IsListed fs settings root names ∧ IsLeftIn fs root names ∧
      f = root.along names := by
  obtain ⟨place, entries, excluded, hended⟩ := exists_ended hfs hroot h
  rw [hended.mem_iff_isLeftIn hfs rfl (exists_located_of_root hroot)]
  simp only [isListed_following]

/-- Ignore files only remove. With them and without them a scan fails for the same malformed pattern,
or what it lists with them is in what it lists without them, in the same order. And whatever their
rules keep, each file that is left has a configured extension and no excluded directory on its way:
it is a source on whose way they leave out nothing. -/
theorem ignore_files_only_remove (fs : FileSystem) (settings : Settings) (root : Path) :
    (∃ failure, IsFirstMalformed settings.excluded failure ∧
      sources fs (settings.following true) root = .error failure ∧
      sources fs (settings.following false) root = .error failure) ∨
    ∃ kept all, sources fs (settings.following true) root = .ok kept ∧
      sources fs (settings.following false) root = .ok all ∧
      kept.Sublist all ∧
      (fs.WellFormed → Scan.root fs root = .ok root → ∀ f, f ∈ kept ↔ ∃ names,
        IsListed fs settings root names ∧ IsLeftIn fs root names ∧ f = root.along names) := by
  rcases sources_sublist fs settings root with
    ⟨failure, hwith, hwithout⟩ | ⟨kept, all, hkept, hall, hsublist⟩
  · have hfirst : IsFirstMalformed (settings.following true).excluded failure :=
      sources_eq_error_iff.mp hwith
    exact .inl ⟨failure, hfirst, hwith, hwithout⟩
  · exact .inr ⟨kept, all, hkept, hall, hsublist,
      fun hfs hroot f => mem_kept_iff hfs hroot hkept⟩

/-- The rules leave out two of three sources: one that none of them keeps, and one that the rules of
one file keep and those of another outweigh. They also keep an excluded directory and a text. -/
def negatedTree : FileSystem where
  root := [((Path.ofString "src").bytes, .directory
    [((Path.ofString ".gitignore").bytes, .file (Path.ofString
        "*.js\n!a.js\n!c.js\n!node_modules/\n!*.txt\n").bytes),
     ((Path.ofString ".ignore").bytes, .file (Path.ofString "c.js\n").bytes),
     ((Path.ofString "a.js").bytes, .file []),
     ((Path.ofString "b.js").bytes, .file []),
     ((Path.ofString "c.js").bytes, .file []),
     ((Path.ofString "d.txt").bytes, .file []),
     ((Path.ofString "node_modules").bytes, .directory
       [((Path.ofString "a.js").bytes, .file [])])])]
  workingDirectory := []

def negatedKept : List Path := [Path.ofString "/src/a.js"]

def negatedAll : List Path :=
  [Path.ofString "/src/a.js", Path.ofString "/src/b.js", Path.ofString "/src/c.js"]

theorem negatedTree_sources :
    Scan.root negatedTree (Path.ofString "/src") = .ok (Path.ofString "/src") ∧
      sources negatedTree (Settings.defaults.following true) (Path.ofString "/src") =
        .ok negatedKept ∧
      sources negatedTree (Settings.defaults.following false) (Path.ofString "/src") =
        .ok negatedAll ∧
      negatedKept.Sublist negatedAll ∧
      ∀ f, f ∈ negatedKept ↔ ∃ names,
        IsListed negatedTree .defaults (Path.ofString "/src") names ∧
          IsLeftIn negatedTree (Path.ofString "/src") names ∧
          f = (Path.ofString "/src").along names := by
  have hroot : Scan.root negatedTree (Path.ofString "/src") = .ok (Path.ofString "/src") := rfl
  have hkept : sources negatedTree (Settings.defaults.following true) (Path.ofString "/src") =
      .ok negatedKept := sources_eq rfl rfl (by decide +kernel) (by decide +kernel)
  have hall : sources negatedTree (Settings.defaults.following false) (Path.ofString "/src") =
      .ok negatedAll := sources_eq rfl rfl (by decide +kernel) (by decide +kernel)
  rcases ignore_files_only_remove negatedTree .defaults (Path.ofString "/src") with
    ⟨failure, -, hfails, -⟩ | ⟨kept, all, hkept', hall', hsublist, hmem⟩
  · simp [hkept] at hfails
  · obtain rfl : negatedKept = kept := Except.ok.inj (hkept.symm.trans hkept')
    obtain rfl : negatedAll = all := Except.ok.inj (hall.symm.trans hall')
    exact ⟨hroot, hkept, hall, hsublist, hmem ⟨by decide +kernel, _, rfl⟩ hroot⟩

end Scan

end ImportCycles
