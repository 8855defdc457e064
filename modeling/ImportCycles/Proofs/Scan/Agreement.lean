import ImportCycles.Proofs.Resolution.Targets
import ImportCycles.Proofs.Scan.Sources
/-!
Scan and resolution agree on which paths are sources: what a specifier resolves to is found by the
scan when it lies below the root and only directories that are entered lie between.
-/
namespace ImportCycles

open FileSystem (pathOf)

/-- The components of `d` lie strictly between those of `root` and those of `t`. -/
structure Path.IsBetween (root d t : Path) : Prop where
  below : root.components <+: d.components
  above : d.components <+: t.components
  ne_root : d.components ≠ root.components
  ne_target : d.components ≠ t.components

/-- The names of an absolute path lead through directories, without any link, to a directory. -/
def FileSystem.IsRealDirectory (fs : FileSystem) (d : Path) : Prop :=
  ∃ entries, fs.top.at? d.names = some (.directory entries)

variable {fs : FileSystem} {settings : Settings} {aliases : AliasTable} {specifier : String}
  {place names inner : List Name} {n last : Name} {entries : List (Name × Node)}
  {excluded : List NamePattern} {files : List Path} {p root origin d t : Path}

namespace Path

/-- Between two plain paths lie the paths with some of the names that lie between. -/
theorem isBetween_pathOf_iff (h : AreEntryNames (place ++ (inner ++ [last]))) :
    IsBetween (pathOf place) d (pathOf (place ++ (inner ++ [last]))) ↔
      ∃ before n after, inner = before ++ n :: after ∧
        d.components = .root :: (place ++ (before ++ [n])).map .name := by
  have hroot := components_pathOf (areEntryNames_append.mp h).1
  have htarget := components_pathOf h
  constructor
  · rintro ⟨hbelow, habove, hne_root, hne_target⟩
    rw [hroot] at hbelow hne_root
    rw [htarget] at habove hne_target
    obtain ⟨middle, hmiddle⟩ := hbelow
    obtain ⟨rest, hrest⟩ := habove
    have hsplit : (inner ++ [last]).map Component.name = middle ++ rest := by
      rw [← hmiddle, List.append_assoc, List.map_append, List.cons_append] at hrest
      exact (List.append_cancel_left (List.cons.inj hrest).2).symm
    obtain ⟨front, back, hnames, rfl, rfl⟩ := List.map_eq_append_iff.mp hsplit
    obtain ⟨before, n, rfl⟩ : ∃ before n, front = before ++ [n] := by
      rcases List.eq_nil_or_concat' front with rfl | ⟨before, n, rfl⟩
      · simp [← hmiddle] at hne_root
      · exact ⟨before, n, rfl⟩
    obtain ⟨after, m, rfl⟩ : ∃ after m, back = after ++ [m] := by
      rcases List.eq_nil_or_concat' back with rfl | ⟨after, m, rfl⟩
      · simp [← hmiddle, hnames] at hne_target
      · exact ⟨after, m, rfl⟩
    rw [← List.append_assoc] at hnames
    refine ⟨before, n, after, ?_, by simp [← hmiddle]⟩
    rw [(List.append_inj' hnames rfl).1]
    simp
  · rintro ⟨before, n, after, rfl, hd⟩
    refine ⟨?_, ?_, ?_, ?_⟩
    · rw [hroot, hd]
      exact ⟨(before ++ [n]).map .name, by simp⟩
    · rw [htarget, hd]
      exact ⟨(after ++ [last]).map .name, by simp⟩
    · rw [hroot, hd]
      simp
    · rw [htarget, hd]
      simp

end Path

namespace Scan

theorem mem_patterns_iff {texts : List String} {pattern : NamePattern}
    (h : patterns texts = .ok excluded) :
    pattern ∈ excluded ↔ ∃ text ∈ texts, NamePattern.ofText text = .ok pattern := by
  induction texts generalizing excluded with
  | nil =>
    obtain rfl := Except.ok.inj h
    simp
  | cons text texts ih =>
    unfold patterns at h
    split at h
    · simp at h
    · next first hfirst =>
      cases hrest : patterns texts with
      | error failure => simp [hrest, Except.map] at h
      | ok others =>
        obtain rfl : first :: others = excluded := by simpa [hrest, Except.map] using h
        rw [List.mem_cons, ih hrest, List.exists_mem_cons_iff, hfirst, Except.ok.injEq, eq_comm]

/-- A name that is UTF-8 matches no pattern of the excluded names. -/
def IsKept (settings : Settings) (n : Name) : Prop :=
  ∀ cs ∈ Text.Utf8.read? n, ∀ text ∈ settings.excluded, ∀ pattern,
    NamePattern.ofText text = .ok pattern → pattern.isMatch cs = false

theorem isExcluded_eq_false_iff (h : patterns settings.excluded = .ok excluded) :
    isExcluded excluded n = false ↔ IsKept settings n := by
  unfold isExcluded IsKept
  cases Text.Utf8.read? n with
  | none => simp
  | some cs =>
    simp only [List.any_eq_false, Bool.not_eq_true, mem_patterns_iff h, Option.mem_def,
      Option.some.injEq, forall_eq', forall_exists_index, and_imp]
    exact ⟨fun h text ht pattern hp => h pattern text ht hp, fun h pattern text ht hp => h text ht pattern hp⟩

namespace Ended

/-- A file that would be recognized is a source just when its name is UTF-8 and every directory
before it is entered. -/
theorem isSource_iff (h : Ended fs settings root files place entries excluded)
    (hnames : AreEntryNames (place ++ (inner ++ [last])))
    (hrecognized : (Text.Utf8.read? last).isSome = true →
      Probe.recognizes settings.extensions last = true)
    (hfile : fs.isFile (pathOf (place ++ (inner ++ [last]))) = true) :
    IsSource (searchOf fs settings excluded) place (.directory entries) (inner ++ [last]) ↔
      (Text.Utf8.read? last).isSome = true ∧ ∀ before n after, inner = before ++ n :: after →
        isExcluded excluded n = false ∧
          ∃ around, (Node.directory entries).at? (before ++ [n]) = some (.directory around) := by
  constructor
  · intro hsource
    constructor
    · have := hsource.recognized last (by simp)
      rw [Probe.recognizes, Bool.and_eq_true] at this
      exact this.1
    · rintro before n after rfl
      obtain ⟨hx, -, haround⟩ := hsource.entered before n (after ++ [last]) (by simp) (by simp)
      exact ⟨hx, haround⟩
  · rintro ⟨htext, hentered⟩
    refine ⟨by simp, ?_, by simpa [searchOf] using hrecognized htext, ?_⟩
    · intro before n rest heq hrest
      obtain ⟨after, m, rfl⟩ := (List.eq_nil_or_concat' rest).resolve_left hrest
      rw [← List.cons_append, ← List.append_assoc] at heq
      obtain rfl := (List.append_inj' heq rfl).1
      obtain ⟨hx, around, haround⟩ := hentered before n after rfl
      refine ⟨hx, ?_, around, haround⟩
      -- A file is found through directories that can be opened.
      have hat : fs.top.at? (place ++ (before ++ [n])) = some (.directory around) :=
        (h.top_at?_append _).trans haround
      have hway : place ++ (before ++ n :: after ++ [last]) =
          place ++ (before ++ [n]) ++ (after ++ [last]) := by simp
      rw [hway] at hnames hfile
      obtain ⟨_, _, hlocate⟩ := FileSystem.isFile_iff.mp hfile
      exact (FileSystem.isDirectory_pathOf (areEntryNames_append.mp hnames).1 hat).mpr
        (FileSystem.isInBounds_of_locate hnames hat hlocate)
    · obtain ⟨around, haround⟩ : ∃ around,
          (Node.directory entries).at? inner = some (.directory around) := by
        rcases List.eq_nil_or_concat' inner with rfl | ⟨before, n, rfl⟩
        · exact ⟨entries, rfl⟩
        · exact (hentered before n [] rfl).2
      have hat : fs.top.at? (place ++ inner) = some (.directory around) :=
        (h.top_at?_append inner).trans haround
      rw [← List.append_assoc] at hnames hfile
      rcases FileSystem.exists_entry_of_isFile hnames hat hfile with ⟨content, hc⟩ | ⟨target, ht⟩
      · exact Or.inl ⟨content, Node.at?_concat_eq_some.mpr ⟨around, haround, hc⟩⟩
      · rw [List.append_assoc] at hfile
        exact Or.inr ⟨⟨target, Node.at?_concat_eq_some.mpr ⟨around, haround, ht⟩⟩, hfile⟩

/-- Without ignore files a path is that of a file found just when its names lead to a source. -/
theorem exists_same_iff (h : Ended fs settings root files place entries excluded)
    (hfs : fs.WellFormed) (hi : settings.followsIgnoreFiles = false)
    (hfound : ∃ found, fs.locate root = .ok found) (hnames : AreEntryNames (place ++ names)) :
    (∃ f ∈ files, f.same (pathOf (place ++ names)) = true) ↔
      IsSource (searchOf fs settings excluded) place (.directory entries) names := by
  constructor
  · rintro ⟨f, hf, hsame⟩
    obtain ⟨names', hsource, hplain, rfl⟩ := h.isSource_of_mem hfs hf
    have := (Path.same_pathOf hplain hnames).mp hsame
    rwa [← List.append_cancel_left this]
  · intro hsource
    exact ⟨_, (h.mem_iff hfs hi hfound).mpr ⟨_, hsource, rfl⟩, by simp [Path.same]⟩

/-- A directory below the root is entered just when it is real and its name is kept. -/
theorem isEntered_iff (h : Ended fs settings root files place entries excluded)
    (hd : d.components = .root :: (place ++ (names ++ [n])).map .name) :
    (isExcluded excluded n = false ∧
        ∃ around, (Node.directory entries).at? (names ++ [n]) = some (.directory around)) ↔
      fs.IsRealDirectory d ∧ ∀ name ∈ d.fileName?, IsKept settings name := by
  have hend : d.components = (.root :: (place ++ names).map .name) ++ [.name n] := by simp [hd]
  have hfileName := Path.fileName?_of_components hend
  have hat : fs.top.at? d.names = (Node.directory entries).at? (names ++ [n]) := by
    rw [Path.names_of_components hd, h.top_at?_append]
  rw [FileSystem.IsRealDirectory, hat, hfileName, isExcluded_eq_false_iff h.patterns_eq]
  simp [and_comm]

end Ended

/-- A target with a plain path below the root is found just when its name is UTF-8 and the
directories between are real and their names kept. -/
theorem mem_iff_of_isTarget (hfs : fs.WellFormed)
    (h : Ended fs settings root files place entries excluded)
    (hi : settings.followsIgnoreFiles = false) (hfound : ∃ found, fs.locate root = .ok found)
    (hnames : AreEntryNames (place ++ (inner ++ [last])))
    (hrecognized : (Text.Utf8.read? last).isSome = true →
      Probe.recognizes settings.extensions last = true)
    (hfile : fs.isFile (pathOf (place ++ (inner ++ [last]))) = true) :
    (∃ f ∈ files, f.same (pathOf (place ++ (inner ++ [last]))) = true) ↔
      (∃ name ∈ (pathOf (place ++ (inner ++ [last]))).fileName?,
        (Text.Utf8.read? name).isSome = true) ∧
      ∀ d, Path.IsBetween root d (pathOf (place ++ (inner ++ [last]))) →
        fs.IsRealDirectory d ∧ ∀ name ∈ d.fileName?, IsKept settings name := by
  have hlast : (pathOf (place ++ (inner ++ [last]))).fileName? = some last := by
    rw [← List.append_assoc] at hnames ⊢
    exact Path.fileName?_pathOf hnames
  have hname : (∃ name ∈ (pathOf (place ++ (inner ++ [last]))).fileName?,
      (Text.Utf8.read? name).isSome = true) ↔ (Text.Utf8.read? last).isSome = true := by
    simp [hlast]
  rw [h.exists_same_iff hfs hi hfound hnames, h.isSource_iff hnames hrecognized hfile, hname,
    h.root_eq]
  refine and_congr_right fun _ => ⟨fun hall d hd => ?_, fun hall before n after heq => ?_⟩
  · obtain ⟨before, n, after, heq, hcomponents⟩ := (Path.isBetween_pathOf_iff hnames).mp hd
    exact (h.isEntered_iff hcomponents).mp (hall before n after heq)
  · have hsub : AreEntryNames (place ++ (before ++ [n])) := by
      rw [heq] at hnames
      intro m hm
      refine hnames m ?_
      simp only [List.mem_append, List.mem_cons] at hm ⊢
      tauto
    have hcomponents := Path.components_pathOf hsub
    exact (h.isEntered_iff hcomponents).mpr
      (hall _ ((Path.isBetween_pathOf_iff hnames).mpr ⟨before, n, after, heq, hcomponents⟩))

/-- Scan and resolution agree on which files are nodes. What a specifier of a source resolves to
below the root is one of the sources just when its name is UTF-8 and every directory between the
root and it is a real directory whose name matches no excluded pattern. -/
theorem resolved_is_source_iff (hfs : fs.WellFormed) (hroot : Scan.root fs p = .ok root)
    (htop : root.components ≠ [.root]) (hi : settings.followsIgnoreFiles = false)
    (hslash : ∀ ext ∈ settings.extensions, '/' ∉ ext.toList)
    (hfiles : sources fs settings root = .ok files) (horigin : origin ∈ files)
    (hanchor : aliases.Anchors specifier)
    (hresolved : Resolution.ofSpecifier fs settings.extensions aliases origin specifier =
      .resolved t)
    (hbelow : root.components <+: t.components) :
    (∃ f ∈ files, f.same t = true) ↔
      (∃ name ∈ t.fileName?, (Text.Utf8.read? name).isSome = true) ∧
      ∀ d, Path.IsBetween root d t →
        fs.IsRealDirectory d ∧ ∀ name ∈ d.fileName?, IsKept settings name := by
  obtain ⟨place, entries, excluded, h⟩ := exists_ended hfs hroot hfiles
  have hplace := h.areEntryNames hfs
  have hrootComponents : root.components = .root :: place.map .name := by
    rw [h.root_eq, Path.components_pathOf hplace]
  obtain ⟨names, hsource, hplain, rfl⟩ := h.isSource_of_mem hfs horigin
  have hfound := h.exists_located horigin
  obtain ⟨htarget, hfile⟩ : Probe.IsTarget settings.extensions t ∧ fs.isFile t = true := by
    obtain ⟨front, n, rfl⟩ := (List.eq_nil_or_concat' names).resolve_left hsource.ne_nil
    rw [← List.append_assoc] at hplain hresolved
    exact Resolution.isTarget_of_ofSpecifier hslash hplain hanchor hresolved
  -- The root is a directory, so a file is not the root.
  have hne : t ≠ pathOf place := by
    rintro rfl
    obtain ⟨found, hfound⟩ := hfound
    obtain ⟨names, content, hcontent⟩ := FileSystem.isFile_iff.mp hfile
    rw [h.root_eq] at hfound
    have := FileSystem.locate_directory hplace h.at_place hcontent
    simp at this
  rcases htarget with ⟨front, n, hnames, rfl, hrecognized⟩ | ⟨n, hno, rfl⟩
  · obtain ⟨rest, hrest⟩ : place <+: front ++ [n] := by
      rw [hrootComponents, Path.components_pathOf hnames, List.cons_prefix_cons] at hbelow
      exact (List.prefix_map_iff_of_injective fun _ _ => Component.name.inj).mp hbelow.2
    obtain ⟨inner, last, rfl⟩ : ∃ inner last, rest = inner ++ [last] := by
      refine (List.eq_nil_or_concat' rest).resolve_left ?_
      rintro rfl
      exact hne (by rw [← hrest, List.append_nil])
    obtain rfl : last = n := by
      rw [← List.append_assoc] at hrest
      simpa using (List.append_inj' hrest rfl).2
    rw [← hrest] at hnames hfile ⊢
    exact mem_iff_of_isTarget hfs h hi hfound hnames hrecognized hfile
  · -- Beside the root directory a target could only be the root of the scan.
    rw [hrootComponents, Path.components_pathOf_singleton hno, List.cons_prefix_cons] at hbelow
    obtain ⟨m, rest, rfl⟩ := List.exists_cons_of_ne_nil (l := place) fun hnil =>
      htop (by rw [hrootComponents, hnil]; rfl)
    cases hc : Path.component? n with
    | none => simp [hc] at hbelow
    | some c =>
      obtain ⟨rfl, rfl⟩ : Component.name m = c ∧ rest = [] := by
        simpa [hc, List.cons_prefix_cons] using hbelow.2
      exact absurd (by rw [Path.component?_eq_name hc]) hne

/-- A file imports another one, which is in a directory beside it. -/
def nestedTree : FileSystem where
  root := [((Path.ofString "src").bytes, .directory
    [((Path.ofString "a.js").bytes, .file (Path.ofString "import './lib/b'\n").bytes),
     ((Path.ofString "lib").bytes, .directory [((Path.ofString "b.js").bytes, .file [])])])]
  workingDirectory := []

def nestedSources : List Path := [Path.ofString "/src/a.js", Path.ofString "/src/lib/b.js"]

theorem nestedTree_target_is_source :
    Scan.root nestedTree Settings.defaults.root = .ok (Path.ofString "/src") ∧
      sources nestedTree .defaults (Path.ofString "/src") = .ok nestedSources ∧
      Resolution.ofSpecifier nestedTree Settings.defaults.extensions (.ofList [])
        (Path.ofString "/src/a.js") "./lib/b" = .resolved (Path.ofString "/src/lib/b.js") ∧
      Path.IsBetween (Path.ofString "/src") (Path.ofString "/src/lib")
        (Path.ofString "/src/lib/b.js") ∧
      ((∃ f ∈ nestedSources, f.same (Path.ofString "/src/lib/b.js") = true) ↔
        (∃ name ∈ (Path.ofString "/src/lib/b.js").fileName?,
          (Text.Utf8.read? name).isSome = true) ∧
        ∀ d, Path.IsBetween (Path.ofString "/src") d (Path.ofString "/src/lib/b.js") →
          nestedTree.IsRealDirectory d ∧ ∀ name ∈ d.fileName?, IsKept .defaults name) := by
  have hroot : Scan.root nestedTree Settings.defaults.root = .ok (Path.ofString "/src") := rfl
  have hsources : sources nestedTree .defaults (Path.ofString "/src") = .ok nestedSources :=
    sources_eq rfl rfl (by decide +kernel) (by decide +kernel)
  have hresolved : Resolution.ofSpecifier nestedTree Settings.defaults.extensions (.ofList [])
      (Path.ofString "/src/a.js") "./lib/b" = .resolved (Path.ofString "/src/lib/b.js") := by
    decide +kernel
  refine ⟨hroot, hsources, hresolved, ⟨by decide, by decide, by decide, by decide⟩, ?_⟩
  exact resolved_is_source_iff ⟨by decide +kernel, _, rfl⟩ hroot (by decide) rfl (by decide)
    hsources (by simp [nestedSources]) (.inl (by decide)) hresolved (by decide)

end Scan

end ImportCycles
