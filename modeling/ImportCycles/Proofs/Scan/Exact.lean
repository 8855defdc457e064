import ImportCycles.Proofs.FileSystem.Reordered
import ImportCycles.Proofs.Path.Order
import ImportCycles.Proofs.Scan.Agreement
/-!
The result of a scan without ignore files: an error for the first malformed pattern, and otherwise
the list of all sources in directories that can be opened, in strict order, whatever the order in
which directories list their entries.
-/
namespace ImportCycles

open FileSystem (pathOf)

/-- The path of what the names lead to from `p` on. -/
def Path.along (p : Path) (names : List Name) : Path := names.foldl child p

/-- What the names lead to from the directory `root` on when no link is followed. -/
def FileSystem.entry? (fs : FileSystem) (root : Path) (names : List Name) : Option Node :=
  fs.top.at? (root.names ++ names)

theorem Path.along_pathOf {place names : List Name} (h : AreEntryNames (place ++ names)) :
    (pathOf place).along names = pathOf (place ++ names) := by
  induction names generalizing place with
  | nil => rw [List.append_nil]; rfl
  | cons n names ih =>
    obtain ⟨hplace, hnames⟩ := areEntryNames_append.mp h
    obtain ⟨hn, -⟩ := areEntryNames_cons.mp hnames
    have hsplit : place ++ n :: names = place ++ [n] ++ names := by simp
    rw [hsplit] at h ⊢
    rw [← ih h, ← child_pathOf hplace hn]
    rfl

namespace Scan

/-- The names lead from the root to a file, or to a link to one, whose name is that of a source,
through directories whose names are kept. -/
structure IsCandidate (fs : FileSystem) (settings : Settings) (root : Path) (names : List Name) :
    Prop where
  ne_nil : names ≠ []
  entered : ∀ before n after, names = before ++ n :: after → after ≠ [] →
    IsKept settings n ∧ ∃ entries, fs.entry? root (before ++ [n]) = some (.directory entries)
  named : ∀ n ∈ names.getLast?, IsSourceName settings.extensions n
  leads : (∃ content, fs.entry? root names = some (.file content)) ∨
    (∃ target, fs.entry? root names = some (.link target)) ∧ fs.isFile (root.along names) = true

/-- A candidate is listed when the directories on its way can be opened. -/
structure IsListed (fs : FileSystem) (settings : Settings) (root : Path) (names : List Name) : Prop
    extends IsCandidate fs settings root names where
  opened : ∀ before n after, names = before ++ n :: after → after ≠ [] →
    FileSystem.IsInBounds (root.along (before ++ [n]))

def IsPattern (text : String) : Prop := ∃ pattern, NamePattern.ofText text = .ok pattern

/-- The failure names the first of the texts that is no pattern. -/
def IsFirstMalformed (texts : List String) (failure : Failure) : Prop :=
  ∃ before text after fault, texts = before ++ text :: after ∧
    (∀ t ∈ before, IsPattern t) ∧
    NamePattern.ofText text = .error fault ∧ failure = .excludeMalformed text fault

variable {fs fs' : FileSystem} {settings : Settings} {root p t : Path} {files : List Path}
  {place names : List Name} {entries : List (Name × Node)} {excluded : List NamePattern}
  {texts : List String} {failure : Failure} {node : Node}

theorem patterns_eq_error_iff :
    patterns texts = .error failure ↔ IsFirstMalformed texts failure := by
  induction texts with
  | nil => simp [patterns, IsFirstMalformed]
  | cons text texts ih =>
    unfold patterns
    cases htext : NamePattern.ofText text with
    | error fault =>
      constructor
      · intro h
        exact ⟨[], text, texts, fault, rfl, by simp, htext, (Except.error.inj h).symm⟩
      · rintro ⟨before, text', after, fault', heq, hbefore, hfault', rfl⟩
        cases before with
        | nil =>
          obtain ⟨rfl, -⟩ := List.cons.inj heq
          rw [Except.error.inj (htext.symm.trans hfault')]
        | cons first before =>
          obtain ⟨rfl, -⟩ := List.cons.inj heq
          obtain ⟨pattern, hpattern⟩ := hbefore text (by simp)
          simp [htext] at hpattern
    | ok pattern =>
      have hrest : (patterns texts).map (pattern :: ·) = .error failure ↔
          patterns texts = .error failure := by
        cases patterns texts <;> simp [Except.map]
      refine hrest.trans (ih.trans ?_)
      constructor
      · rintro ⟨before, text', after, fault, rfl, hbefore, hfault, rfl⟩
        exact ⟨text :: before, text', after, fault, rfl,
          List.forall_mem_cons.mpr ⟨⟨pattern, htext⟩, hbefore⟩, hfault, rfl⟩
      · rintro ⟨before, text', after, fault, heq, hbefore, hfault, rfl⟩
        cases before with
        | nil =>
          obtain ⟨rfl, -⟩ := List.cons.inj heq
          simp [htext] at hfault
        | cons first before =>
          obtain ⟨-, rfl⟩ := List.cons.inj heq
          exact ⟨before, text', after, fault, rfl, (List.forall_mem_cons.mp hbefore).2, hfault, rfl⟩

theorem sources_eq_error_iff :
    sources fs settings root = .error failure ↔ IsFirstMalformed settings.excluded failure := by
  rw [← patterns_eq_error_iff]
  unfold sources
  cases patterns settings.excluded with
  | error other => simp
  | ok excluded =>
    dsimp only
    split <;> simp

/-- Where no pattern is malformed there is a list of files. -/
theorem exists_sources (fs : FileSystem) (root : Path)
    (h : ∀ text ∈ settings.excluded, IsPattern text) :
    ∃ files, sources fs settings root = .ok files := by
  cases hsources : sources fs settings root with
  | ok files => exact ⟨files, rfl⟩
  | error failure =>
    obtain ⟨before, text, after, fault, heq, -, hfault, -⟩ := sources_eq_error_iff.mp hsources
    obtain ⟨pattern, hpattern⟩ := h text (by simp [heq])
    simp [hfault] at hpattern

theorem IsCandidate.reordered (h : IsCandidate fs settings root names) (hfs : fs.Reordered fs') :
    IsCandidate fs' settings root names where
  ne_nil := h.ne_nil
  entered before n after heq hafter := by
    obtain ⟨hkept, entries, hentry⟩ := h.entered before n after heq hafter
    obtain ⟨_, hentry', hnode⟩ := hfs.top.exists_at? hentry
    cases hnode with
    | directory names inner => exact ⟨hkept, _, hentry'⟩
  named := h.named
  leads := by
    rcases h.leads with ⟨content, hfile⟩ | ⟨⟨target, hlink⟩, hisFile⟩
    · obtain ⟨_, hfile', hnode⟩ := hfs.top.exists_at? hfile
      cases hnode with
      | file content => exact .inl ⟨content, hfile'⟩
    · obtain ⟨_, hlink', hnode⟩ := hfs.top.exists_at? hlink
      cases hnode with
      | link target => exact .inr ⟨⟨target, hlink'⟩, (hfs.isFile_eq _).trans hisFile⟩

theorem IsListed.reordered (h : IsListed fs settings root names) (hfs : fs.Reordered fs') :
    IsListed fs' settings root names :=
  ⟨h.toIsCandidate.reordered hfs, h.opened⟩

namespace Ended

theorem entry?_eq (h : Ended fs settings root files place entries excluded) (hfs : fs.WellFormed)
    (names : List Name) : fs.entry? root names = (Node.directory entries).at? names := by
  rw [FileSystem.entry?, h.root_eq, Path.names_pathOf (h.areEntryNames hfs), h.top_at?_append]

theorem along_eq (h : Ended fs settings root files place entries excluded) (hfs : fs.WellFormed)
    (hat : (Node.directory entries).at? names = some node) :
    root.along names = pathOf (place ++ names) := by
  rw [h.root_eq, Path.along_pathOf (h.areEntryNames_of_at? hfs hat)]

/-- A real directory below the root is opened unless its path is refused. -/
theorem isDirectory_iff_isInBounds (h : Ended fs settings root files place entries excluded)
    (hfs : fs.WellFormed) {inner : List (Name × Node)}
    (hat : (Node.directory entries).at? names = some (.directory inner)) :
    fs.isDirectory (pathOf (place ++ names)) = true ↔
      FileSystem.IsInBounds (root.along names) := by
  rw [h.along_eq hfs hat]
  exact FileSystem.isDirectory_pathOf (h.areEntryNames_of_at? hfs hat)
    ((h.top_at?_append names).trans hat)

theorem isSource_iff_isListed (h : Ended fs settings root files place entries excluded)
    (hfs : fs.WellFormed) :
    IsSource (searchOf fs settings excluded) place (.directory entries) names ↔
      IsListed fs settings root names := by
  have hstep : ∀ before n, (isExcluded excluded n = false ∧
      fs.isDirectory (pathOf (place ++ (before ++ [n]))) = true ∧
      ∃ inner, (Node.directory entries).at? (before ++ [n]) = some (.directory inner)) ↔
      (IsKept settings n ∧ ∃ inner, fs.entry? root (before ++ [n]) = some (.directory inner)) ∧
        FileSystem.IsInBounds (root.along (before ++ [n])) := by
    intro before n
    rw [h.entry?_eq hfs, isExcluded_eq_false_iff h.patterns_eq, and_assoc]
    refine and_congr_right fun _ => and_comm.trans (and_congr_right fun ⟨inner, hat⟩ => ?_)
    exact h.isDirectory_iff_isInBounds hfs hat
  have hend : ((∃ content, (Node.directory entries).at? names = some (.file content)) ∨
        (∃ target, (Node.directory entries).at? names = some (.link target)) ∧
          fs.isFile (pathOf (place ++ names)) = true) ↔
      (∃ content, fs.entry? root names = some (.file content)) ∨
        (∃ target, fs.entry? root names = some (.link target)) ∧
          fs.isFile (root.along names) = true := by
    rw [h.entry?_eq hfs]
    refine or_congr_right (and_congr_right fun ⟨target, hat⟩ => ?_)
    rw [h.along_eq hfs hat]
  constructor
  · intro hs
    have hway := fun before n after heq hne =>
      (hstep before n).mp (hs.entered before n after heq hne)
    exact ⟨⟨hs.ne_nil, fun before n after heq hne => (hway before n after heq hne).1,
      fun n hn => Probe.recognizes_iff.mp (hs.recognized n hn), hend.mp hs.candidate⟩,
      fun before n after heq hne => (hway before n after heq hne).2⟩
  · intro hl
    exact ⟨hl.ne_nil, fun before n after heq hne =>
        (hstep before n).mpr ⟨hl.entered _ _ _ heq hne, hl.opened _ _ _ heq hne⟩,
      fun n hn => Probe.recognizes_iff.mpr (hl.named n hn), hend.mpr hl.leads⟩

/-- A source has one path, however that is put together. -/
theorem isSource_at_iff (h : Ended fs settings root files place entries excluded)
    (hfs : fs.WellFormed) :
    IsSource (searchOf fs settings excluded) place (.directory entries) names ∧
        t = pathOf (place ++ names) ↔
      IsListed fs settings root names ∧ t = root.along names := by
  rw [h.isSource_iff_isListed hfs]
  refine and_congr_right fun hl => ?_
  obtain ⟨found, hat⟩ := ((h.isSource_iff_isListed hfs).mpr hl).exists_at?
  rw [h.along_eq hfs hat]

theorem mem_iff_isListed (h : Ended fs settings root files place entries excluded)
    (hfs : fs.WellFormed) (hi : settings.followsIgnoreFiles = false)
    (hfound : ∃ found, fs.locate root = .ok found) :
    t ∈ files ↔ ∃ names, IsListed fs settings root names ∧ t = root.along names := by
  rw [h.mem_iff hfs hi hfound]
  exact exists_congr fun names => h.isSource_at_iff hfs

theorem sorted (h : Ended fs settings root files place entries excluded) (hfs : fs.WellFormed) :
    files.Pairwise fun p q => p.orderKey < q.orderKey := by
  have hdistinct := h.distinct hfs
  rcases h.files_eq with ⟨rfl, -⟩ | ⟨-, rfl⟩
  · exact .nil
  · exact Path.pairwise_orderKey_sort hdistinct

end Ended

theorem root_reordered (h : fs.Reordered fs') (p : Path) : Scan.root fs' p = Scan.root fs p := by
  simp only [Scan.root, h.exists?_eq, h.isDirectory_eq, h.canonical?_eq]

theorem exists_located_of_root (h : Scan.root fs p = .ok root) :
    ∃ found, fs.locate p = .ok found := by
  unfold Scan.root at h
  split at h
  · simp at h
  · next hexists =>
    rw [Bool.not_eq_true', Bool.not_eq_false, FileSystem.exists?] at hexists
    cases hlocate : fs.locate p with
    | error fault => simp [hlocate, Except.isOk, Except.toBool] at hexists
    | ok found => exact ⟨found, rfl⟩

theorem listed_of_sources (hfs : fs.WellFormed) (hroot : Scan.root fs root = .ok root)
    (hi : settings.followsIgnoreFiles = false) (h : sources fs settings root = .ok files) :
    files.Pairwise (fun p q => p.orderKey < q.orderKey) ∧
      ∀ t, t ∈ files ↔ ∃ names, IsListed fs settings root names ∧ t = root.along names := by
  obtain ⟨place, entries, excluded, hended⟩ := exists_ended hfs hroot h
  exact ⟨hended.sorted hfs, fun t => hended.mem_iff_isListed hfs hi (exists_located_of_root hroot)⟩

theorem sources_reordered (hfs : fs.WellFormed) (hroot : Scan.root fs root = .ok root)
    (hi : settings.followsIgnoreFiles = false) (h : fs.Reordered fs') :
    sources fs' settings root = sources fs settings root := by
  cases hs : sources fs settings root with
  | error failure => exact sources_eq_error_iff.mpr (sources_eq_error_iff.mp hs)
  | ok files =>
    cases hs' : sources fs' settings root with
    | error failure =>
      have hfailure : sources fs settings root = .error failure :=
        sources_eq_error_iff.mpr (sources_eq_error_iff.mp hs')
      simp [hs] at hfailure
    | ok files' =>
      have hroot' : Scan.root fs' root = .ok root := (root_reordered h root).trans hroot
      obtain ⟨hsorted, hmem⟩ := listed_of_sources hfs hroot hi hs
      obtain ⟨hsorted', hmem'⟩ := listed_of_sources (hfs.reordered h) hroot' hi hs'
      have hlisted : ∀ names, IsListed fs' settings root names ↔ IsListed fs settings root names :=
        fun names => ⟨fun hl => hl.reordered h.symm, fun hl => hl.reordered h⟩
      rw [Path.eq_of_mem_iff hsorted' hsorted fun t => by rw [hmem, hmem']; simp only [hlisted]]

/-- The result of a scan without ignore files. The first malformed pattern is an error. Otherwise
the list is in strict order and holds just the sources to which directories lead that can be opened:
the root itself may have any name, and in which order directories list their entries does not
matter. -/
theorem sources_exact (hfs : fs.WellFormed) (hroot : Scan.root fs root = .ok root)
    (hi : settings.followsIgnoreFiles = false) :
    (∀ failure, sources fs settings root = .error failure ↔
      IsFirstMalformed settings.excluded failure) ∧
    ((∀ text ∈ settings.excluded, IsPattern text) →
      ∃ files, sources fs settings root = .ok files ∧
        files.Pairwise (fun p q => p.orderKey < q.orderKey) ∧
        ∀ t, t ∈ files ↔ ∃ names, IsListed fs settings root names ∧ t = root.along names) ∧
    ∀ fs', fs.Reordered fs' → sources fs' settings root = sources fs settings root := by
  refine ⟨fun failure => sources_eq_error_iff, fun hpatterns => ?_,
    fun fs' h => sources_reordered hfs hroot hi h⟩
  obtain ⟨files, hfiles⟩ := exists_sources fs root hpatterns
  exact ⟨files, hfiles, listed_of_sources hfs hroot hi hfiles⟩

/-- The root has the name of an excluded directory. Below it are a file, a link to it, and a file in
each of two directories, one of which is excluded. -/
def vendoredTree : FileSystem where
  root := [((Path.ofString "vendor").bytes, .directory
    [((Path.ofString "a.js").bytes, .link (Path.ofString "b.js")),
     ((Path.ofString "b.js").bytes, .file []),
     ((Path.ofString "lib").bytes, .directory [((Path.ofString "c.mjs").bytes, .file [])]),
     ((Path.ofString "node_modules").bytes, .directory
       [((Path.ofString "d.js").bytes, .file [])])])]
  workingDirectory := []

def vendoredSources : List Path :=
  [Path.ofString "/vendor/a.js", Path.ofString "/vendor/b.js", Path.ofString "/vendor/lib/c.mjs"]

theorem vendoredTree_sources :
    Scan.root vendoredTree (Path.ofString "/vendor") = .ok (Path.ofString "/vendor") ∧
      sources vendoredTree .defaults (Path.ofString "/vendor") = .ok vendoredSources ∧
      (∀ t, t ∈ vendoredSources ↔ ∃ names,
        IsListed vendoredTree .defaults (Path.ofString "/vendor") names ∧
          t = (Path.ofString "/vendor").along names) ∧
      ∀ fs', vendoredTree.Reordered fs' →
        sources fs' .defaults (Path.ofString "/vendor") = .ok vendoredSources := by
  have hroot : Scan.root vendoredTree (Path.ofString "/vendor") =
      .ok (Path.ofString "/vendor") := rfl
  have hsources : sources vendoredTree .defaults (Path.ofString "/vendor") = .ok vendoredSources :=
    sources_eq rfl rfl (by decide +kernel) (by decide +kernel)
  obtain ⟨-, hlisted, hreordered⟩ :=
    sources_exact ⟨by decide +kernel, _, rfl⟩ hroot (rfl : Settings.defaults.followsIgnoreFiles = _)
  obtain ⟨files, hfiles, -, hmem⟩ := hlisted (by
    intro text htext
    simp only [Settings.defaults, List.mem_cons, List.not_mem_nil, or_false] at htext
    rcases htext with rfl | rfl | rfl | rfl | rfl | rfl <;> exact ⟨_, rfl⟩)
  obtain rfl : vendoredSources = files := Except.ok.inj (hsources.symm.trans hfiles)
  exact ⟨hroot, hsources, hmem, fun fs' h => (hreordered fs' h).trans hsources⟩

/-- A name of 250 bytes. -/
def longName : Name := List.replicate 250 0x64

/-- A file in the innermost of so many directories, each in the one before. -/
def nestedEntries : Nat → List (Name × Node)
  | 0 => [((Path.ofString "a.js").bytes, .file [])]
  | depth + 1 => [(longName, .directory (nestedEntries depth))]

theorem at?_nestedEntries (depth more : Nat) :
    (Node.directory (nestedEntries (depth + more))).at? (List.replicate depth longName) =
      some (.directory (nestedEntries more)) := by
  induction depth with
  | zero => rw [Nat.zero_add]; rfl
  | succ depth ih =>
    rw [Nat.succ_add, List.replicate_succ, Node.at?_cons]
    simpa [Node.child?, nestedEntries] using ih

/-- A file in a directory whose path is longer than any that can be opened. -/
def deepTree : FileSystem where
  root := [((Path.ofString "src").bytes, .directory (nestedEntries 17))]
  workingDirectory := []

def deepNames : List Name := List.replicate 17 longName ++ [(Path.ofString "a.js").bytes]

theorem entry?_deepTree (names : List Name) :
    deepTree.entry? (Path.ofString "/src") names =
      (Node.directory (nestedEntries 17)).at? names := rfl

theorem isCandidate_deepNames :
    IsCandidate deepTree .defaults (Path.ofString "/src") deepNames where
  ne_nil := by simp [deepNames]
  entered before n after heq hafter := by
    obtain ⟨front, last, rfl⟩ := (List.eq_nil_or_concat' after).resolve_left hafter
    rw [deepNames, ← List.cons_append, ← List.append_assoc] at heq
    have hway : before ++ [n] ++ front = List.replicate 17 longName := by
      rw [(List.append_inj' heq rfl).1, List.append_assoc, List.singleton_append]
    obtain ⟨hlength, hbefore, -⟩ := List.append_eq_replicate_iff.mp hway
    have hn : n = longName := by
      have hmem : n ∈ before ++ [n] := by simp
      rw [hbefore] at hmem
      exact List.eq_of_mem_replicate hmem
    refine ⟨?_, nestedEntries front.length, ?_⟩
    · rw [hn, ← isExcluded_eq_false_iff (rfl : patterns Settings.defaults.excluded = _)]
      decide +kernel
    · have hat := at?_nestedEntries (before ++ [n]).length front.length
      rw [hlength, ← hbefore] at hat
      exact (entry?_deepTree _).trans hat
  named := by
    intro n hn
    rw [deepNames, List.getLast?_concat, Option.mem_some_iff] at hn
    subst hn
    exact Probe.recognizes_iff.mp (by decide +kernel)
  leads := by
    have hfile : (Node.directory (nestedEntries 17)).at? deepNames = some (.file []) :=
      Node.at?_concat_eq_some.mpr ⟨nestedEntries 0, at?_nestedEntries 17 0, List.lookup_cons_self⟩
    exact .inl ⟨[], (entry?_deepTree deepNames).trans hfile⟩

/-- The directory of a candidate can be so deep that it cannot be opened, and then the candidate is
not listed. -/
theorem deep_candidate_not_listed :
    deepTree.WellFormed ∧ Scan.root deepTree (Path.ofString "/src") = .ok (Path.ofString "/src") ∧
      Settings.defaults.followsIgnoreFiles = false ∧
      IsCandidate deepTree .defaults (Path.ofString "/src") deepNames ∧
      sources deepTree .defaults (Path.ofString "/src") = .ok [] := by
  have hsources : sources deepTree .defaults (Path.ofString "/src") = .ok [] :=
    sources_eq rfl rfl (by decide +kernel) .nil
  exact ⟨⟨by decide +kernel, _, rfl⟩, rfl, rfl, isCandidate_deepNames, hsources⟩

end Scan

end ImportCycles
