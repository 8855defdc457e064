import ImportCycles.Report
import ImportCycles.Proofs.Alias.Below
import ImportCycles.Proofs.FileSystem.Links
import ImportCycles.Proofs.Scan.Sources
import ImportCycles.Proofs.Text.Utf8
/-!
The names of files in reports. A file below the root is named by the root as it was written with the
names that lead from there to the file, so the name says which file it is; and followed as a path
from the working directory it leads to the file, as long as the path is not too long and the links
to the root and those behind it are not too many together.
-/
namespace ImportCycles

open FileSystem (pathOf LeadsBy)

namespace Path

/-- The path is UTF-8. -/
def IsText (p : Path) : Prop := ∃ s : String, p = ofString s

/-- What stands between a path and a relative one taken below it. -/
def separator (p : Path) : List UInt8 :=
  if p.bytes = [] ∨ p.bytes.getLast? = some slash then [] else [slash]

variable {p q base : Path} {cs : List Char} {front back : List UInt8} {place names : List Name}

theorem isText_iff : p.IsText ↔ ∃ cs, p.bytes = Text.Utf8.encode cs := by
  constructor
  · rintro ⟨s, rfl⟩
    exact ⟨s.toList, rfl⟩
  · rintro ⟨cs, hcs⟩
    refine ⟨String.ofList cs, ?_⟩
    rw [ofString, String.toList_ofList, ← hcs]

/-- The text of a path that is UTF-8 spells it. -/
theorem IsText.ofString_display (h : p.IsText) : ofString p.display = p := by
  obtain ⟨s, rfl⟩ := h
  have hread : Text.Utf8.lenient (ofString s).bytes = s.toList := Text.Utf8.lenient_encode s.toList
  rw [display, hread, String.ofList_toList]

theorem IsText.join (hp : p.IsText) (hq : q.IsText) : (p.join q).IsText := by
  obtain ⟨cs, hcs⟩ := isText_iff.mp hp
  obtain ⟨ds, hds⟩ := isText_iff.mp hq
  rw [Path.join]
  split
  · exact hq
  split
  · exact isText_iff.mpr ⟨cs ++ ds, by rw [Text.Utf8.encode_append, hcs, hds]⟩
  · refine isText_iff.mpr ⟨cs ++ '/' :: ds, ?_⟩
    rw [Text.Utf8.encode_append, hcs, hds]
    rfl

/-- A text can be cut at each of its slashes. -/
theorem exists_encode_of_slash (h : Text.Utf8.encode cs = front ++ slash :: back) :
    ∃ ds, back = Text.Utf8.encode ds := by
  induction cs generalizing front with
  | nil => simp [Text.Utf8.encode] at h
  | cons c cs ih =>
    have hencode : Text.Utf8.encode (c :: cs) = Text.Utf8.encode [c] ++ Text.Utf8.encode cs := by
      simp [Text.Utf8.encode]
    rw [hencode, List.append_eq_append_iff] at h
    rcases h with ⟨between, rfl, hcs⟩ | ⟨between, hc, hback⟩
    · exact ih hcs
    · cases between with
      | nil =>
        have hcut : Text.Utf8.encode cs = [] ++ slash :: back := hback.symm
        exact ih hcut
      | cons b between =>
        obtain ⟨rfl, rfl⟩ := List.cons.inj hback
        obtain rfl : c = '/' := by
          by_contra hne
          have hslash : slash ∉ Text.Utf8.encode [c] :=
            Extension.slash_not_mem_encode (by simpa [eq_comm] using hne)
          exact hslash (by simp [hc])
        have hone : front.length + (slash :: between).length = [slash].length := by
          rw [← List.length_append, ← hc]
          rfl
        obtain rfl : between = [] := by
          apply List.eq_nil_of_length_eq_zero
          simp only [List.length_cons, List.length_nil] at hone
          omega
        exact ⟨cs, rfl⟩

theorem flatMap_eq_slash_unsplit (hn : AreEntryNames names) (hne : names ≠ []) :
    names.flatMap (slash :: ·) = slash :: unsplit names := by
  have hsplit := split_unsplit hne fun n hm => (hn n hm).noSlash
  calc names.flatMap (slash :: ·)
    _ = (split (unsplit names)).flatMap (slash :: ·) := by rw [hsplit]
    _ = slash :: unsplit names := flatMap_split

theorem exists_bytes_pathOf_append (hn : AreEntryNames (place ++ names)) (hne : names ≠ []) :
    ∃ front, (pathOf (place ++ names)).bytes = front ++ slash :: unsplit names := by
  refine ⟨place.flatMap (slash :: ·), ?_⟩
  rw [bytes_pathOf, ← flatMap_eq_slash_unsplit hn (by simp [hne]), List.flatMap_append,
    flatMap_eq_slash_unsplit (areEntryNames_append.mp hn).2 hne]

/-- What a text goes on with below a directory is a text. -/
theorem isText_below (hn : AreEntryNames (place ++ names)) (hne : names ≠ [])
    (h : (pathOf (place ++ names)).IsText) : (⟨unsplit names⟩ : Path).IsText := by
  obtain ⟨cs, hcs⟩ := isText_iff.mp h
  obtain ⟨front, hfront⟩ := exists_bytes_pathOf_append hn hne
  obtain ⟨ds, hds⟩ := exists_encode_of_slash (hcs.symm.trans hfront)
  exact isText_iff.mpr ⟨ds, hds⟩

theorem isAbsolute_unsplit (hn : AreEntryNames names) (hne : names ≠ []) :
    (⟨unsplit names⟩ : Path).isAbsolute = false := by
  obtain ⟨n, rest, rfl⟩ := List.exists_cons_of_ne_nil hne
  have hname := (areEntryNames_cons.mp hn).1
  obtain ⟨b, bytes, rfl⟩ := List.exists_cons_of_ne_nil hname.ne_nil
  have hb : b ≠ slash := by
    rintro rfl
    exact hname.noSlash List.mem_cons_self
  simp [isAbsolute, head?_unsplit, hb]

theorem dropComponents_of_isSome {parts : List (Name × Option Component)}
    (h : ∀ part ∈ parts, part.2.isSome = true) (n : Nat) :
    dropComponents n parts = parts.drop n := by
  induction parts generalizing n with
  | nil => cases n <;> rfl
  | cons part parts ih =>
    obtain ⟨hpart, hparts⟩ := List.forall_mem_cons.mp h
    obtain ⟨c, hc⟩ := Option.isSome_iff_exists.mp hpart
    obtain ⟨piece, component⟩ := part
    obtain rfl : component = some c := hc
    cases n with
    | zero => rfl
    | succ n => exact ih hparts n

theorem parts_pathOf (hn : AreEntryNames names) (hne : names ≠ []) :
    (pathOf names).parts = ([], some .root) :: names.map fun n => (n, some (.name n)) := by
  simp only [parts, split_pathOf hn, isAbsolute_pathOf, firstComponent?, if_true, if_neg hne]
  refine congrArg _ (List.map_congr_left fun n hm => ?_)
  rw [component?_entryName (hn n hm)]

/-- Names are spelled again as they are. -/
theorem respell_names (names : List Name) :
    respell (names.map fun n => (n, some (.name n))) = ⟨unsplit names⟩ := by
  have hkept : ∀ names : List Name, (names.map fun n => (n, some (Component.name n))).dropWhile
      (·.2.isNone) = names.map fun n => (n, some (.name n)) := by
    intro names
    cases names <;> rfl
  have htexts : (names.map fun n => (n, some (Component.name n))).map Prod.fst = names := by
    simp [List.map_map, Function.comp_def]
  rw [respell, hkept, ← List.map_reverse, hkept, ← List.map_reverse, List.reverse_reverse]
  split
  · next piece hroot =>
    cases names <;> simp at hroot
  · rw [htexts]

/-- Below a directory with a plain path the names are left that lead on from there. -/
theorem below?_pathOf (hn : AreEntryNames (place ++ names)) (hne : names ≠ []) :
    (pathOf (place ++ names)).below? (pathOf place) = some ⟨unsplit names⟩ := by
  obtain ⟨hplace, -⟩ := areEntryNames_append.mp hn
  have hprefix :
      (pathOf place).components.isPrefixOf (pathOf (place ++ names)).components = true := by
    rw [components_pathOf hn, components_pathOf hplace, List.isPrefixOf_iff_prefix]
    exact ⟨names.map .name, by simp⟩
  have hparts := parts_pathOf hn (by simp [hne])
  have hall : ∀ part ∈ (pathOf (place ++ names)).parts, part.2.isSome = true := by
    rw [hparts]
    intro part hpart
    rcases List.mem_cons.mp hpart with rfl | hpart
    · rfl
    · obtain ⟨n, -, rfl⟩ := List.mem_map.mp hpart
      rfl
  have hdrop : dropComponents (pathOf place).components.length (pathOf (place ++ names)).parts =
      names.map fun n => (n, some (.name n)) := by
    rw [dropComponents_of_isSome hall, hparts, components_pathOf hplace]
    simp
  rw [below?, if_pos hprefix, hdrop, respell_names]

theorem bytes_join (hq : q.isAbsolute = false) :
    (p.join q).bytes = p.bytes ++ (p.separator ++ q.bytes) := by
  rw [Path.join, if_neg (by simp [hq]), separator]
  split
  · rfl
  · rfl

theorem zero_notMem_separator : 0 ∉ p.separator := by
  rw [separator]
  split <;> decide

theorem join_relative_inj {r : Path} (hq : q.isAbsolute = false) (hr : r.isAbsolute = false)
    (h : p.join q = p.join r) : q = r := by
  have hbytes := congrArg Path.bytes h
  rw [bytes_join hq, bytes_join hr] at hbytes
  exact congrArg Path.mk (List.append_cancel_left (List.append_cancel_left hbytes))

end Path

namespace Report.Naming

variable {fs : FileSystem} {settings : Settings} {root written : Path} {files : List Path}
  {place names names' : List Name}

/-- Below the root a file is named by the names that lead to it from there, after the root as it was
written. -/
theorem ofString_name (hn : AreEntryNames (place ++ names)) (hne : names ≠ [])
    (hwritten : written.IsText) (htext : (pathOf (place ++ names)).IsText) :
    Path.ofString (name ⟨pathOf place, written⟩ (pathOf (place ++ names))) =
      written.join ⟨Path.unsplit names⟩ := by
  rw [name, Path.below?_pathOf hn hne]
  exact (hwritten.join (Path.isText_below hn hne htext)).ofString_display

theorem names_eq_of_name_eq (hn : AreEntryNames (place ++ names)) (hne : names ≠ [])
    (hn' : AreEntryNames (place ++ names')) (hne' : names' ≠ []) (hwritten : written.IsText)
    (htext : (pathOf (place ++ names)).IsText) (htext' : (pathOf (place ++ names')).IsText)
    (h : name ⟨pathOf place, written⟩ (pathOf (place ++ names)) =
      name ⟨pathOf place, written⟩ (pathOf (place ++ names'))) : names = names' := by
  have hnames := (areEntryNames_append.mp hn).2
  have hnames' := (areEntryNames_append.mp hn').2
  have hjoin : written.join ⟨Path.unsplit names⟩ = written.join ⟨Path.unsplit names'⟩ := by
    rw [← ofString_name hn hne hwritten htext, ← ofString_name hn' hne' hwritten htext', h]
  have hrest := Path.join_relative_inj (Path.isAbsolute_unsplit hnames hne)
    (Path.isAbsolute_unsplit hnames' hne') hjoin
  calc names
    _ = Path.split (Path.unsplit names) :=
      (Path.split_unsplit hne fun n hm => (hnames n hm).noSlash).symm
    _ = Path.split (Path.unsplit names') := by rw [Path.mk.inj hrest]
    _ = names' := Path.split_unsplit hne' fun n hm => (hnames' n hm).noSlash

/-- Files below one root, of whatever trees, have names of their own. -/
theorem eq_of_name_eq {fs' : FileSystem} {settings' : Settings} {files' : List Path}
    {place' : List Name} {entries entries' : List (Name × Node)}
    {excluded excluded' : List NamePattern} {f g : Path} (hfs : fs.WellFormed)
    (hfs' : fs'.WellFormed) (h : Scan.Ended fs settings root files place entries excluded)
    (h' : Scan.Ended fs' settings' root files' place' entries' excluded') (hf : f ∈ files)
    (hg : g ∈ files') (hwritten : written.IsText) (htext : f.IsText) (htext' : g.IsText)
    (hname : name ⟨root, written⟩ f = name ⟨root, written⟩ g) : f = g := by
  obtain rfl : place = place' :=
    Path.pathOf_inj (h.areEntryNames hfs) (h'.areEntryNames hfs') (by rw [← h.root_eq, h'.root_eq])
  obtain ⟨names, hsource, hn, rfl⟩ := h.isSource_of_mem hfs hf
  obtain ⟨names', hsource', hn', rfl⟩ := h'.isSource_of_mem hfs' hg
  rw [h.root_eq] at hname
  rw [names_eq_of_name_eq hn hsource.ne_nil hn' hsource'.ne_nil hwritten htext htext' hname]

/-- The way to a file below a real directory is gone on from that directory. -/
theorem reaches_below {entries : List (Name × Node)} {links : Nat} {found : List Name × Node}
    (hn : AreEntryNames (place ++ names)) (hne : names ≠ [])
    (hat : fs.top.at? place = some (.directory entries))
    (h : fs.LeadsBy links (pathOf (place ++ names)) found) :
    FileSystem.Reaches fs.root links place.reverse (Path.split (Path.unsplit names)) found := by
  obtain ⟨hplace, hnames⟩ := areEntryNames_append.mp hn
  rw [LeadsBy, FileSystem.start, if_pos Path.isAbsolute_pathOf, Path.split_pathOf hn,
    if_neg (by simp [hne])] at h
  rw [Path.split_unsplit hne fun n hm => (hnames n hm).noSlash]
  refine FileSystem.Reaches.of_directory hplace hat (h.plainer (.leaveOut (.inl rfl) ?_))
  exact FileSystem.Plainer.refl _

/-- Files of a scan that are named alike are the same file. And as a path from the working directory
the name of a file leads to what the file itself leads to, and nowhere else: just when the name is
not too long, and the links to the root as it was written and those of the file are not too many
together. -/
theorem names_identify_files {written : String} (hfs : fs.WellFormed)
    (hroot : Scan.root fs (Path.ofString written) = .ok root)
    (hfiles : Scan.sources fs settings root = .ok files) :
    (∀ f ∈ files, ∀ g ∈ files, f.IsText → g.IsText →
      name ⟨root, Path.ofString written⟩ f = name ⟨root, Path.ofString written⟩ g → f = g) ∧
    ∃ links directory, fs.LeadsBy links (Path.ofString written) directory ∧
      ∀ f ∈ files, f.IsText → ∀ found, fs.locate f = .ok found →
        ∃ more, fs.LeadsBy more f found ∧
          ∀ reached, fs.locate (Path.ofString (name ⟨root, Path.ofString written⟩ f)) = .ok reached ↔
            reached = found ∧
            (Path.ofString (name ⟨root, Path.ofString written⟩ f)).bytes.length ≤
              FileSystem.longestPath ∧
            links + more ≤ FileSystem.mostLinks := by
  obtain ⟨place, entries, excluded, hended⟩ := Scan.exists_ended hfs hroot hfiles
  obtain ⟨place', entries', hplace', hlocate⟩ := Scan.exists_directory_of_root hroot
  have hwritten : (Path.ofString written).IsText := ⟨written, rfl⟩
  obtain rfl := hended.root_eq
  obtain rfl : place = place' := by
    have hat' := hfs.at?_of_locate hlocate
    exact Path.pathOf_inj (hended.areEntryNames hfs) (hfs.tree.at? hat').1 (by rw [hplace'])
  constructor
  · intro f hf g hg htext htext' hname
    exact eq_of_name_eq hfs hfs hended hended hf hg hwritten htext htext' hname
  · obtain ⟨hnul, hsome, -, links, -, hleads⟩ := FileSystem.locate_eq_ok_iff_leadsBy.mp hlocate
    refine ⟨links, _, hleads, ?_⟩
    intro f hf htext found hfound
    obtain ⟨names, hsource, hn, rfl⟩ := hended.isSource_of_mem hfs hf
    obtain ⟨hnul', -, -, more, -, hmore⟩ := FileSystem.locate_eq_ok_iff_leadsBy.mp hfound
    refine ⟨more, hmore, fun reached => ?_⟩
    have hne := hsource.ne_nil
    have hrelative := Path.isAbsolute_unsplit (areEntryNames_append.mp hn).2 hne
    have hway : fs.LeadsBy (links + more) ((Path.ofString written).join ⟨Path.unsplit names⟩)
        found := hleads.join hsome hrelative (reaches_below hn hne hended.at_place hmore)
    have hplain : (0 : UInt8) ∉ Path.unsplit names := by
      obtain ⟨front, hfront⟩ := Path.exists_bytes_pathOf_append hn hne
      rw [hfront] at hnul'
      simp only [List.mem_append, List.mem_cons, not_or] at hnul'
      exact hnul'.2.2
    have hbytes := Path.bytes_join (p := Path.ofString written) hrelative
    rw [ofString_name hn hne hwritten htext, FileSystem.locate_eq_ok_iff_leadsBy]
    constructor
    · rintro ⟨-, -, hshort, count, hcount, hreached⟩
      obtain ⟨rfl, rfl⟩ := hreached.unique hway
      exact ⟨rfl, hshort, hcount⟩
    · rintro ⟨rfl, hshort, hcount⟩
      refine ⟨?_, by simp [hbytes, hsome], hshort, _, hcount, hway⟩
      rw [hbytes]
      simp only [List.mem_append, not_or]
      exact ⟨hnul, Path.zero_notMem_separator, hplain⟩

/-- The working directory has a link into the sources, and among these there is a link to a file. -/
def linkedRootTree : FileSystem where
  root := [((Path.ofString "w").bytes, .directory
    [((Path.ofString "src").bytes, .directory
       [((Path.ofString "a.js").bytes, .file []),
        ((Path.ofString "link.js").bytes, .link (Path.ofString "sub/b.js")),
        ((Path.ofString "sub").bytes, .directory [((Path.ofString "b.js").bytes, .file [])])]),
     ((Path.ofString "to").bytes, .link (Path.ofString "src/sub"))])]
  workingDirectory := [(Path.ofString "w").bytes]

theorem wellFormed_linkedRootTree : linkedRootTree.WellFormed := ⟨by decide +kernel, _, rfl⟩

def linkedRootFiles : List Path :=
  ["/w/src/a.js", "/w/src/link.js", "/w/src/sub/b.js"].map Path.ofString

theorem linkedRoot_names_identify :
    Scan.root linkedRootTree (Path.ofString "to/..//") = .ok (Path.ofString "/w/src") ∧
    Scan.sources linkedRootTree .defaults (Path.ofString "/w/src") = .ok linkedRootFiles ∧
    (∀ f ∈ linkedRootFiles, ∀ g ∈ linkedRootFiles,
      name ⟨Path.ofString "/w/src", Path.ofString "to/..//"⟩ f =
        name ⟨Path.ofString "/w/src", Path.ofString "to/..//"⟩ g → f = g) ∧
    linkedRootTree.locate (Path.ofString "to/..//link.js") =
      linkedRootTree.locate (Path.ofString "/w/src/link.js") := by
  have hroot : Scan.root linkedRootTree (Path.ofString "to/..//") =
      .ok (Path.ofString "/w/src") := by rfl
  have hsources : Scan.sources linkedRootTree .defaults (Path.ofString "/w/src") =
      .ok linkedRootFiles := Scan.sources_eq rfl rfl (by decide +kernel) (by decide +kernel)
  obtain ⟨hidentify, links, directory, hlinks, hopen⟩ :=
    names_identify_files wellFormed_linkedRootTree hroot hsources
  have htexts : ∀ f ∈ linkedRootFiles, f.IsText := by
    intro f hf
    obtain ⟨s, -, rfl⟩ := List.mem_map.mp hf
    exact ⟨s, rfl⟩
  have hlocate : linkedRootTree.locate (Path.ofString "/w/src/link.js") =
      .ok (["w", "src", "sub", "b.js"].map fun s => (Path.ofString s).bytes, .file []) := by rfl
  have hmem : Path.ofString "/w/src/link.js" ∈ linkedRootFiles := by decide
  obtain ⟨more, hmore, hname⟩ := hopen _ hmem (htexts _ hmem) _ hlocate
  have hlinks' : linkedRootTree.LeadsBy 1 (Path.ofString "to/..//")
      (["w", "src"].map fun s => (Path.ofString s).bytes, _) := .link rfl (by decide) (.arrived rfl)
  have hmore' : linkedRootTree.LeadsBy 1 (Path.ofString "/w/src/link.js")
      (["w", "src", "sub", "b.js"].map fun s => (Path.ofString s).bytes, .file []) :=
    .link rfl (by decide) (.arrived rfl)
  obtain ⟨rfl, -⟩ := hlinks.unique hlinks'
  obtain ⟨rfl, -⟩ := hmore.unique hmore'
  refine ⟨hroot, hsources, fun f hf g hg => hidentify f hf g hg (htexts f hf) (htexts g hg), ?_⟩
  rw [hlocate]
  have hwritten : name ⟨Path.ofString "/w/src", Path.ofString "to/..//"⟩
      (Path.ofString "/w/src/link.js") = "to/..//link.js" := by rfl
  rw [hwritten] at hname
  exact (hname _).mpr ⟨rfl, by decide, by decide⟩

/-- Links of which each leads to the one before it, and the first one to the sources. -/
def chainTree : FileSystem where
  root := ((Path.ofString "src").bytes, .directory
      [((Path.ofString "link.js").bytes, .link (Path.ofString "real.js")),
       ((Path.ofString "real.js").bytes, .file [])]) ::
    ([0x30], .link (Path.ofString "src")) ::
    (List.range 39).map fun i => ([UInt8.ofNat (0x31 + i)], .link ⟨[UInt8.ofNat (0x30 + i)]⟩)
  workingDirectory := []

theorem wellFormed_chainTree : chainTree.WellFormed := ⟨by decide +kernel, _, rfl⟩

theorem sources_chainTree : Scan.sources chainTree .defaults (Path.ofString "/src") =
    .ok [Path.ofString "/src/link.js", Path.ofString "/src/real.js"] :=
  Scan.sources_eq rfl rfl (by decide +kernel) (by decide +kernel)

/-- A spelling of the path to the sources that is almost as long as a path can be. -/
def longWay : List Char := (List.replicate 2045 ['.', '/']).flatten ++ ['s', 'r', 'c']

theorem locate_too_long {fs : FileSystem} {p : Path} (hnul : 0 ∉ p.bytes)
    (hlong : FileSystem.longestPath < p.bytes.length) : fs.locate p = .error .nameTooLong := by
  have hne : p.bytes ≠ [] := by
    intro hnil
    simp [hnil] at hlong
  simp [FileSystem.locate, hnul, hne, hlong]

/-- The name of a file can be refused as a path although the file is found by its own path: with
links on the way to the root it can meet one link too many, and after a long spelling of the root it
can be too long. -/
theorem display_names_refused : chainTree.WellFormed ∧
    Scan.sources chainTree .defaults (Path.ofString "/src") =
      .ok [Path.ofString "/src/link.js", Path.ofString "/src/real.js"] ∧
    (Scan.root chainTree (Path.ofString "W") = .ok (Path.ofString "/src") ∧
      (chainTree.locate (Path.ofString "/src/link.js")).isOk = true ∧
      chainTree.locate (Path.ofString (name ⟨Path.ofString "/src", Path.ofString "W"⟩
        (Path.ofString "/src/link.js"))) = .error .tooManyLinks) ∧
    Scan.root chainTree (Path.ofString (String.ofList longWay)) = .ok (Path.ofString "/src") ∧
      (chainTree.locate (Path.ofString "/src/real.js")).isOk = true ∧
      chainTree.locate (Path.ofString (name ⟨Path.ofString "/src",
        Path.ofString (String.ofList longWay)⟩ (Path.ofString "/src/real.js"))) =
          .error .nameTooLong := by
  refine ⟨wellFormed_chainTree, sources_chainTree, ⟨rfl, rfl, rfl⟩, ?_, rfl, ?_⟩
  · rw [Path.ofString, String.toList_ofList]
    decide +kernel
  · have hn : AreEntryNames (["src"].map (fun s => (Path.ofString s).bytes) ++
        ["real.js"].map fun s => (Path.ofString s).bytes) := by decide +kernel
    have hwritten : (Path.ofString (String.ofList longWay)).IsText := ⟨_, rfl⟩
    have hname := ofString_name hn (by simp) hwritten ⟨"/src/real.js", rfl⟩
    have hplace : pathOf (["src"].map fun s => (Path.ofString s).bytes) = Path.ofString "/src" := rfl
    have hfile : pathOf (["src"].map (fun s => (Path.ofString s).bytes) ++
        ["real.js"].map fun s => (Path.ofString s).bytes) = Path.ofString "/src/real.js" := rfl
    rw [hplace, hfile] at hname
    rw [hname, Path.ofString, String.toList_ofList]
    exact locate_too_long (by decide +kernel) (by decide +kernel)

end Report.Naming

end ImportCycles
