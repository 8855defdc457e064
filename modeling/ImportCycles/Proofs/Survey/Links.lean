import Mathlib.Data.Fin.VecNotation
import ImportCycles.Proofs.FileSystem.Spelling
import ImportCycles.Proofs.Scan.Agreement
import ImportCycles.Proofs.Search.Feedback
import ImportCycles.Proofs.Survey.Targets
/-!
Cycles through links. A link and the file it leads to are two nodes with one content, and the
imports of each are taken from its own directory. A ring of imports that closes when links are
followed shows as a cycle when following it never leaves the sources.
-/
namespace ImportCycles

open FileSystem (pathOf)

/-- The names of an absolute path lead, without any link, to a file. -/
def FileSystem.IsRegular (fs : FileSystem) (p : Path) : Prop :=
  ∃ content, fs.top.at? p.names = some (.file content)

namespace Survey

/-- Sources each of which imports the next one when links are followed: one of its specifiers
resolves to a path that leads to the same real path, and the last imports the first. -/
structure IsRing (fs : FileSystem) (settings : Settings) (files : List Path) {k : Nat}
    (file : Fin (k + 1) → Path) (specifier : Fin (k + 1) → String) (target : Fin (k + 1) → Path) :
    Prop where
  scanned : ∀ m, file m ∈ files
  extracted : ∀ m, specifier m ∈ specifiersOf fs settings (file m)
  resolved : ∀ m, resolve? fs settings (file m) (specifier m) = some (target m)
  real : ∀ m, fs.canonical? (target m) = fs.canonical? (file (m + 1))

/-- The paths that a ring comes to when it is followed from its first file: each specifier is taken
from the path reached before. -/
inductive Follows (fs : FileSystem) (settings : Settings) {k : Nat} (file : Fin (k + 1) → Path)
    (specifier : Fin (k + 1) → String) : Fin (k + 1) → Path → Prop
  | start : Follows fs settings file specifier 0 (file 0)
  | next {m : Fin (k + 1)} {p q : Path} (h : Follows fs settings file specifier m p)
      (leads : resolve? fs settings p (specifier m) = some q) :
      Follows fs settings file specifier (m + 1) q

variable {fs : FileSystem} {settings : Settings} {survey : Survey} {files : List Path}
  {p q origin target : Path} {specifier : String}

theorem isFile_of_resolve? (h : resolve? fs settings origin specifier = some target) :
    fs.isFile target = true := by
  obtain ⟨base, hbase⟩ := Resolution.exists_base_of_ofSpecifier (target?_eq_some.mp h)
  obtain ⟨_, -, -, hfile⟩ := Resolution.exists_probe_of_ofBase hbase
  exact hfile

/-- Of the file that holds it a relative specifier sees the directory only, and any other specifier
nothing. -/
theorem resolve?_congr (h : isRelativeSpecifier specifier = true → p.parent? = q.parent?) :
    resolve? fs settings p specifier = resolve? fs settings q specifier := by
  unfold resolve? Resolution.ofSpecifier
  by_cases hrelative : isRelativeSpecifier specifier = true
  · rw [if_pos hrelative, if_pos hrelative, h hrelative]
  · rw [if_neg hrelative, if_neg hrelative]

theorem resolve?_of_same (h : p.same q = true) :
    resolve? fs settings p specifier = resolve? fs settings q specifier := by
  apply resolve?_congr
  intro _
  have hcomponents : p.components = q.components := of_decide_eq_true h
  rw [Path.parent?, hcomponents, Path.parent?]

/-- A link holds the specifiers of the file that it leads to. -/
theorem specifiersOf_of_canonical? (hfs : fs.WellFormed) {real : Path}
    (hp : fs.canonical? p = some real) (hq : fs.canonical? q = some real) :
    specifiersOf fs settings p = specifiersOf fs settings q := by
  rw [specifiersOf, text?, FileSystem.read, hfs.locate_eq hp hq, specifiersOf, text?,
    FileSystem.read]

/-- A source that is the target of a ring holds the specifiers of the file that it stands for. -/
theorem specifiersOf_of_target {place : List Name} {entries : List (Name × Node)}
    {excluded : List NamePattern} {root : Path} (hfs : fs.WellFormed)
    (hended : Scan.Ended fs settings root files place entries excluded) (hq : q ∈ files)
    (hsame : q.same target = true) (hfile : fs.isFile target = true)
    (hreal : fs.canonical? target = fs.canonical? p) :
    specifiersOf fs settings q = specifiersOf fs settings p := by
  obtain ⟨names, -, hnames, rfl⟩ := hended.isSource_of_mem hfs hq
  obtain ⟨found, content, hlocate⟩ := FileSystem.isFile_iff.mp hfile
  have htarget : fs.canonical? target = some (pathOf found) :=
    FileSystem.canonical?_eq_some.mpr ⟨found, _, hlocate, rfl⟩
  have hlink := FileSystem.canonical?_pathOf hnames hsame hlocate
  exact specifiersOf_of_canonical? hfs (hlink.trans htarget) (hreal.symm.trans htarget)

/-- A ring of sources is reported as a cycle, if following it from its first file never leaves the
sources: each path that it comes to is itself a source, and the next specifier leads from there to
the next file of the ring, by whatever link. -/
theorem ring_is_reported {k : Nat} {file : Fin (k + 1) → Path} {specifier : Fin (k + 1) → String}
    {target : Fin (k + 1) → Path} (hfs : fs.WellFormed) (h : ofTree fs settings = .ok survey)
    (hfiles : Scan.sources fs settings survey.root = .ok files)
    (hring : IsRing fs settings files file specifier target)
    (hfollow : ∀ m p, Follows fs settings file specifier m p →
      (∃ f ∈ files, f.same p = true) ∧ ∃ q, resolve? fs settings p (specifier m) = some q ∧
        fs.canonical? q = fs.canonical? (file (m + 1))) :
    survey.cycles ≠ [] := by
  obtain ⟨files', place, entries, excluded, hsources, hended, hgraph, hcycles⟩ := exists_ended hfs h
  obtain rfl : files = files' := Except.ok.inj (hfiles.symm.trans hsources)
  have hwf : survey.graph.WellFormed := by
    rw [hgraph]
    exact (built_importGraph files).wellFormed
  intro hnone
  rw [hcycles] at hnone
  -- Each source that the ring comes to imports the next one, so the way has no end.
  have hnever : ∀ (i : Nat) m p f, Follows fs settings file specifier m p → files[i]? = some f →
      f.same p = true → specifiersOf fs settings f = specifiersOf fs settings (file m) → False := by
    intro i
    induction Graph.acc_imports hwf hnone i with
    | intro i _ ih =>
      intro m p f hp hf hsame hspecifiers
      obtain ⟨-, q, hq, hreal⟩ := hfollow m p hp
      have hnext := Follows.next hp hq
      obtain ⟨⟨g, hg, hgsame⟩, -⟩ := hfollow (m + 1) q hnext
      obtain ⟨j, hj⟩ := List.getElem?_of_mem hg
      have himports : survey.graph.Imports i j := by
        rw [hgraph, imports_importGraph_iff (hended.distinct hfs)]
        refine ⟨f, g, specifier m, q, hf, hj, ?_, ?_, hgsame⟩
        · rw [hspecifiers]
          exact hring.extracted m
        · rw [resolve?_of_same hsame]
          exact hq
      exact ih j himports (m + 1) q g hnext hj hgsame
        (specifiersOf_of_target hfs hended hg hgsame (isFile_of_resolve? hq) hreal)
  obtain ⟨i, hi⟩ := List.getElem?_of_mem (hring.scanned 0)
  exact hnever i 0 (file 0) (file 0) .start hi (by simp [Path.same]) rfl

/-- It is enough that each target is a source from where the next specifier leads to the same target
as from the file that it stands for: the ring then comes to its targets only. -/
theorem follow_of_onward {k : Nat} {file : Fin (k + 1) → Path} {specifier : Fin (k + 1) → String}
    {target : Fin (k + 1) → Path} {m : Fin (k + 1)}
    (hring : IsRing fs settings files file specifier target)
    (hnodes : ∀ m, ∃ f ∈ files, f.same (target m) = true)
    (honward : ∀ m, resolve? fs settings (target m) (specifier (m + 1)) = some (target (m + 1)))
    (h : Follows fs settings file specifier m p) :
    (∃ f ∈ files, f.same p = true) ∧ ∃ q, resolve? fs settings p (specifier m) = some q ∧
      fs.canonical? q = fs.canonical? (file (m + 1)) := by
  have hp : (m = 0 ∧ p = file 0) ∨ ∃ l, m = l + 1 ∧ p = target l := by
    induction h with
    | start => exact Or.inl ⟨rfl, rfl⟩
    | @next m p q _ hq ih =>
      refine Or.inr ⟨m, rfl, ?_⟩
      rcases ih with ⟨rfl, rfl⟩ | ⟨l, rfl, rfl⟩
      · exact Option.some.inj (hq.symm.trans (hring.resolved 0))
      · exact Option.some.inj (hq.symm.trans (honward l))
  rcases hp with ⟨rfl, rfl⟩ | ⟨l, rfl, rfl⟩
  · exact ⟨⟨file 0, hring.scanned 0, by simp [Path.same]⟩, target 0, hring.resolved 0,
      hring.real 0⟩
  · exact ⟨hnodes l, target (l + 1), honward l, hring.real (l + 1)⟩

/-- A link beside the file that it leads to. -/
def besideTree : FileSystem where
  root := [((Path.ofString "src").bytes, .directory
    [((Path.ofString "a.js").bytes, .file (Path.ofString "import './link'").bytes),
     ((Path.ofString "link.js").bytes, .link (Path.ofString "real.js")),
     ((Path.ofString "real.js").bytes, .file (Path.ofString "import './a.js'").bytes)])]
  workingDirectory := []

theorem wellFormed_besideTree : besideTree.WellFormed := ⟨by decide +kernel, _, rfl⟩

theorem isRing_besideTree : IsRing besideTree .defaults
    [Path.ofString "/src/a.js", Path.ofString "/src/link.js", Path.ofString "/src/real.js"]
    ![Path.ofString "/src/a.js", Path.ofString "/src/real.js"] !["./link", "./a.js"]
    ![Path.ofString "/src/link.js", Path.ofString "/src/a.js"] where
  scanned := by decide
  extracted := by
    have ha : specifiersOf besideTree .defaults (Path.ofString "/src/a.js") = ["./link"] :=
      (specifiersOf_eq rfl (by decide +kernel)).trans (by decide +kernel)
    have hreal : specifiersOf besideTree .defaults (Path.ofString "/src/real.js") = ["./a.js"] :=
      (specifiersOf_eq rfl (by decide +kernel)).trans (by decide +kernel)
    simp [Fin.forall_fin_two, ha, hreal]
  resolved := by decide +kernel
  real := by decide +kernel

theorem besideTree_reported : ∃ survey, ofTree besideTree .defaults = .ok survey ∧
    survey.cycles ≠ [] := by
  have hok : (ofTree besideTree .defaults).isOk = true := by decide +kernel
  have hroot : Scan.root besideTree Settings.defaults.root = .ok (Path.ofString "/src") := by rfl
  have hsources : Scan.sources besideTree .defaults (Path.ofString "/src") = .ok
      [Path.ofString "/src/a.js", Path.ofString "/src/link.js", Path.ofString "/src/real.js"] :=
    Scan.sources_eq rfl rfl (by decide +kernel) (by decide +kernel)
  obtain ⟨survey, hsurvey, hplace⟩ := exists_survey hok hroot
  rw [← hplace] at hsources
  refine ⟨survey, hsurvey, ?_⟩
  refine ring_is_reported wellFormed_besideTree hsurvey hsources isRing_besideTree ?_
  intro m p hp
  refine follow_of_onward isRing_besideTree (by decide) ?_ hp
  intro m
  rw [← isRing_besideTree.resolved (m + 1)]
  refine resolve?_congr fun _ => ?_
  revert m
  decide

theorem cycles_eq {targets : List (List Path)} (h : ofTree fs settings = .ok survey)
    (hfiles : Scan.sources fs settings survey.root = .ok files)
    (htargets : files.map (targetsOf fs settings) = targets) :
    survey.cycles = (Graph.ofImports files targets).1.cycles := by
  obtain ⟨files', -, hsources, hgraph, hcycles⟩ := exists_files h
  obtain rfl : files = files' := Except.ok.inj (hfiles.symm.trans hsources)
  rw [hcycles, hgraph, importGraph, htargets]

/-- A file that imports itself through a link to a directory, and two files of which one imports a
link to the other in another directory. -/
def hiddenTree : FileSystem where
  root := [((Path.ofString "src").bytes, .directory
    [((Path.ofString "a.js").bytes, .file (Path.ofString "import './self/a'").bytes),
     ((Path.ofString "b.js").bytes, .file (Path.ofString "import './sub/link'").bytes),
     ((Path.ofString "real.js").bytes, .file (Path.ofString "import './b'").bytes),
     ((Path.ofString "self").bytes, .link (Path.ofString ".")),
     ((Path.ofString "sub").bytes, .directory
       [((Path.ofString "link.js").bytes, .link (Path.ofString "../real.js"))])])]
  workingDirectory := []

def hiddenFiles : List Path :=
  [Path.ofString "/src/a.js", Path.ofString "/src/b.js", Path.ofString "/src/real.js",
    Path.ofString "/src/sub/link.js"]

theorem specifiersOf_hiddenTree : hiddenFiles.map (specifiersOf hiddenTree .defaults) =
    [["./self/a"], ["./sub/link"], ["./b"], ["./b"]] := by
  simp only [hiddenFiles, List.map_cons, List.map_nil, List.cons.injEq, and_true]
  refine ⟨?_, ?_, ?_, ?_⟩
  all_goals exact (specifiersOf_eq rfl (by decide +kernel)).trans (by decide +kernel)

theorem resolve?_hiddenTree :
    resolve? hiddenTree .defaults (Path.ofString "/src/a.js") "./self/a" =
        some (Path.ofString "/src/self/a.js") ∧
      resolve? hiddenTree .defaults (Path.ofString "/src/b.js") "./sub/link" =
        some (Path.ofString "/src/sub/link.js") ∧
      resolve? hiddenTree .defaults (Path.ofString "/src/real.js") "./b" =
        some (Path.ofString "/src/b.js") ∧
      resolve? hiddenTree .defaults (Path.ofString "/src/sub/link.js") "./b" = none := by
  decide +kernel

/-- With links a ring can be hidden: behind a link to a directory, whose entries are no sources of
their own, and by a link in another directory, from where the same specifier leads elsewhere. -/
theorem rings_hidden_by_links : ∃ survey, hiddenTree.WellFormed ∧
    ofTree hiddenTree .defaults = .ok survey ∧
    Scan.sources hiddenTree .defaults survey.root = .ok hiddenFiles ∧
    IsRing hiddenTree .defaults hiddenFiles ![Path.ofString "/src/a.js"] !["./self/a"]
      ![Path.ofString "/src/self/a.js"] ∧
    IsRing hiddenTree .defaults hiddenFiles
      ![Path.ofString "/src/b.js", Path.ofString "/src/real.js"] !["./sub/link", "./b"]
      ![Path.ofString "/src/sub/link.js", Path.ofString "/src/b.js"] ∧
    (∀ f ∈ [Path.ofString "/src/a.js", Path.ofString "/src/b.js", Path.ofString "/src/real.js"],
      hiddenTree.IsRegular f) ∧
    survey.cycles = [] := by
  have hok : (ofTree hiddenTree .defaults).isOk = true := by decide +kernel
  have hroot : Scan.root hiddenTree Settings.defaults.root = .ok (Path.ofString "/src") := by rfl
  have hsources : Scan.sources hiddenTree .defaults (Path.ofString "/src") = .ok hiddenFiles :=
    Scan.sources_eq rfl rfl (by decide +kernel) (by decide +kernel)
  have hspecifiers := specifiersOf_hiddenTree
  simp only [hiddenFiles, List.map_cons, List.map_nil, List.cons.injEq, and_true] at hspecifiers
  obtain ⟨ha, hb, hreal, hlink⟩ := hspecifiers
  obtain ⟨haTarget, hbTarget, hrealTarget, hlinkTarget⟩ := resolve?_hiddenTree
  obtain ⟨survey, hsurvey, hplace⟩ := exists_survey hok hroot
  rw [← hplace] at hsources
  refine ⟨survey, ⟨by decide +kernel, _, rfl⟩, hsurvey, hsources, ?_, ?_, ?_, ?_⟩
  · exact ⟨by decide, by simp [ha], by simp [haTarget], by decide +kernel⟩
  · exact ⟨by decide, by simp [Fin.forall_fin_two, hb, hreal],
      by simp [Fin.forall_fin_two, hbTarget, hrealTarget], by decide +kernel⟩
  · simp only [List.forall_mem_cons, List.not_mem_nil, false_imp_iff, implies_true, and_true]
    exact ⟨⟨_, rfl⟩, ⟨_, rfl⟩, ⟨_, rfl⟩⟩
  · rw [cycles_eq hsurvey hsources rfl]
    simp only [hiddenFiles, List.map_cons, List.map_nil, targetsOf_eq, ha, hb, hreal, hlink,
      List.filterMap_cons, haTarget, hbTarget, hrealTarget, hlinkTarget, List.filterMap_nil]
    cbv

end Survey

end ImportCycles
