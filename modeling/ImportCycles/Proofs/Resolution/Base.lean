import ImportCycles.Resolution
import ImportCycles.Proofs.FileSystem.Lexical
/-!
The base of a relative specifier is a normal form, found without looking at any file. It denotes
what the file system reaches from the directory of the file that holds the specifier, as long as no
link is left by a step up.
-/
namespace ImportCycles

open FileSystem (pathOf)

namespace Path

variable {p directory : Path} {cs : List Component}

theorem isAbsolute_ofComponents : (ofComponents (.root :: cs)).isAbsolute = true := by
  cases cs <;> rfl

theorem isAbsolute_parent? (hp : p.isAbsolute = true) (h : p.parent? = some directory) :
    directory.isAbsolute = true := by
  unfold parent? at h
  rw [components_eq_root_cons hp] at h
  cases hsteps : p.steps with
  | nil => simp [hsteps] at h
  | cons c rest =>
    rw [hsteps] at h
    split at h
    · simp at h
    · simp at h
    · obtain rfl := Option.some.inj h
      rw [List.dropLast_cons_of_ne_nil (by simp)]
      exact isAbsolute_ofComponents

end Path

namespace Resolution

/-- An absolute path that traverses no link before a later step up leads to the same file or
directory as its normal form. So the base of a relative specifier denotes what the specifier, taken
from the directory of its file, leads to. -/
theorem normal_leads_alike (fs : FileSystem) :
    (∀ (p : Path) (found : List Name × Node), p.isAbsolute = true → fs.LeavesNoLink p →
      fs.locate p = .ok found → fs.locate p.normal = .ok found) ∧
    ∀ (extensions : List String) (aliases : AliasTable) (origin directory written : Path)
      (specifier : String) (found : List Name × Node),
      origin.isAbsolute = true → origin.parent? = some directory →
      isRelativeSpecifier specifier = true →
      written = directory.join (Path.ofString specifier) → fs.LeavesNoLink written →
      fs.locate written = .ok found →
      ∃ base, ofSpecifier fs extensions aliases origin specifier = ofBase fs extensions base ∧
        base = written.normal ∧ fs.locate base = .ok found := by
  refine ⟨fun p found => FileSystem.locate_normal, ?_⟩
  rintro extensions aliases origin directory - specifier found horigin hparent hrelative rfl
    hlinks h
  have hdirectory := Path.isAbsolute_parent? horigin hparent
  refine ⟨_, ?_, rfl, FileSystem.locate_normal (Path.isAbsolute_join hdirectory) hlinks h⟩
  rw [ofSpecifier, if_pos hrelative, hparent]

/-- A directory beside a file, with a link to the file in it. -/
def linkedTree : FileSystem where
  root := [((Path.ofString "src").bytes, .directory
    [((Path.ofString "b.js").bytes, .file []),
     ((Path.ofString "lib").bytes, .directory
       [((Path.ofString "link.js").bytes, .link (Path.ofString "../b.js"))])])]
  workingDirectory := []

theorem linkedTree_leads_alike :
    linkedTree.LeavesNoLink (Path.ofString "/src/lib/../lib/./link.js") ∧
      linkedTree.locate (Path.ofString "/src/lib/../lib/./link.js").normal =
        .ok ([(Path.ofString "src").bytes, (Path.ofString "b.js").bytes], .file []) ∧
      ∃ base, ofSpecifier linkedTree ["js"] (.ofList []) (Path.ofString "/src/lib/c.js")
          "../lib/./link.js" = ofBase linkedTree ["js"] base ∧
        base = (Path.ofString "/src/lib/../lib/./link.js").normal ∧
        linkedTree.locate base =
          .ok ([(Path.ofString "src").bytes, (Path.ofString "b.js").bytes], .file []) := by
  have hlinks : linkedTree.LeavesNoLink (Path.ofString "/src/lib/../lib/./link.js") := by
    decide +kernel
  refine ⟨hlinks, ?_, ?_⟩
  · exact (normal_leads_alike linkedTree).1 _ _ rfl hlinks rfl
  · exact (normal_leads_alike linkedTree).2 ["js"] (.ofList []) (Path.ofString "/src/lib/c.js")
      (Path.ofString "/src/lib") _ "../lib/./link.js" _ rfl rfl rfl rfl hlinks rfl

/-- A step up out of a link to a directory leads elsewhere than by name. -/
example : (⟨[((Path.ofString "a").bytes, .directory [((Path.ofString "b").bytes, .directory [])]),
      ((Path.ofString "c").bytes, .link (Path.ofString "/a/b"))], []⟩ : FileSystem).canonical?
        (Path.ofString "/c/..") = some (Path.ofString "/a") ∧
    (Path.ofString "/c/..").normal = Path.ofString "/" := by
  decide +kernel

end Resolution

end ImportCycles
