import ImportCycles.Proofs.Alias.Longest
/-!
The outcome of a resolution, for every specifier. The base of a specifier is a path in normal form,
found without looking at any file; it can stand for some paths, and the first of them that is a file
is the outcome.
-/
namespace ImportCycles

namespace Probe

variable {extensions : List String} {n : Name}

instance : Decidable (IsSourceName extensions n) := decidable_of_iff _ recognizes_iff

/-- The base with the extension after a point. -/
def extended (base : Path) (ext : String) : Path := ⟨base.bytes ++ Path.dot :: Extension.bytes ext⟩

/-- The index file with the extension in the directory `base`. -/
def indexFile (base : Path) (ext : String) : Path := base.join (Path.ofString ("index." ++ ext))

/-- What a base can stand for: itself, if it has the name of a source, then itself with an
extension, and then an index file, if it leads to a directory. -/
def candidates (fs : FileSystem) (extensions : List String) (base : Path) : List Path :=
  (if ∃ n ∈ base.fileName?, IsSourceName extensions n then [base] else []) ++
    (extensions.map (extended base) ++
      if fs.isDirectory base then extensions.map (indexFile base) else [])

end Probe

/-- `t` is the first of these paths that leads to a file. -/
def FileSystem.IsFirstFile (fs : FileSystem) (paths : List Path) (t : Path) : Prop :=
  ∃ before after, paths = before ++ t :: after ∧ fs.isFile t = true ∧
    ∀ p ∈ before, fs.isFile p = false

variable {fs : FileSystem} {extensions : List String} {aliases : AliasTable} {specifier : String}
  {base origin directory t : Path}

namespace Probe

/-- The candidates are the paths that the probes look at, in their order. -/
theorem filterMap_candidate? (fs : FileSystem) (extensions : List String) (base : Path) :
    (standard extensions).filterMap (candidate? fs base) = candidates fs extensions base := by
  have hself : candidate? fs base (.asIs extensions) =
      if ∃ n ∈ base.fileName?, IsSourceName extensions n then some base else none := by
    rw [candidate?]
    refine if_congr ?_ rfl rfl
    rw [Option.any_eq_true]
    exact exists_congr fun n => and_congr_right fun _ => recognizes_iff
  have happend : (extensions.map append).filterMap (candidate? fs base) =
      extensions.map (extended base) := by
    rw [List.filterMap_map, ← List.filterMap_eq_map]
    rfl
  have hindex : (extensions.map index).filterMap (candidate? fs base) =
      if fs.isDirectory base then extensions.map (indexFile base) else [] := by
    rw [List.filterMap_map]
    by_cases hdirectory : fs.isDirectory base = true
    · rw [if_pos hdirectory, ← List.filterMap_eq_map]
      exact List.filterMap_congr fun ext _ => if_pos hdirectory
    · rw [if_neg hdirectory]
      exact List.filterMap_eq_nil_iff.mpr fun ext _ => if_neg hdirectory
  rw [standard, List.filterMap_cons, List.filterMap_append, happend, hindex, hself, candidates]
  split_ifs <;> rfl

/-- The first hit of the probes is the first file among the candidates. -/
theorem findSome?_hit? : (standard extensions).findSome? (hit? fs base) =
    (candidates fs extensions base).find? fs.isFile := by
  rw [← filterMap_candidate?]
  induction standard extensions with
  | nil => rfl
  | cons probe probes ih =>
    rw [List.findSome?_cons, List.filterMap_cons, hit?]
    cases hcandidate : probe.candidate? fs base with
    | none => exact ih
    | some p =>
      by_cases hfile : fs.isFile p = true
      · simp [Option.filter, hfile]
      · simp [Option.filter, hfile, ih]

end Probe

namespace Resolution

/-- The path that the probes begin with: the specifier taken from the directory of its file, or what
an alias puts in its place. -/
def base? (aliases : AliasTable) (directory : Path) (specifier : String) : Option Path :=
  if isRelativeSpecifier specifier then
    some (directory.join (Path.ofString specifier)).normal
  else (aliases.expand? specifier).map Path.normal

theorem ofBase_eq_resolved_iff : ofBase fs extensions base = .resolved t ↔
    fs.IsFirstFile (Probe.candidates fs extensions base) t := by
  have hfirst : (Probe.candidates fs extensions base).find? fs.isFile = some t ↔
      fs.IsFirstFile (Probe.candidates fs extensions base) t := by
    simp only [List.find?_eq_some_iff_append, FileSystem.IsFirstFile, Bool.not_eq_true',
      ← exists_and_left, and_left_comm]
  rw [ofBase, Probe.findSome?_hit?, ← hfirst]
  split
  · next target htarget => rw [htarget, Resolution.resolved.injEq, Option.some.injEq]
  · next hnone => simp [hnone]

theorem ofBase_eq_unresolved_iff : ofBase fs extensions base = .unresolved ↔
    ∀ p ∈ Probe.candidates fs extensions base, fs.isFile p = false := by
  have hnone : (Probe.candidates fs extensions base).find? fs.isFile = none ↔
      ∀ p ∈ Probe.candidates fs extensions base, fs.isFile p = false := by
    simp only [List.find?_eq_none, Bool.not_eq_true]
  rw [ofBase, Probe.findSome?_hit?, ← hnone]
  split
  · next target htarget => simp [htarget]
  · next hnone => simp [hnone]

theorem ofBase_ne_external : ofBase fs extensions base ≠ .external := by
  unfold ofBase
  split <;> simp

theorem ofSpecifier_eq (h : origin.parent? = some directory) :
    ofSpecifier fs extensions aliases origin specifier =
      match base? aliases directory specifier with
      | none => .external
      | some base => ofBase fs extensions base := by
  unfold ofSpecifier base?
  split
  · rw [h]
  · cases aliases.expand? specifier <;> rfl

theorem base?_eq_none_iff (aliases : AliasTable) (directory : Path) (specifier : String) :
    base? aliases directory specifier = none ↔ isRelativeSpecifier specifier = false ∧
      ∀ a ∈ aliases.entries, ∀ behind, ¬ a.Covers specifier behind := by
  rw [← AliasTable.expand?_eq_none_iff, base?]
  cases isRelativeSpecifier specifier <;> simp

/-- The outcome for every specifier of a file in a directory. Only a relative specifier depends on
the file and only another one on the aliases. It is external when it is not relative and no alias
covers it. Otherwise it resolves to the first file among the candidates of its base, and to nothing
when there is none. -/
theorem outcome_of_specifier (fs : FileSystem) (extensions : List String) (aliases : AliasTable)
    (specifier : String) (h : origin.parent? = some directory) :
    (isRelativeSpecifier specifier = true → ∀ others,
      ofSpecifier fs extensions others origin specifier =
        ofSpecifier fs extensions aliases origin specifier) ∧
    (isRelativeSpecifier specifier = false → ∀ origin',
      ofSpecifier fs extensions aliases origin' specifier =
        ofSpecifier fs extensions aliases origin specifier) ∧
    (ofSpecifier fs extensions aliases origin specifier = .external ↔
      isRelativeSpecifier specifier = false ∧
        ∀ a ∈ aliases.entries, ∀ behind, ¬ a.Covers specifier behind) ∧
    (ofSpecifier fs extensions aliases origin specifier ≠ .external →
      ∃ base, base? aliases directory specifier = some base ∧
        (∀ t, ofSpecifier fs extensions aliases origin specifier = .resolved t ↔
          fs.IsFirstFile (Probe.candidates fs extensions base) t) ∧
        (ofSpecifier fs extensions aliases origin specifier = .unresolved ↔
          ∀ p ∈ Probe.candidates fs extensions base, fs.isFile p = false)) := by
  refine ⟨fun hrelative others => ?_, fun hrelative origin' => ?_, ?_, fun hinside => ?_⟩
  · simp only [ofSpecifier, hrelative, if_true]
  · simp only [ofSpecifier, hrelative, Bool.false_eq_true, if_false]
  · rw [ofSpecifier_eq h, ← base?_eq_none_iff aliases directory]
    cases base? aliases directory specifier with
    | none => simp
    | some base => simp [ofBase_ne_external]
  · rw [ofSpecifier_eq h] at hinside ⊢
    cases hbase : base? aliases directory specifier with
    | none => simp [hbase] at hinside
    | some base => exact ⟨base, rfl, fun t => ofBase_eq_resolved_iff, ofBase_eq_unresolved_iff⟩

/-- The directory `util.js` has the name of a source and an index file, and a file beside it has one
more extension. -/
def suffixedTree : FileSystem where
  root := [((Path.ofString "src").bytes, .directory
    [((Path.ofString "app.js").bytes, .file []),
     ((Path.ofString "util.js").bytes, .directory [((Path.ofString "index.js").bytes, .file [])]),
     ((Path.ofString "util.js.mjs").bytes, .file [])])]
  workingDirectory := []

theorem suffixedTree_outcome :
    (Path.ofString "/src/app.js").parent? = some (Path.ofString "/src") ∧
      ofSpecifier suffixedTree ["js", "mjs"] (.ofList []) (Path.ofString "/src/app.js")
        "./util.js" = .resolved (Path.ofString "/src/util.js.mjs") := by
  have hparent : (Path.ofString "/src/app.js").parent? = some (Path.ofString "/src") := by
    decide +kernel
  obtain ⟨-, -, hexternal, hinside⟩ := outcome_of_specifier suffixedTree ["js", "mjs"] (.ofList [])
    "./util.js" hparent
  obtain ⟨base, hbase, hresolved, -⟩ := hinside fun h => absurd (hexternal.mp h).1 (by decide)
  obtain rfl : Path.ofString "/src/util.js" = base :=
    Option.some.inj (.trans (by decide +kernel) hbase)
  refine ⟨hparent, (hresolved _).mpr
    ⟨[Path.ofString "/src/util.js", Path.ofString "/src/util.js.js"],
    [Path.ofString "/src/util.js/index.js", Path.ofString "/src/util.js/index.mjs"], ?_, ?_, ?_⟩⟩
  all_goals decide +kernel

end Resolution

end ImportCycles
