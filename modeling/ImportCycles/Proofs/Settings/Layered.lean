import ImportCycles.Proofs.Lists
import ImportCycles.Proofs.Settings.Layers
/-!
Settings in layers: the values of a command line over those of a settings file over the defaults,
each field in its own way. A malformed alias ends the layering in the middle: the fields laid before
the aliases and the aliases before the malformed one are there, and the fields laid behind are not.
-/
namespace ImportCycles

namespace CommandLine

open Settings (IsLastGiven defaults frontsOf lastGiven)

/-- Of the aliases with its front the last one, for its directory taken below `base`. -/
def IsLastOf (aliases : List Alias) (base : Path) (a : Alias) : Prop :=
  ∃ i, IsLastGiven (aliases.map (base, ·)) i a

/-- What a line lays first over the settings of a layer, with `asked` of its aliases. -/
structure IsLaid (layer : Settings.Layer) (base : Path) (line : CommandLine) (directory : Path)
    (asked : List Alias) (s : Settings) : Prop where
  root : s.root = (line.root.or layer.root).getD defaults.root
  /-- The extensions of the line count as soon as there are any, clean or not. -/
  extensions : s.extensions =
    if line.extensions = [] then (layer.extensions.map Extension.clean).getD defaults.extensions
    else Extension.clean line.extensions
  excluded : s.excluded = layer.excluded.getD defaults.excluded ++
    (line.excluded.filter (· ∉ layer.excluded.getD defaults.excluded)).eraseDups
  distinct : (s.aliases.map Alias.front).Nodup
  bound : ∀ a, a ∈ s.aliases ↔ IsLastOf asked directory a ∨
    (∀ b ∈ asked, b.front ≠ a.front) ∧ IsLastOf (layer.aliases.getD []) base a

/-- What a line lays last over the settings of a layer. -/
structure IsLaidLast (layer : Settings.Layer) (line : CommandLine) (s : Settings) : Prop where
  kinds : s.kinds =
    if line.kinds = [] then layer.kinds.getD defaults.kinds else line.kinds
  followsIgnoreFiles : s.followsIgnoreFiles = true ↔
    line.followsIgnoreFiles = true ∨ layer.followsIgnoreFiles = some true
  strict : s.strict = true ↔ line.strict = true ∨ layer.strict = some true

/-- The fields that a line lays last are alike. -/
structure AgreeLast (s s' : Settings) : Prop where
  kinds : s.kinds = s'.kinds
  followsIgnoreFiles : s.followsIgnoreFiles = s'.followsIgnoreFiles
  strict : s.strict = s'.strict

variable {layer : Settings.Layer} {base directory : Path} {line : CommandLine} {s : Settings}
  {asked : List Alias} {texts before : List String} {text : String}

/-- Patterns that are not known yet come behind those that are, each where it is first met. -/
theorem foldl_new_patterns (known patterns : List String) :
    patterns.foldl (fun known p => if known.contains p then known else known ++ [p]) known =
      known ++ (patterns.filter (· ∉ known)).eraseDups := by
  induction patterns generalizing known with
  | nil => simp
  | cons p patterns ih =>
    rw [List.foldl_cons, ih]
    by_cases h : p ∈ known
    · simp [h]
    · have hrest : (patterns.filter (· ∉ known ++ [p])) =
          (patterns.filter (· ∉ known)).filter fun q => !q == p := by
        rw [List.filter_filter]
        refine List.filter_congr fun q _ => ?_
        simp [not_or, Bool.and_comm, Bool.beq_eq_decide_eq]
      have hnew : known.contains p = false := by simpa using h
      rw [hnew, if_neg Bool.false_ne_true, hrest, List.filter_cons_of_pos (by simpa using h),
        List.eraseDups_cons, List.append_assoc, List.singleton_append]

theorem ofLayer_eq (layer : Settings.Layer) (base : Path) : Settings.ofLayer layer base =
    { root := layer.root.getD defaults.root
      extensions := (layer.extensions.map Extension.clean).getD defaults.extensions
      excluded := layer.excluded.getD defaults.excluded
      followsIgnoreFiles := layer.followsIgnoreFiles.getD defaults.followsIgnoreFiles
      kinds := layer.kinds.getD defaults.kinds
      aliases := lastGiven ((layer.aliases.getD []).map (base, ·))
      strict := layer.strict.getD defaults.strict } := by
  rw [Settings.ofLayer, ← Settings.withAliases_map, Settings.withAliases_eq,
    Settings.aliases_withAliases]
  rfl

theorem frontsOf_map (base : Path) (aliases : List Alias) :
    frontsOf (aliases.map (base, ·)) = aliases.map Alias.front := by
  simp [frontsOf]

theorem isLaid_withAliases (layer : Settings.Layer) (base : Path) (line : CommandLine)
    (directory : Path) (asked : List Alias) : IsLaid layer base line directory asked
      ((line.layFirst (.ofLayer layer base)).withAliases (asked.map (directory, ·))) := by
  have haliases : ((line.layFirst (.ofLayer layer base)).withAliases
      (asked.map (directory, ·))).aliases =
      lastGiven ((layer.aliases.getD []).map (base, ·) ++ asked.map (directory, ·)) := by
    rw [Settings.aliases_withAliases, Settings.lastGiven_append, layFirst, ofLayer_eq]
  rw [Settings.withAliases_eq, haliases]
  refine ⟨?_, ?_, ?_, ?_, fun a => ?_⟩
  · rw [layFirst, ofLayer_eq]
    cases line.root <;> rfl
  · rw [layFirst, ofLayer_eq]
  · rw [layFirst, ofLayer_eq]
    exact foldl_new_patterns _ _
  · rw [Settings.map_front_lastGiven]
    exact List.nodup_dedup _
  · rw [Settings.lastGiven_append, List.mem_append, List.mem_filter, Settings.mem_lastGiven_iff,
      Settings.mem_lastGiven_iff, or_comm, and_comm, frontsOf_map]
    simp [IsLastOf]

/-- What is laid last leaves alone what is laid first. -/
theorem IsLaid.layLast (h : IsLaid layer base line directory asked s) :
    IsLaid layer base line directory asked (line.layLast s) :=
  ⟨h.root, h.extensions, h.excluded, h.distinct, h.bound⟩

theorem isLaidLast_layLast (layer : Settings.Layer) (base : Path) (line : CommandLine)
    (given : List (Path × Alias)) : IsLaidLast layer line
      (line.layLast ((line.layFirst (.ofLayer layer base)).withAliases given)) := by
  rw [Settings.withAliases_eq, layLast, layFirst, ofLayer_eq]
  refine ⟨rfl, ?_, ?_⟩
  · cases layer.followsIgnoreFiles <;> simp [defaults, or_comm]
  · cases layer.strict <;> simp [defaults, or_comm]

/-- How a line is laid over the settings of a file. If all its aliases are spelled as they should be,
each field has the value of the line, of the file or of the defaults, as it is put together for that
field. Otherwise the first malformed alias is the failure, and the fields behind the aliases are
still those of the file. -/
theorem layers_field_by_field (layer : Settings.Layer) (base : Path) (line : CommandLine)
    (directory : Path) :
    ((∃ failure, (line.layOver (.ofLayer layer base) directory).2 = some failure) ↔
      ∃ text ∈ line.aliases, Alias.IsMalformed text) ∧
    ((∃ asked s, List.Forall₂ Alias.IsSpelled asked line.aliases ∧
        line.layOver (.ofLayer layer base) directory = (s, none) ∧
        IsLaid layer base line directory asked s ∧ IsLaidLast layer line s) ∨
      ∃ before text after asked s, line.aliases = before ++ text :: after ∧
        List.Forall₂ Alias.IsSpelled asked before ∧ Alias.IsMalformed text ∧
        line.layOver (.ofLayer layer base) directory = (s, some (.aliasMalformed text)) ∧
        IsLaid layer base line directory asked s ∧ AgreeLast s (.ofLayer layer base)) := by
  rcases Alias.exists_spelled line.aliases with
    ⟨asked, hasked⟩ | ⟨before, text, after, asked, haliases, hasked, hmalformed⟩
  · have hlay := layOver_of_spelled (.ofLayer layer base) directory hasked
    constructor
    · rw [hlay]
      refine ⟨fun ⟨failure, hfailure⟩ => by simp at hfailure, fun ⟨text, htext, hmalformed⟩ => ?_⟩
      have hwritten := Alias.isWritten_of_spelled hasked text htext
      exact absurd hwritten (Alias.isMalformed_iff.mp hmalformed)
    · exact .inl ⟨asked, _, hasked, hlay,
        (isLaid_withAliases layer base line directory asked).layLast,
        isLaidLast_layLast layer base line _⟩
  · have hlay := layOver_of_first_malformed (.ofLayer layer base) directory haliases hasked
      hmalformed
    have huntouched : AgreeLast ((line.layFirst (.ofLayer layer base)).withAliases
        (asked.map (directory, ·))) (.ofLayer layer base) := by
      rw [Settings.withAliases_eq]
      exact ⟨rfl, rfl, rfl⟩
    constructor
    · rw [hlay]
      exact ⟨fun _ => ⟨text, by simp [haliases], hmalformed⟩, fun _ => ⟨_, rfl⟩⟩
    · exact .inr ⟨before, text, after, asked, _, haliases, hasked, hmalformed, hlay,
        isLaid_withAliases layer base line directory asked, huntouched⟩

-- The second alias has no directory. The excluded name and the first alias are there, the kinds are
-- not.
example : (layOver
      { empty with excluded := ["dist"], aliases := ["@=/a", "~="], kinds := [.require] }
      defaults (Path.ofString "/work")).1 =
    { defaults with
      excluded := defaults.excluded ++ ["dist"]
      aliases := [⟨"@", Path.ofString "/a"⟩] } := by
  decide

end CommandLine

end ImportCycles
