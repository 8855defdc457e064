import Mathlib.Data.List.Dedup
import ImportCycles.Settings
import ImportCycles.Proofs.Path.NormalForm
/-!
The aliases of settings. Given one after the other, they end up with one alias for each front, for
the directory that was given last, and stand in the order of these last times.
-/
namespace ImportCycles

/-- The path that a directory given for an alias stands for: one that is not absolute is taken below
`base`. -/
def Alias.placed (base directory : Path) : Path :=
  if directory.isAbsolute then directory.normal else (base.join directory).normal

namespace Settings

/-- The settings with aliases given one after the other, each beside the directory that it is taken
from. -/
def withAliases (s : Settings) (given : List (Path × Alias)) : Settings :=
  given.foldl (fun s g => s.withAlias g.1 g.2) s

/-- An alias of this front was given in the place `i`, for this directory, and in no later place. -/
structure IsLastGiven (given : List (Path × Alias)) (i : Nat) (a : Alias) : Prop where
  is_given : ∃ base directory, given[i]? = some (base, ⟨a.front, directory⟩) ∧
    a.directory = Alias.placed base directory
  is_last : ∀ j g, i < j → given[j]? = some g → g.2.front ≠ a.front

/-- The fronts of the aliases that are given. -/
def frontsOf (given : List (Path × Alias)) : List String := given.map fun g => g.2.front

/-- Of each front the alias that is given last. -/
def lastGiven : List (Path × Alias) → List Alias
  | [] => []
  | (base, a) :: given =>
    if a.front ∈ frontsOf given then lastGiven given
    else ⟨a.front, Alias.placed base a.directory⟩ :: lastGiven given

variable {base : Path} {a b : Alias} {g : Path × Alias} {given : List (Path × Alias)} {i : Nat}

theorem normal_join_eq_placed (base directory : Path) :
    (base.join directory).normal = Alias.placed base directory := by
  by_cases h : directory.isAbsolute = true <;> simp [Alias.placed, Path.join, h]

/-- Aliases change nothing else in the settings. -/
theorem withAliases_eq (s : Settings) (given : List (Path × Alias)) :
    s.withAliases given = { s with aliases := (s.withAliases given).aliases } := by
  induction given generalizing s with
  | nil => rfl
  | cons g given ih =>
    rw [withAliases, List.foldl_cons, ← withAliases, ih]
    rfl

theorem withAliases_append (s : Settings) (given more : List (Path × Alias)) :
    s.withAliases (given ++ more) = (s.withAliases given).withAliases more :=
  List.foldl_append

theorem withAliases_map (s : Settings) (base : Path) (aliases : List Alias) :
    s.withAliases (aliases.map (base, ·)) = aliases.foldl (fun s a => s.withAlias base a) s :=
  List.foldl_map

@[simp] theorem frontsOf_cons : frontsOf ((base, a) :: given) = a.front :: frontsOf given := rfl

/-- The aliases that were there stay where they were, but for those that are given anew. -/
theorem aliases_withAliases (s : Settings) (given : List (Path × Alias)) :
    (s.withAliases given).aliases =
      s.aliases.filter (fun a => a.front ∉ frontsOf given) ++ lastGiven given := by
  induction given generalizing s with
  | nil => simp [withAliases, frontsOf, lastGiven]
  | cons g given ih =>
    obtain ⟨base, a⟩ := g
    have hrest : ((s.aliases.filter fun b => b.front ≠ a.front).filter
        fun b => b.front ∉ frontsOf given) =
          s.aliases.filter fun b => b.front ∉ frontsOf ((base, a) :: given) := by
      rw [List.filter_filter]
      refine List.filter_congr fun b _ => ?_
      simp [not_or, Bool.and_comm]
    calc (s.withAliases ((base, a) :: given)).aliases
      _ = (s.withAlias base a).aliases.filter (fun b => b.front ∉ frontsOf given) ++
          lastGiven given := ih _
      _ = s.aliases.filter (fun b => b.front ∉ frontsOf ((base, a) :: given)) ++
          lastGiven ((base, a) :: given) := by
        rw [withAlias, List.filter_append, hrest, normal_join_eq_placed, lastGiven]
        by_cases h : a.front ∈ frontsOf given <;> simp [h]

theorem aliases_defaults (given : List (Path × Alias)) :
    (defaults.withAliases given).aliases = lastGiven given := by
  rw [aliases_withAliases]
  rfl

/-- The last time a front is given decides about its place. -/
theorem map_front_lastGiven (given : List (Path × Alias)) :
    (lastGiven given).map Alias.front = (frontsOf given).dedup := by
  induction given with
  | nil => rfl
  | cons g given ih =>
    obtain ⟨base, a⟩ := g
    rw [lastGiven, frontsOf_cons, List.dedup_cons]
    split
    · exact ih
    · rw [List.map_cons, ih]

theorem isLastGiven_zero : IsLastGiven ((base, b) :: given) 0 a ↔
    a.front ∉ frontsOf given ∧ a = ⟨b.front, Alias.placed base b.directory⟩ := by
  constructor
  · rintro ⟨⟨base', directory, hgiven, hplaced⟩, hlast⟩
    obtain ⟨rfl, rfl⟩ : base = base' ∧ b = ⟨a.front, directory⟩ := by simpa using hgiven
    refine ⟨fun hmem => ?_, by rw [← hplaced]⟩
    obtain ⟨g, hg, hfront⟩ := List.mem_map.mp hmem
    obtain ⟨j, hj⟩ := List.mem_iff_getElem?.mp hg
    exact hlast (j + 1) g (Nat.succ_pos j) hj hfront
  · rintro ⟨hnot, rfl⟩
    refine ⟨⟨base, b.directory, rfl, rfl⟩, fun j g hj hg hfront => hnot ?_⟩
    obtain ⟨j, rfl⟩ := Nat.exists_eq_succ_of_ne_zero (Nat.ne_of_gt hj)
    exact List.mem_map.mpr ⟨g, List.mem_iff_getElem?.mpr ⟨j, hg⟩, hfront⟩

theorem isLastGiven_succ : IsLastGiven (g :: given) (i + 1) a ↔ IsLastGiven given i a := by
  constructor
  · rintro ⟨hgiven, hlast⟩
    exact ⟨hgiven, fun j g hj hg => hlast (j + 1) g (Nat.succ_lt_succ hj) hg⟩
  · rintro ⟨hgiven, hlast⟩
    refine ⟨hgiven, fun j g hj hg => ?_⟩
    obtain ⟨j, rfl⟩ := Nat.exists_eq_succ_of_ne_zero (Nat.ne_of_gt (Nat.zero_lt_of_lt hj))
    exact hlast j g (Nat.lt_of_succ_lt_succ hj) hg

theorem mem_lastGiven_iff : a ∈ lastGiven given ↔ ∃ i, IsLastGiven given i a := by
  induction given with
  | nil =>
    simp only [lastGiven, List.not_mem_nil, false_iff, not_exists]
    rintro i ⟨⟨base, directory, hgiven, -⟩, -⟩
    simp at hgiven
  | cons g given ih =>
    obtain ⟨base, b⟩ := g
    rw [← Nat.or_exists_add_one, isLastGiven_zero]
    simp only [isLastGiven_succ, ← ih, lastGiven]
    split
    · next hlater =>
      refine ⟨.inr, ?_⟩
      rintro (⟨hnot, rfl⟩ | hmem)
      · exact absurd hlater hnot
      · exact hmem
    · next hnot =>
      rw [List.mem_cons]
      refine or_congr_left ⟨fun ha => ⟨?_, ha⟩, And.right⟩
      rwa [ha]

/-- The aliases stand in the order of the places where they are given last. -/
theorem pairwise_lastGiven (given : List (Path × Alias)) : (lastGiven given).Pairwise
    fun a b => ∃ i j, i < j ∧ IsLastGiven given i a ∧ IsLastGiven given j b := by
  induction given with
  | nil => exact .nil
  | cons g given ih =>
    obtain ⟨base, a⟩ := g
    have hrest : (lastGiven given).Pairwise fun b c => ∃ i j, i < j ∧
        IsLastGiven ((base, a) :: given) i b ∧ IsLastGiven ((base, a) :: given) j c := by
      refine ih.imp ?_
      rintro b c ⟨i, j, hlt, hb, hc⟩
      exact ⟨i + 1, j + 1, Nat.succ_lt_succ hlt, isLastGiven_succ.mpr hb, isLastGiven_succ.mpr hc⟩
    rw [lastGiven]
    split
    · exact hrest
    · next hnot =>
      refine List.pairwise_cons.mpr ⟨fun b hb => ?_, hrest⟩
      obtain ⟨j, hj⟩ := mem_lastGiven_iff.mp hb
      exact ⟨0, j + 1, Nat.succ_pos j, isLastGiven_zero.mpr ⟨hnot, rfl⟩, isLastGiven_succ.mpr hj⟩

theorem lastGiven_append (given more : List (Path × Alias)) : lastGiven (given ++ more) =
    (lastGiven given).filter (fun a => a.front ∉ frontsOf more) ++ lastGiven more := by
  rw [← aliases_defaults, withAliases_append, aliases_withAliases, aliases_defaults]

theorem isAbsolute_placed (h : base.isAbsolute = true) (directory : Path) :
    (Alias.placed base directory).isAbsolute = true := by
  rw [← normal_join_eq_placed, Path.isAbsolute_normal]
  exact Path.isAbsolute_join h

/-- Whatever aliases are given from absolute directories, no two in the settings have one front; the
fronts are those that were given; each alias is for the normal form of the directory that its front
was given for last, and that is an absolute path; and they stand in the order of these last times. -/
theorem aliases_as_last_given (given : List (Path × Alias))
    (habsolute : ∀ g ∈ given, g.1.isAbsolute = true) :
    ((defaults.withAliases given).aliases.map Alias.front).Nodup ∧
    (∀ front, front ∈ (defaults.withAliases given).aliases.map Alias.front ↔
      ∃ g ∈ given, g.2.front = front) ∧
    (∀ a, a ∈ (defaults.withAliases given).aliases ↔ ∃ i, IsLastGiven given i a) ∧
    (∀ a ∈ (defaults.withAliases given).aliases,
      a.directory.isAbsolute = true ∧ a.directory.IsNormal) ∧
    (defaults.withAliases given).aliases.Pairwise
      fun a b => ∃ i j, i < j ∧ IsLastGiven given i a ∧ IsLastGiven given j b := by
  rw [aliases_defaults, map_front_lastGiven]
  refine ⟨List.nodup_dedup _, fun front => ?_, fun a => mem_lastGiven_iff, fun a ha => ?_,
    pairwise_lastGiven given⟩
  · rw [List.mem_dedup, frontsOf, List.mem_map]
  · obtain ⟨i, ⟨base, directory, hgiven, hplaced⟩, -⟩ := mem_lastGiven_iff.mp ha
    rw [hplaced]
    constructor
    · exact isAbsolute_placed (habsolute _ (List.mem_of_getElem? hgiven)) directory
    · rw [← normal_join_eq_placed]
      exact Path.isNormal_normal _

/-- A front is given again, for a directory with a step up, after another one from elsewhere. -/
def repeatedAliases : List (Path × Alias) :=
  [(Path.ofString "/", ⟨"@/", Path.ofString "/a"⟩),
    (Path.ofString "/work", ⟨"~", Path.ofString "lib"⟩),
    (Path.ofString "/", ⟨"@/", Path.ofString "/b/../c"⟩)]

def repeatedAliasesLeft : List Alias :=
  [⟨"~", Path.ofString "/work/lib"⟩, ⟨"@/", Path.ofString "/c"⟩]

theorem repeatedAliases_as_last_given :
    (∀ g ∈ repeatedAliases, g.1.isAbsolute = true) ∧
      (defaults.withAliases repeatedAliases).aliases = repeatedAliasesLeft ∧
      (∀ a, a ∈ repeatedAliasesLeft ↔ ∃ i, IsLastGiven repeatedAliases i a) ∧
      repeatedAliasesLeft.Pairwise fun a b =>
        ∃ i j, i < j ∧ IsLastGiven repeatedAliases i a ∧ IsLastGiven repeatedAliases j b := by
  have habsolute : ∀ g ∈ repeatedAliases, g.1.isAbsolute = true := by decide
  have hleft : (defaults.withAliases repeatedAliases).aliases = repeatedAliasesLeft := by decide
  obtain ⟨-, -, hmem, -, horder⟩ := aliases_as_last_given repeatedAliases habsolute
  rw [hleft] at hmem horder
  exact ⟨habsolute, hleft, hmem, horder⟩

end Settings

end ImportCycles
