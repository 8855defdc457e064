import Mathlib.Data.List.Forall2
import ImportCycles.CommandLine
import ImportCycles.Settings.File
import ImportCycles.Proofs.Settings.Aliases
/-!
When settings files and aliases can be used, and how a command line is laid over settings: up to its
first malformed alias.
-/
namespace ImportCycles

namespace Alias

/-- A front, an equals sign and a directory, neither of the two empty. -/
def IsWritten (text : String) : Prop :=
  ∃ front directory, text.toList = front ++ '=' :: directory ∧ '=' ∉ front ∧ front ≠ [] ∧
    directory ≠ []

/-- The text is the front of the alias, an equals sign, and its directory. The front holds no equals
sign, and neither side is empty. -/
def IsSpelled (a : Alias) (text : String) : Prop :=
  ∃ directory : List Char, text.toList = a.front.toList ++ '=' :: directory ∧
    '=' ∉ a.front.toList ∧ a.front ≠ "" ∧ directory ≠ [] ∧
    a.directory = Path.ofString (String.ofList directory)

/-- The text has no equals sign, or nothing on one side of the first one. -/
def IsMalformed (text : String) : Prop :=
  '=' ∉ text.toList ∨ ∃ front directory, text.toList = front ++ '=' :: directory ∧
    '=' ∉ front ∧ (front = [] ∨ directory = [])

variable {a : Alias} {text : String}

/-- A text is cut at its first `=`, if it has one. -/
theorem cut_eq_iff {cs front rest : List Char} :
    cs.takeWhile (· ≠ '=') = front ∧ cs.dropWhile (· ≠ '=') = '=' :: rest ↔
      cs = front ++ '=' :: rest ∧ '=' ∉ front := by
  constructor
  · rintro ⟨rfl, hrest⟩
    refine ⟨by rw [← hrest, List.takeWhile_append_dropWhile], fun hmem => ?_⟩
    simpa using List.all_eq_true.mp List.all_takeWhile _ hmem
  · rintro ⟨rfl, hnot⟩
    have hfront : ∀ c ∈ front, decide (c ≠ '=') = true := fun c hc => by
      simpa using ne_of_mem_of_not_mem hc hnot
    rw [List.takeWhile_append_of_pos hfront, List.dropWhile_append_of_pos hfront]
    simp

theorem ofText?_eq_some_iff : ofText? text = some a ↔ a.IsSpelled text := by
  constructor
  · intro h
    match hrest : text.toList.dropWhile (· ≠ '=') with
    | [] | [_] => simp only [ofText?, hrest, reduceCtorEq] at h
    | c :: d :: directory =>
      obtain rfl : c = '=' := by
        have hhead := List.head?_dropWhile_not (· ≠ '=') text.toList
        rw [hrest] at hhead
        simpa using hhead
      obtain ⟨htext, hnot⟩ := cut_eq_iff.mp ⟨rfl, hrest⟩
      simp only [ofText?, hrest, Option.ite_none_left_eq_some, Option.some.injEq] at h
      obtain ⟨hfront, rfl⟩ := h
      exact ⟨d :: directory, by simpa using htext, by simpa using hnot, by simpa using hfront,
        by simp, rfl⟩
  · rintro ⟨directory, htext, hnot, hfront, hdirectory, hpath⟩
    obtain ⟨c, rest, rfl⟩ := List.exists_cons_of_ne_nil hdirectory
    obtain ⟨htake, hdrop⟩ := cut_eq_iff.mpr ⟨htext, hnot⟩
    have hsome : a.front.toList ≠ [] := fun hnil => hfront (String.toList_inj.mp hnil)
    simp only [ofText?, htake, hdrop, if_neg hsome, String.ofList_toList, ← hpath]

theorem isWritten_iff : IsWritten text ↔ ∃ a : Alias, a.IsSpelled text := by
  constructor
  · rintro ⟨front, directory, htext, hnot, hfront, hdirectory⟩
    refine ⟨⟨String.ofList front, Path.ofString (String.ofList directory)⟩, directory, ?_⟩
    simpa using ⟨htext, hnot, hfront, hdirectory⟩
  · rintro ⟨a, directory, htext, hnot, hfront, hdirectory, -⟩
    exact ⟨a.front.toList, directory, htext, hnot,
      fun hnil => hfront (String.toList_inj.mp hnil), hdirectory⟩

theorem isMalformed_iff : IsMalformed text ↔ ¬ IsWritten text := by
  rw [iff_comm]
  constructor
  · intro h
    by_cases hmem : '=' ∈ text.toList
    · obtain ⟨front, directory, htext, hnot⟩ := List.eq_append_cons_of_mem hmem
      refine .inr ⟨front, directory, htext, hnot, ?_⟩
      by_contra hsides
      rw [not_or] at hsides
      exact h ⟨front, directory, htext, hnot, hsides⟩
    · exact .inl hmem
  · rintro (hmem | ⟨front, directory, htext, hnot, hside⟩) ⟨front', directory', htext', hnot', hsides⟩
    · exact hmem (by simp [htext'])
    · obtain ⟨rfl, hdrop⟩ := cut_eq_iff.mpr ⟨htext, hnot⟩
      obtain ⟨rfl, hdrop'⟩ := cut_eq_iff.mpr ⟨htext', hnot'⟩
      obtain ⟨-, rfl⟩ := List.cons.inj (hdrop.symm.trans hdrop')
      exact hside.elim hsides.1 hsides.2

theorem ofText?_eq_none_iff : ofText? text = none ↔ IsMalformed text := by
  rw [← Option.not_isSome_iff_eq_none, Option.isSome_iff_exists, isMalformed_iff, isWritten_iff]
  simp only [ofText?_eq_some_iff]

theorem isWritten_of_spelled {asked : List Alias} {texts : List String}
    (h : List.Forall₂ IsSpelled asked texts) : ∀ text ∈ texts, IsWritten text := by
  induction h with
  | nil => simp
  | cons ha _ ih => exact List.forall_mem_cons.mpr ⟨isWritten_iff.mpr ⟨_, ha⟩, ih⟩

/-- Either every text spells an alias, or there is a first one that is malformed. -/
theorem exists_spelled (texts : List String) :
    (∃ asked, List.Forall₂ IsSpelled asked texts) ∨
      ∃ before text after asked, texts = before ++ text :: after ∧
        List.Forall₂ IsSpelled asked before ∧ IsMalformed text := by
  induction texts with
  | nil => exact .inl ⟨[], .nil⟩
  | cons text texts ih =>
    cases htext : ofText? text with
    | none => exact .inr ⟨[], text, texts, [], rfl, .nil, ofText?_eq_none_iff.mp htext⟩
    | some a =>
      have ha := ofText?_eq_some_iff.mp htext
      rcases ih with ⟨asked, hasked⟩ | ⟨before, malformed, after, asked, rfl, hasked, hmalformed⟩
      · exact .inl ⟨a :: asked, .cons ha hasked⟩
      · exact .inr ⟨text :: before, malformed, after, a :: asked, rfl, .cons ha hasked, hmalformed⟩

end Alias

namespace Settings

variable {fs : FileSystem} {file base : Path} {layer : Layer}

end Settings

namespace CommandLine

/-- The settings under the fields that a line lays before its aliases. -/
def layFirst (line : CommandLine) (s : Settings) : Settings :=
  { s with
    root := line.root.getD s.root
    extensions := if line.extensions = [] then s.extensions else Extension.clean line.extensions
    excluded := line.excluded.foldl
      (fun known pattern => if known.contains pattern then known else known ++ [pattern])
      s.excluded }

/-- The settings under the fields that a line lays behind its aliases. -/
def layLast (line : CommandLine) (s : Settings) : Settings :=
  { s with
    kinds := if line.kinds = [] then s.kinds else line.kinds
    followsIgnoreFiles := s.followsIgnoreFiles || line.followsIgnoreFiles
    strict := s.strict || line.strict }

variable {line : CommandLine} {s : Settings} {base : Path} {asked : List Alias}
  {texts before : List String} {text : String}

theorem layOver_eq (line : CommandLine) (s : Settings) (base : Path) :
    line.layOver s base =
      match layAliases base line.aliases (line.layFirst s) with
      | (s, some failure) => (s, some failure)
      | (s, none) => (line.layLast s, none) := rfl

theorem layAliases_append (texts : List String) (h : List.Forall₂ Alias.IsSpelled asked before) :
    layAliases base (before ++ texts) s =
      layAliases base texts (s.withAliases (asked.map (base, ·))) := by
  induction h generalizing s with
  | nil => rfl
  | cons ha _ ih =>
    simp only [List.cons_append, layAliases, Alias.ofText?_eq_some_iff.mpr ha]
    exact ih

theorem layOver_of_spelled (s : Settings) (base : Path)
    (h : List.Forall₂ Alias.IsSpelled asked line.aliases) :
    line.layOver s base =
      (line.layLast ((line.layFirst s).withAliases (asked.map (base, ·))), none) := by
  have hall : layAliases base line.aliases (line.layFirst s) =
      ((line.layFirst s).withAliases (asked.map (base, ·)), none) := by
    simpa [layAliases] using layAliases_append [] h
  rw [layOver_eq, hall]

theorem layOver_of_first_malformed (s : Settings) (base : Path)
    (haliases : line.aliases = before ++ text :: texts)
    (hbefore : List.Forall₂ Alias.IsSpelled asked before) (h : Alias.IsMalformed text) :
    line.layOver s base =
      ((line.layFirst s).withAliases (asked.map (base, ·)), some (.aliasMalformed text)) := by
  rw [layOver_eq, haliases, layAliases_append _ hbefore, layAliases,
    Alias.ofText?_eq_none_iff.mpr h]

end CommandLine

end ImportCycles
