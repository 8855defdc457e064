import Mathlib.Data.List.Nodup
import ImportCycles.FileSystem
/-!
Absolute paths in their plainest spelling: a slash, and names with a slash between each two. The
entries and parents of such paths are such paths.
-/
namespace ImportCycles

open FileSystem (pathOf)

/-- A name that an entry of a directory can have. -/
structure IsEntryName (n : Name) : Prop where
  ne_nil : n ≠ []
  ne_here : n ≠ [Path.dot]
  ne_up : n ≠ [Path.dot, Path.dot]
  noSlash : Path.slash ∉ n

instance (n : Name) : Decidable (IsEntryName n) :=
  decidable_of_iff (n ≠ [] ∧ n ≠ [Path.dot] ∧ n ≠ [Path.dot, Path.dot] ∧ Path.slash ∉ n)
    ⟨fun ⟨h₁, h₂, h₃, h₄⟩ => ⟨h₁, h₂, h₃, h₄⟩, fun ⟨h₁, h₂, h₃, h₄⟩ => ⟨h₁, h₂, h₃, h₄⟩⟩

/-- Names that entries of directories can have. -/
def AreEntryNames (names : List Name) : Prop := ∀ n ∈ names, IsEntryName n

instance (names : List Name) : Decidable (AreEntryNames names) :=
  inferInstanceAs (Decidable (∀ n ∈ names, IsEntryName n))

/-- The names that a path consists of. -/
def Path.names (p : Path) : List Name :=
  p.components.filterMap fun
    | .name n => some n
    | _ => none

variable {names before after : List Name} {n piece : Name} {p q : Path} {bytes rest : List UInt8}

theorem areEntryNames_nil : AreEntryNames [] := by
  intro n hn
  simp at hn

theorem areEntryNames_cons : AreEntryNames (n :: names) ↔ IsEntryName n ∧ AreEntryNames names :=
  List.forall_mem_cons

theorem areEntryNames_append :
    AreEntryNames (before ++ after) ↔ AreEntryNames before ∧ AreEntryNames after :=
  List.forall_mem_append

theorem areEntryNames_concat :
    AreEntryNames (names ++ [n]) ↔ AreEntryNames names ∧ IsEntryName n := by
  rw [areEntryNames_append, areEntryNames_cons]
  simp [areEntryNames_nil]

/-- A point and more after an entry name make another one. -/
theorem IsEntryName.append (h : IsEntryName n) {ext : List UInt8} (hext : Path.slash ∉ ext) :
    IsEntryName (n ++ Path.dot :: ext) := by
  obtain ⟨b, bs, rfl⟩ := List.exists_cons_of_ne_nil h.ne_nil
  refine ⟨by simp, by simp, ?_, ?_⟩
  · intro he
    obtain ⟨rfl, hrest⟩ := List.cons.inj he
    have hbs : bs = [] := by
      have := congrArg List.length hrest
      simp at this
      exact List.eq_nil_of_length_eq_zero (by omega)
    exact h.ne_here (by rw [hbs])
  · intro hm
    rcases List.mem_append.mp hm with hm | hm
    · exact h.noSlash hm
    · rcases List.mem_cons.mp hm with he | hm
      · exact absurd he (by decide)
      · exact hext hm

namespace Path

theorem split_ne_nil : split bytes ≠ [] := by
  cases bytes with
  | nil => simp [split]
  | cons b bytes =>
    simp only [split]
    split
    · simp
    · split <;> simp

theorem split_slash : split (slash :: bytes) = [] :: split bytes := by
  simp [split]

theorem split_cons_of_ne {b : UInt8} (h : b ≠ slash) (he : split bytes = piece :: names) :
    split (b :: bytes) = (b :: piece) :: names := by
  simp [split, h, he]

theorem split_of_noSlash (h : slash ∉ piece) : split piece = [piece] := by
  induction piece with
  | nil => rfl
  | cons b piece ih =>
    rw [List.mem_cons, not_or] at h
    exact split_cons_of_ne (Ne.symm h.1) (ih h.2)

theorem split_append_slash (h : slash ∉ piece) :
    split (piece ++ slash :: bytes) = piece :: split bytes := by
  induction piece with
  | nil => exact split_slash
  | cons b piece ih =>
    rw [List.mem_cons, not_or] at h
    exact split_cons_of_ne (Ne.symm h.1) (ih h.2)

theorem noSlash_of_mem_split (h : piece ∈ split bytes) : slash ∉ piece := by
  induction bytes generalizing piece with
  | nil =>
    simp only [split, List.mem_singleton] at h
    simp [h]
  | cons b bytes ih =>
    by_cases hb : b = slash
    · rw [hb, split_slash] at h
      rcases List.mem_cons.mp h with rfl | h
      · simp
      · exact ih h
    · have hne : split bytes ≠ [] := split_ne_nil
      obtain ⟨first, others, hsplit⟩ := List.exists_cons_of_ne_nil hne
      rw [split_cons_of_ne hb hsplit] at h
      rw [hsplit] at ih
      rcases List.mem_cons.mp h with rfl | h
      · simpa [Ne.symm hb] using ih List.mem_cons_self
      · exact ih (List.mem_cons_of_mem _ h)

/-- With a slash before each piece the path has one more slash at its front. -/
theorem flatMap_split : (split bytes).flatMap (slash :: ·) = slash :: bytes := by
  induction bytes with
  | nil => rfl
  | cons b bytes ih =>
    by_cases hb : b = slash
    · rw [hb, split_slash, List.flatMap_cons, ih]
      rfl
    · have hne : split bytes ≠ [] := split_ne_nil
      obtain ⟨first, others, hsplit⟩ := List.exists_cons_of_ne_nil hne
      rw [hsplit, List.flatMap_cons] at ih
      rw [split_cons_of_ne hb hsplit, List.flatMap_cons]
      exact congrArg (slash :: b :: ·) (List.cons.inj ih).2

theorem unsplit_cons_cons : unsplit (piece :: n :: names) = piece ++ slash :: unsplit (n :: names) :=
  rfl

theorem unsplit_concat (h : names ≠ []) :
    unsplit (names ++ [n]) = unsplit names ++ slash :: n := by
  induction names with
  | nil => exact absurd rfl h
  | cons first names ih =>
    cases names with
    | nil => rfl
    | cons second names =>
      have := ih (by simp)
      rw [List.cons_append, List.cons_append, unsplit_cons_cons, unsplit_cons_cons,
        ← List.cons_append, this, List.append_assoc]
      rfl

theorem unsplit_concat_append :
    unsplit (names ++ [n]) ++ rest = unsplit (names ++ [n ++ rest]) := by
  cases names with
  | nil => rfl
  | cons first names =>
    rw [unsplit_concat (by simp), unsplit_concat (by simp)]
    simp

theorem exists_unsplit_concat (names : List Name) (n : Name) :
    ∃ lead, unsplit (names ++ [n]) = lead ++ n := by
  by_cases h : names = []
  · exact ⟨[], by simp [h, unsplit]⟩
  · exact ⟨unsplit names ++ [slash], by simp [unsplit_concat h]⟩

theorem unsplit_prefix : unsplit before <+: unsplit (before ++ after) := by
  induction before with
  | nil => exact List.nil_prefix
  | cons first before ih =>
    cases before with
    | nil =>
      cases after with
      | nil => exact List.prefix_refl _
      | cons n after => exact List.prefix_append _ _
    | cons second before =>
      simp only [List.cons_append, unsplit_cons_cons] at ih ⊢
      exact (List.prefix_append_right_inj _).mpr ((List.cons_prefix_cons).mpr ⟨rfl, ih⟩)

theorem split_unsplit (hne : names ≠ []) (h : ∀ piece ∈ names, slash ∉ piece) :
    split (unsplit names) = names := by
  induction names with
  | nil => exact absurd rfl hne
  | cons first names ih =>
    have hfirst := h first List.mem_cons_self
    cases names with
    | nil => exact split_of_noSlash hfirst
    | cons second names =>
      rw [unsplit_cons_cons, split_append_slash hfirst,
        ih (by simp) fun piece hp => h piece (List.mem_cons_of_mem _ hp)]

theorem bytes_pathOf : (pathOf names).bytes = slash :: unsplit names := by
  have htext : (names.map Component.name).map Component.text = names := by
    rw [List.map_map]
    exact List.map_id'' (fun _ => rfl) names
  cases names with
  | nil => rfl
  | cons n names =>
    change unsplit ([] :: ((n :: names).map Component.name).map Component.text) = _
    rw [htext]
    rfl

theorem bytes_pathOf_prefix : (pathOf before).bytes <+: (pathOf (before ++ after)).bytes := by
  rw [bytes_pathOf, bytes_pathOf, List.cons_prefix_cons]
  exact ⟨rfl, unsplit_prefix⟩

/-- The pieces of a plain path are an empty one and its names; without names there is one more
empty piece. -/
theorem split_pathOf (h : AreEntryNames names) :
    split (pathOf names).bytes = [] :: (if names = [] then [[]] else names) := by
  rw [bytes_pathOf, split_slash]
  split
  · next hnil => simp [hnil, unsplit, split]
  · next hne => rw [split_unsplit hne fun n hn => (h n hn).noSlash]

theorem isAbsolute_pathOf : (pathOf names).isAbsolute = true := by
  simp [isAbsolute, bytes_pathOf]

theorem component?_entryName (h : IsEntryName n) : component? n = some (.name n) := by
  simp [component?, h.ne_nil, h.ne_here, h.ne_up]

theorem components_pathOf (h : AreEntryNames names) :
    (pathOf names).components = .root :: names.map .name := by
  have hnames : names.filterMap component? = names.map .name := by
    rw [← List.filterMap_eq_map]
    exact List.filterMap_congr fun n hn => component?_entryName (h n hn)
  simp only [components, parts, split_pathOf h, isAbsolute_pathOf, firstComponent?, if_true]
  split
  · next hnil => simp [hnil, component?]
  · simp only [List.filterMap_cons, List.filterMap_map]
    exact congrArg _ hnames

theorem names_of_components (h : p.components = .root :: names.map .name) : p.names = names := by
  simp [Path.names, h, List.filterMap_map]

theorem names_pathOf (h : AreEntryNames names) : (pathOf names).names = names :=
  names_of_components (components_pathOf h)

theorem map_name_injective : Function.Injective (List.map Component.name) :=
  List.map_injective_iff.mpr fun _ _ h => Component.name.inj h

theorem pathOf_inj (hb : AreEntryNames before) (ha : AreEntryNames after)
    (h : (pathOf before).components = (pathOf after).components) : before = after := by
  rw [components_pathOf hb, components_pathOf ha] at h
  exact map_name_injective (List.cons.inj h).2

/-- Plain paths that are the same are spelled alike. -/
theorem same_pathOf (hb : AreEntryNames before) (ha : AreEntryNames after) :
    (pathOf before).same (pathOf after) = true ↔ before = after := by
  simp only [same, decide_eq_true_eq]
  exact ⟨pathOf_inj hb ha, fun h => by rw [h]⟩

theorem isAbsolute_join (h : p.isAbsolute = true) : (p.join q).isAbsolute = true := by
  have hp : p.bytes ≠ [] := by
    intro he
    simp [isAbsolute, he] at h
  obtain ⟨b, bytes, hb⟩ := List.exists_cons_of_ne_nil hp
  unfold join
  split
  · assumption
  · split <;> simpa [isAbsolute, hb] using h

theorem join_pathOf_of_noSlash (h : AreEntryNames names) (hn : slash ∉ n) :
    (pathOf names).join ⟨n⟩ = pathOf (names ++ [n]) := by
  have hrelative : (⟨n⟩ : Path).isAbsolute = false := by
    simp only [isAbsolute, decide_eq_false_iff_not]
    intro hhead
    exact hn (List.mem_of_mem_head? hhead)
  have hconcat : ∀ q : Path, q.bytes = slash :: unsplit (names ++ [n]) → q = pathOf (names ++ [n]) := by
    intro q hq
    rw [← bytes_pathOf] at hq
    cases q
    exact congrArg Path.mk hq
  apply hconcat
  by_cases hnames : names = []
  · simp [hnames, join, hrelative, bytes_pathOf, unsplit]
  · have hend : (slash :: unsplit names).getLast? ≠ some slash := by
      obtain ⟨front, last, rfl⟩ := (List.eq_nil_or_concat' names).resolve_left hnames
      have hlast := (areEntryNames_concat.mp h).2
      obtain ⟨lead, hlead⟩ := exists_unsplit_concat front last
      rw [hlead, ← List.cons_append, List.getLast?_append_of_ne_nil _ hlast.ne_nil]
      exact fun he => hlast.noSlash (List.mem_of_getLast? he)
    simp [join, hrelative, hend, bytes_pathOf, unsplit_concat hnames]

/-- An entry of a directory with a plain path has a plain path. -/
theorem child_pathOf (h : AreEntryNames names) (hn : IsEntryName n) :
    (pathOf names).child n = pathOf (names ++ [n]) :=
  join_pathOf_of_noSlash h hn.noSlash

theorem pathOf_concat_append (names : List Name) (n : Name) (rest : List UInt8) :
    (⟨(pathOf (names ++ [n])).bytes ++ rest⟩ : Path) = pathOf (names ++ [n ++ rest]) := by
  have hbytes : (pathOf (names ++ [n])).bytes ++ rest = (pathOf (names ++ [n ++ rest])).bytes := by
    rw [bytes_pathOf, bytes_pathOf, List.cons_append, unsplit_concat_append]
  exact congrArg Path.mk hbytes

theorem parent?_pathOf (h : AreEntryNames (names ++ [n])) :
    (pathOf (names ++ [n])).parent? = some (pathOf names) := by
  have hc : (pathOf (names ++ [n])).components = (.root :: names.map .name) ++ [.name n] := by
    simp [components_pathOf h]
  simp only [parent?, hc, List.getLast?_concat, List.dropLast_concat]
  rfl

theorem fileName?_of_components {cs : List Component} (h : p.components = cs ++ [.name n]) :
    p.fileName? = some n := by
  simp only [fileName?, h, List.getLast?_concat]

theorem fileName?_pathOf (h : AreEntryNames (names ++ [n])) :
    (pathOf (names ++ [n])).fileName? = some n := by
  have hc : (pathOf (names ++ [n])).components = (.root :: names.map .name) ++ [.name n] := by
    simp [components_pathOf h]
  exact fileName?_of_components hc

/-- The path of one piece below the root directory. -/
theorem components_pathOf_singleton (h : slash ∉ piece) :
    (pathOf [piece]).components = .root :: (component? piece).toList := by
  have hsplit : split (pathOf [piece]).bytes = [[], piece] := by
    rw [bytes_pathOf, split_slash, split_unsplit (by simp) (by simpa using h)]
  simp only [components, parts, hsplit, isAbsolute_pathOf, firstComponent?, if_true]
  cases hc : component? piece <;> simp [hc]

theorem exists_bytes_of_isAbsolute (h : p.isAbsolute = true) :
    ∃ bytes, p.bytes = slash :: bytes ∧
      p.components = .root :: (split bytes).filterMap component? := by
  cases hbytes : p.bytes with
  | nil => simp [isAbsolute, hbytes] at h
  | cons b bytes =>
    obtain rfl : b = slash := by simpa [isAbsolute, hbytes] using h
    refine ⟨bytes, rfl, ?_⟩
    simp [components, parts, hbytes, split_slash, h, firstComponent?, List.filterMap_map]

theorem component?_eq_name (h : component? piece = some (.name n)) : piece = n := by
  simp only [component?] at h
  split at h
  · simp at h
  split at h
  · simp at h
  · exact Component.name.inj (Option.some.inj h)

end Path

end ImportCycles
