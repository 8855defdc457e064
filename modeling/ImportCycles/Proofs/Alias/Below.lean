import ImportCycles.Proofs.Alias.Longest
/-!
Where the path lies that an alias puts in place of a specifier. It goes on from the directory of the
alias by what is left of the specifier. Only when that begins with one more slash the directory is
lost: then what is left is the path itself.
-/
namespace ImportCycles

namespace Path

/-- The components that a relative path adds to those of a directory. A point at its front is one
only below the empty path. -/
def componentsBelow (directory rest : Path) : List Component :=
  if directory.bytes = [] then rest.components else rest.steps

variable {p q : Path} {front back : List UInt8} {cs : List Char}

theorem head?_split_append_slash :
    (split (front ++ slash :: back)).head? = (split front).head? := by
  rw [split_append_slash_append, List.head?_append_of_ne_nil _ split_ne_nil]

/-- A path taken below another one begins with the first piece of that one. -/
theorem head?_split_join (hq : q.isAbsolute = false) (hp : p.bytes ≠ []) :
    (split (p.join q).bytes).head? = (split p.bytes).head? := by
  unfold join
  rw [if_neg (by simp [hq])]
  by_cases hslash : p.bytes.getLast? = some slash
  · obtain ⟨front, hfront⟩ := List.getLast?_eq_some_iff.mp hslash
    rw [if_pos (.inr hslash), hfront, List.append_assoc, List.singleton_append,
      head?_split_append_slash, head?_split_append_slash]
  · rw [if_neg (by simp [hp, hslash]), head?_split_append_slash]

theorem components_eq (p : Path) : p.components =
    if p.isAbsolute then .root :: p.steps
    else if (split p.bytes).head? = some [dot] then .here :: p.steps else p.steps := by
  cases habsolute : p.isAbsolute with
  | true => simpa using components_eq_root_cons habsolute
  | false =>
    have hne : split p.bytes ≠ [] := split_ne_nil
    obtain ⟨piece, pieces, hsplit⟩ := List.exists_cons_of_ne_nil hne
    simp [components_of_relative habsolute hsplit, hsplit]

/-- A relative path taken below another one adds its components to those of that one. -/
theorem components_join (hq : q.isAbsolute = false) :
    (p.join q).components = p.components ++ componentsBelow p q := by
  by_cases hp : p.bytes = []
  · have hjoin : p.join q = q := by simp [join, hq, hp]
    have hnone : p.components = [] := by
      simp only [components, parts, isAbsolute, hp]
      decide
    rw [hjoin, hnone, componentsBelow, if_pos hp, List.nil_append]
  · rw [componentsBelow, if_neg hp, components_eq, components_eq p, isAbsolute_join_relative hq,
      head?_split_join hq hp, steps_join hq]
    split
    · rfl
    · split <;> rfl

theorem componentsBelow_empty (directory : Path) : componentsBelow directory ⟨[]⟩ = [] := by
  unfold componentsBelow
  split <;> decide

/-- A text is an absolute path just when it begins with a slash. -/
theorem isAbsolute_ofString :
    (ofString (String.ofList cs)).isAbsolute = true ↔ cs.head? = some '/' := by
  simp only [isAbsolute, ofString, String.toList_ofList, decide_eq_true_eq]
  cases cs with
  | nil => simp [Text.Utf8.encode]
  | cons c cs =>
    have hencode : Text.Utf8.encode (c :: cs) =
        Text.Utf8.encode [c] ++ Text.Utf8.encode cs := by simp [Text.Utf8.encode]
    constructor
    · intro hhead
      by_contra hne
      have hslash : '/' ∉ [c] := by simpa [eq_comm] using hne
      rw [hencode, List.head?_append_of_ne_nil _ (Text.Utf8.encode_cons_ne_nil c [])] at hhead
      exact Extension.slash_not_mem_encode hslash (List.mem_of_head? hhead)
    · intro hhead
      obtain rfl : c = '/' := by simpa using hhead
      rw [hencode]
      rfl

end Path

namespace AliasTable

open ImportCycles.Alias ImportCycles.Path

variable {aliases : List Alias} {a : Alias} {specifier : String} {behind : List Char} {path : Path}

/-- What an alias puts in place of a specifier lies below its directory, and its components go on
with those of what is left of the specifier, unless that begins with a slash. Then it is an absolute
path and replaces the directory. -/
theorem expansion_below_directory (h : (ofList aliases).expand? specifier = some path) :
    ∃ a ∈ aliases, ∃ behind, a.Covers specifier behind ∧ IsLongest aliases specifier a ∧
      ((a.remainder behind).head? ≠ some '/' → path.components = a.directory.components ++
        componentsBelow a.directory (Path.ofString (String.ofList (a.remainder behind)))) ∧
      ((a.remainder behind).head? = some '/' →
        path = Path.ofString (String.ofList (a.remainder behind))) := by
  obtain ⟨a, ha, behind, hcovers, hlongest, rfl⟩ := exists_of_expand? h
  refine ⟨a, ha, behind, hcovers, hlongest, fun hhead => ?_, fun hhead => ?_⟩
  · have hrelative : (Path.ofString (String.ofList (a.remainder behind))).isAbsolute = false := by
      rw [← Bool.not_eq_true, isAbsolute_ofString]
      exact hhead
    unfold pathFor
    split
    · next hempty =>
      rw [hempty, show Path.ofString (String.ofList []) = ⟨[]⟩ from rfl, componentsBelow_empty,
        List.append_nil]
    · exact components_join hrelative
  · have hne : a.remainder behind ≠ [] := fun hnil => by simp [hnil] at hhead
    rw [pathFor, if_neg hne, join, if_pos (isAbsolute_ofString.mpr hhead)]

theorem dotted_remainder_below_directory :
    (ofList [⟨"@/", Path.ofString "/proj/src/"⟩]).expand? "@/./lib//util" =
        some (Path.ofString "/proj/src/./lib//util") ∧
      (Path.ofString "/proj/src/./lib//util").components =
        (Path.ofString "/proj/src/").components ++ (Path.ofString "lib/util").components := by
  have hexpand : (ofList [⟨"@/", Path.ofString "/proj/src/"⟩]).expand? "@/./lib//util" =
      some (Path.ofString "/proj/src/./lib//util") := by
    decide +kernel
  refine ⟨hexpand, ?_⟩
  obtain ⟨a, ha, behind, hcovers, -, hbelow, -⟩ := expansion_below_directory hexpand
  obtain rfl := List.mem_singleton.mp ha
  have htext : "@/".toList ++ "./lib//util".toList = "@/".toList ++ behind := hcovers.text_eq
  obtain rfl : "./lib//util".toList = behind := List.append_cancel_left htext
  rw [hbelow (by decide)]
  decide +kernel

/-- A slash that is doubled after the front leads out of the directory of the alias. -/
theorem not_every_expansion_below_directory :
    ¬ ∀ (aliases : List Alias) (specifier : String) (path : Path),
      (ofList aliases).expand? specifier = some path →
        ∃ a ∈ aliases, a.directory.components <+: path.components := by
  intro hall
  have hexpand : (ofList [⟨"@/", Path.ofString "/proj/src"⟩]).expand? "@//etc/x.js" =
      some (Path.ofString "/etc/x.js") := by
    decide +kernel
  obtain ⟨a, ha, hbelow⟩ := hall _ _ _ hexpand
  obtain rfl := List.mem_singleton.mp ha
  exact absurd hbelow (by decide +kernel)

end AliasTable

end ImportCycles
