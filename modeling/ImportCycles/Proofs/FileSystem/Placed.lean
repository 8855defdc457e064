import ImportCycles.FileSystem.Edit
import ImportCycles.Proofs.FileSystem.Tree
/-! Putting files, directories and links into a well-formed tree keeps it well formed. -/
namespace ImportCycles

open FileSystem (pathOf)

variable {fs : FileSystem} {names pieces : List Name} {n : Name} {node : Node} {p : Path}
  {entries : List (Name × Node)} {e : Name × Node}

namespace Node

theorem mem_put (h : e ∈ put n node entries) : e = (n, node) ∨ e ∈ entries := by
  induction entries with
  | nil => exact Or.inl (List.mem_singleton.mp h)
  | cons first entries ih =>
    obtain ⟨name, old⟩ := first
    simp only [put] at h
    split at h
    · rcases List.mem_cons.mp h with he | he
      · exact Or.inl he
      · exact Or.inr (List.mem_cons_of_mem _ he)
    · rcases List.mem_cons.mp h with he | he
      · exact Or.inr (he ▸ List.mem_cons_self)
      · rcases ih he with he | he
        · exact Or.inl he
        · exact Or.inr (List.mem_cons_of_mem _ he)

theorem nodup_put (h : (entries.map Prod.fst).Nodup) :
    ((put n node entries).map Prod.fst).Nodup := by
  induction entries with
  | nil => simp [put]
  | cons first entries ih =>
    obtain ⟨name, old⟩ := first
    rw [List.map_cons, List.nodup_cons] at h
    simp only [put]
    split
    · next hname =>
      subst name
      exact List.nodup_cons.mpr h
    · next hname =>
      refine List.nodup_cons.mpr ⟨?_, ih h.2⟩
      intro hmem
      obtain ⟨e, he, heq⟩ := List.mem_map.mp hmem
      rcases mem_put he with rfl | he
      · exact hname heq.symm
      · exact h.1 (List.mem_map.mpr ⟨e, he, heq⟩)

theorem WellFormed.put (h : (Node.directory entries).WellFormed) (hn : IsEntryName n)
    (hnode : node.WellFormed) : (Node.directory (Node.put n node entries)).WellFormed := by
  cases h with
  | directory distinct named inner =>
    refine .directory (nodup_put distinct) ?_ ?_
    · intro e he
      rcases mem_put he with rfl | he
      · exact hn
      · exact named e he
    · intro e he
      rcases mem_put he with rfl | he
      · exact hnode
      · exact inner e he

theorem WellFormed.putAt (h : (Node.directory entries).WellFormed) (hn : AreEntryNames names)
    (hnode : node.WellFormed) : (Node.directory (node.putAt names entries)).WellFormed := by
  induction names generalizing entries with
  | nil => exact h
  | cons name names ih =>
    obtain ⟨hname, hnames⟩ := areEntryNames_cons.mp hn
    have hempty : (Node.directory []).WellFormed := .directory (by simp) (by simp) (by simp)
    cases names with
    | nil => exact h.put hname hnode
    | cons second names =>
      simp only [Node.putAt]
      split
      · next inner hinner => exact h.put hname (ih (h.child? hinner).2 hnames)
      · exact h.put hname (ih hempty hnames)

end Node

namespace FileSystem

theorem wellFormed_makeDirectory (h : fs.top.WellFormed) (hn : AreEntryNames names)
    (hpieces : ∀ piece ∈ pieces, Path.slash ∉ piece) :
    (fs.makeDirectory names pieces).1.top.WellFormed ∧
      AreEntryNames (fs.makeDirectory names pieces).2 := by
  induction pieces generalizing fs names with
  | nil => exact ⟨h, hn⟩
  | cons piece pieces ih =>
    obtain ⟨hslash, hpieces⟩ := List.forall_mem_cons.mp hpieces
    simp only [makeDirectory]
    by_cases hidle : piece = [] ∨ piece = [Path.dot]
    · rw [if_pos hidle]
      exact ih h hn hpieces
    rw [if_neg hidle]
    by_cases hup : piece = [Path.dot, Path.dot]
    · rw [if_pos hup]
      exact ih h (fun m hm => hn m (List.dropLast_subset _ hm)) hpieces
    rw [if_neg hup]
    rw [not_or] at hidle
    have hmore : AreEntryNames (names ++ [piece]) :=
      areEntryNames_concat.mpr ⟨hn, hidle.1, hidle.2, hup, hslash⟩
    split
    · next found entries hfollow =>
      have hat := at?_of_follow hfollow ⟨fs.root, rfl⟩
      exact ih h (h.at? hat).1 hpieces
    · refine ih ?_ hmore hpieces
      exact h.putAt hmore (.directory (by simp) (by simp) (by simp))

/-- Whatever is placed, a well-formed tree stays so. A file or link needs a name at the end of its
path; for a directory any path will do. -/
theorem wellFormed_place (h : fs.top.WellFormed) (hn : AreEntryNames fs.workingDirectory)
    (hnode : node.WellFormed)
    (hname : (∃ entries, node = .directory entries) ∨
      ∃ n, (Path.split p.bytes).getLast? = some n ∧ IsEntryName n) :
    (fs.place p node).top.WellFormed := by
  have hpieces : ∀ piece ∈ Path.split p.bytes, Path.slash ∉ piece :=
    fun _ => Path.noSlash_of_mem_split
  have hstart : AreEntryNames (if p.isAbsolute then [] else fs.workingDirectory) := by
    split
    · exact areEntryNames_nil
    · exact hn
  have hway : ∀ piece ∈ (Path.split p.bytes).dropLast, Path.slash ∉ piece :=
    fun piece hm => hpieces piece (List.dropLast_subset _ hm)
  have hmade := wellFormed_makeDirectory h hstart hway
  have hmadeAll := wellFormed_makeDirectory h hstart hpieces
  rcases hname with ⟨entries, rfl⟩ | ⟨n, hlast, hentry⟩
  · exact hmadeAll.1
  · have hput := hmade.1.putAt (areEntryNames_concat.mpr ⟨hmade.2, hentry⟩) hnode
    cases node with
    | directory entries => exact hmadeAll.1
    | file content =>
      simp only [place, hlast]
      exact hput
    | link target =>
      simp only [place, hlast]
      exact hput

end FileSystem

end ImportCycles
