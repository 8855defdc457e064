import ImportCycles.Proofs.Graph.Imports
import ImportCycles.Proofs.Lists
/-!
What a graph stands for: a list of distinct paths and a list of distinct imports between them. The
table of files, the index and the targets stay in step with these two lists through every sequence
of additions, those that fail included.
-/
namespace ImportCycles.Graph

/-- Distinct files, and distinct imports by the places of their two files, each in the order in
which they were added. -/
structure Store where
  files : List Path
  imports : List (Nat × Nat)
  distinct : files.Pairwise fun p q => ¬ p.same q
  imports_nodup : imports.Nodup
  imports_lt : ∀ e ∈ imports, e.1 < files.length ∧ e.2 < files.length

variable {g : Graph} {s : Store} {files : List Path} {p target : Path} {i origin t : Nat}

theorem placeOf?_eq_none : placeOf? files p = none ↔ ∀ file ∈ files, file.same p = false :=
  List.findIdx?_eq_none_iff

theorem lt_of_placeOf? (h : placeOf? files p = some i) : i < files.length :=
  (List.findIdx?_eq_some_iff_getElem.mp h).1

theorem distinct_concat (hd : files.Pairwise fun p q => ¬ p.same q) (h : placeOf? files p = none) :
    (files ++ [p]).Pairwise fun p q => ¬ p.same q := by
  rw [List.pairwise_append]
  refine ⟨hd, List.pairwise_singleton _ p, fun q hq r hr => ?_⟩
  obtain rfl := List.mem_singleton.mp hr
  simp [placeOf?_eq_none.mp h q hq]

namespace Store

def empty : Store := ⟨[], [], .nil, .nil, by simp⟩

/-- The store with a file, and where that file stands in it. -/
def addFile (s : Store) (p : Path) : Store × Nat :=
  match h : placeOf? s.files p with
  | some i => (s, i)
  | none =>
    ({ files := s.files ++ [p]
       imports := s.imports
       distinct := distinct_concat s.distinct h
       imports_nodup := s.imports_nodup
       imports_lt := fun e he => by
        have := s.imports_lt e he
        simp only [List.length_append, List.length_singleton]
        omega },
      s.files.length)

/-- The store with an import, unless one of its files is missing or it is there already. -/
def addImport (s : Store) (origin : Nat) (target : Path) : Store × Outcome :=
  match h : placeOf? s.files target with
  | none => (s, .unknownTarget)
  | some t =>
    if horigin : origin < s.files.length then
      if hnew : (origin, t) ∈ s.imports then (s, .repeated)
      else
        ({ s with
          imports := s.imports ++ [(origin, t)]
          imports_nodup := by simpa using s.imports_nodup.concat hnew
          imports_lt := by
            rw [List.forall_mem_append, List.forall_mem_singleton]
            exact ⟨s.imports_lt, horigin, lt_of_placeOf? h⟩ },
          .added)
    else (s, .unknownOrigin)

def apply (s : Store) : Edit → Store
  | .file p => (s.addFile p).1
  | .importOf origin target => (s.addImport origin target).1

theorem addFile_known (h : placeOf? s.files p = some i) : s.addFile p = (s, i) := by
  unfold addFile
  split
  · next k hk => rw [Option.some.inj (hk.symm.trans h)]
  · next hnone => simp [h] at hnone

theorem addFile_new (h : placeOf? s.files p = none) :
    (s.addFile p).1.files = s.files ++ [p] ∧ (s.addFile p).1.imports = s.imports ∧
      (s.addFile p).2 = s.files.length := by
  unfold addFile
  split
  · next k hk => simp [h] at hk
  · exact ⟨rfl, rfl, rfl⟩

theorem addImport_unknown (h : placeOf? s.files target = none) :
    s.addImport origin target = (s, .unknownTarget) := by
  unfold addImport
  split
  · rfl
  · next t ht => simp [h] at ht

theorem addImport_unknownOrigin (h : placeOf? s.files target = some t)
    (ho : s.files.length ≤ origin) : s.addImport origin target = (s, .unknownOrigin) := by
  unfold addImport
  split
  · next hnone => simp [h] at hnone
  · rw [dif_neg (by omega)]

theorem addImport_repeated (h : placeOf? s.files target = some t) (ho : origin < s.files.length)
    (hmem : (origin, t) ∈ s.imports) : s.addImport origin target = (s, .repeated) := by
  unfold addImport
  split
  · next hnone => simp [h] at hnone
  · next k hk =>
    obtain rfl := Option.some.inj (hk.symm.trans h)
    rw [dif_pos ho, dif_pos hmem]

theorem addImport_new (h : placeOf? s.files target = some t) (ho : origin < s.files.length)
    (hnew : (origin, t) ∉ s.imports) :
    (s.addImport origin target).1.files = s.files ∧
      (s.addImport origin target).1.imports = s.imports ++ [(origin, t)] ∧
      (s.addImport origin target).2 = .added := by
  unfold addImport
  split
  · next hnone => simp [h] at hnone
  · next k hk =>
    obtain rfl := Option.some.inj (hk.symm.trans h)
    rw [dif_pos ho, dif_neg hnew]
    exact ⟨rfl, rfl, rfl⟩

theorem files_addImport (s : Store) (origin : Nat) (target : Path) :
    (s.addImport origin target).1.files = s.files := by
  unfold addImport
  split
  · rfl
  · split
    · split <;> rfl
    · rfl

/-- Additions only put files behind those that are there. -/
theorem files_prefix_apply (s : Store) (edit : Edit) : s.files <+: (s.apply edit).files := by
  cases edit with
  | file p =>
    change s.files <+: (s.addFile p).1.files
    cases h : placeOf? s.files p with
    | some i => rw [addFile_known h]
    | none =>
      rw [(addFile_new h).1]
      exact List.prefix_append _ _
  | importOf origin target =>
    change s.files <+: (s.addImport origin target).1.files
    rw [files_addImport]

theorem files_prefix_foldl (s : Store) (edits : List Edit) :
    s.files <+: (edits.foldl apply s).files := by
  induction edits generalizing s with
  | nil => exact List.prefix_refl _
  | cons edit edits ih => exact (s.files_prefix_apply edit).trans (ih _)

end Store

/-- The graph holds the files of the store in their order, and for each file the targets of its
imports in theirs. -/
structure Represents (g : Graph) (s : Store) : Prop extends g.WellFormed where
  files_eq : g.files.toList = s.files
  targets_eq : ∀ i, g.targets i = (s.imports.filter fun e => e.1 = i).map Prod.snd

theorem represents_empty : Represents empty .empty where
  toWellFormed := wellFormed_empty
  files_eq := rfl
  targets_eq i := by simp [targets, empty, Store.empty]

namespace Represents

theorem fileCount_eq (h : Represents g s) : g.fileCount = s.files.length := by
  rw [fileCount, ← Array.length_toList, h.files_eq]

theorem file?_eq (h : Represents g s) (i : Nat) : g.file? i = s.files[i]? := by
  rw [file?, ← h.files_eq, Array.getElem?_toList]

theorem indexOf?_eq (h : Represents g s) (p : Path) : g.indexOf? p = placeOf? s.files p :=
  h.toWellFormed.indexOf?_eq h.files_eq p

theorem mem_targets_iff (h : Represents g s) : t ∈ g.targets i ↔ (i, t) ∈ s.imports := by
  simp [h.targets_eq]

theorem addFile (h : Represents g s) (p : Path) :
    Represents (g.addFile p).1 (s.addFile p).1 ∧ (g.addFile p).2 = (s.addFile p).2 := by
  cases hp : placeOf? s.files p with
  | some i =>
    rw [Store.addFile_known hp, Graph.addFile_known ((h.indexOf?_eq p).trans hp)]
    exact ⟨h, rfl⟩
  | none =>
    obtain ⟨hfiles, himports, hplace⟩ := Store.addFile_new hp
    have hnew := Graph.addFile_new ((h.indexOf?_eq p).trans hp)
    refine ⟨⟨h.toWellFormed.addFile p, ?_, fun i => ?_⟩, ?_⟩
    · rw [hfiles, hnew, ← h.files_eq]
      simp
    · rw [targets_addFile, himports]
      exact h.targets_eq i
    · rw [hplace, hnew]
      exact h.fileCount_eq

theorem unknownOrigin (h : Represents g s) (ht : g.indexOf? target = some t)
    (ho : s.files.length ≤ origin) : g.addImport origin target = (g, .unknownOrigin) := by
  have hnone : g.targetTable[origin]? = none := by
    rw [Array.getElem?_eq_none_iff, h.tableSize, h.fileCount_eq]
    exact ho
  simp [Graph.addImport, ht, hnone]

theorem addImport (h : Represents g s) (origin : Nat) (target : Path) :
    Represents (g.addImport origin target).1 (s.addImport origin target).1 ∧
      (g.addImport origin target).2 = (s.addImport origin target).2 := by
  have hindex := h.indexOf?_eq target
  cases ht : placeOf? s.files target with
  | none =>
    rw [Store.addImport_unknown ht, Graph.addImport_unknown (hindex.trans ht)]
    exact ⟨h, rfl⟩
  | some t =>
    rw [ht] at hindex
    by_cases ho : origin < s.files.length
    · have hknown := addImport_known h.toWellFormed (h.fileCount_eq ▸ ho) hindex
      by_cases hmem : (origin, t) ∈ s.imports
      · rw [Store.addImport_repeated ht ho hmem, hknown, if_pos (h.mem_targets_iff.mpr hmem)]
        exact ⟨h, rfl⟩
      · obtain ⟨hfiles, himports, hadded⟩ := Store.addImport_new ht ho hmem
        have hwf := h.toWellFormed.addImport origin target
        rw [if_neg (mt h.mem_targets_iff.mp hmem)] at hknown
        rw [hknown] at hwf ⊢
        refine ⟨⟨hwf, h.files_eq.trans hfiles.symm, fun i => ?_⟩, hadded.symm⟩
        have hlt : origin < g.targetTable.size := by
          rw [h.tableSize, h.fileCount_eq]
          exact ho
        rw [targets_modify hlt, himports, filter_concat, h.targets_eq]
        split <;> simp
    · rw [Store.addImport_unknownOrigin ht (by omega), h.unknownOrigin hindex (by omega)]
      exact ⟨h, rfl⟩

theorem apply (h : Represents g s) (edit : Edit) : Represents (g.apply edit) (s.apply edit) := by
  cases edit with
  | file p => exact (h.addFile p).1
  | importOf origin target => exact (h.addImport origin target).1

theorem foldl (h : Represents g s) (edits : List Edit) :
    Represents (edits.foldl Graph.apply g) (edits.foldl Store.apply s) := by
  induction edits generalizing g s with
  | nil => exact h
  | cons edit edits ih => exact ih (h.apply edit)

/-- The edges are the imports, grouped by their origins. -/
theorem edges_eq (h : Represents g s) :
    g.edges = (List.range g.fileCount).flatMap fun i => s.imports.filter fun e => e.1 = i := by
  refine List.flatMap_congr fun i _ => ?_
  rw [h.targets_eq, List.map_map]
  refine (List.map_congr_left fun e he => ?_).trans (List.map_id _)
  have hi : e.1 = i := by simpa using (List.mem_filter.mp he).2
  rw [← hi]
  rfl

theorem edges_perm (h : Represents g s) : g.edges.Perm s.imports := by
  have hall : (s.imports.filter fun e => e.1 ∈ List.range g.fileCount) = s.imports := by
    rw [List.filter_eq_self]
    intro e he
    have := (s.imports_lt e he).1
    simpa [h.fileCount_eq] using this
  have hperm := Lists.perm_flatMap_filter Prod.fst s.imports (List.nodup_range (n := g.fileCount))
  rw [hall] at hperm
  rw [h.edges_eq]
  exact hperm

theorem edgeCount_eq (h : Represents g s) : g.edgeCount = s.imports.length := by
  rw [← length_edges h.toWellFormed]
  exact h.edges_perm.length_eq

/-- An import fails when its target is no file, or else when its origin is none. -/
theorem addImport_failed_iff (h : Represents g s) (origin : Nat) (target : Path) :
    ((g.addImport origin target).2 = .unknownTarget ↔ g.indexOf? target = none) ∧
      ((g.addImport origin target).2 = .unknownOrigin ↔
        g.indexOf? target ≠ none ∧ g.fileCount ≤ origin) := by
  cases ht : g.indexOf? target with
  | none => simp [Graph.addImport_unknown ht]
  | some t =>
    by_cases ho : origin < g.fileCount
    · rw [addImport_known h.toWellFormed ho ht]
      split <;> simp [ho]
    · rw [h.unknownOrigin ht (by rw [← h.fileCount_eq]; omega)]
      simp [Nat.le_of_not_lt ho]

end Represents

theorem addImport_eq_of_ne_added (h : (g.addImport origin target).2 ≠ .added) :
    (g.addImport origin target).1 = g := by
  unfold addImport at h ⊢
  cases ht : g.indexOf? target with
  | none => rfl
  | some t =>
    cases hk : g.targetTable[origin]? with
    | none => rfl
    | some known =>
      by_cases hc : t ∈ known
      · simp [hc]
      · simp [ht, hk, hc] at h

/-- Every sequence of additions, failed ones included, gives the graph of a store: the files stand
in it in the order in which they first came, each in its first spelling, and stay where they are; a
path is found at the place of the file that it spells; the targets of a file and the edges are the
imports in their order. The next addition is answered as the store answers it, and one that fails
changes nothing. -/
theorem additions_refine_store (edits : List Edit) :
    let g := edits.foldl apply empty
    let s := edits.foldl Store.apply Store.empty
    (g.fileCount = s.files.length ∧ ∀ i, g.file? i = s.files[i]?) ∧
    (∀ p, (∀ i, g.indexOf? p = some i ↔ ∃ file, g.file? i = some file ∧ file.same p) ∧
      (g.indexOf? p = none ↔ ∀ file ∈ s.files, ¬ file.same p)) ∧
    (∀ i, g.targets i = (s.imports.filter fun e => e.1 = i).map Prod.snd ∧ (g.targets i).Nodup) ∧
    (g.edges = (List.range g.fileCount).flatMap fun i => s.imports.filter fun e => e.1 = i) ∧
    (g.edgeCount = s.imports.length ∧ g.edgeCount = g.edges.length ∧
      g.edgeCount = ((List.range g.fileCount).map fun i => (g.targets i).length).sum) ∧
    (∀ more : List Edit, ∀ i file, g.file? i = some file →
      (more.foldl apply g).file? i = some file ∧
        (more.foldl apply g).indexOf? file = some i) ∧
    (∀ p, (g.addFile p).2 = (s.addFile p).2) ∧
    (∀ origin target, (g.addImport origin target).2 = (s.addImport origin target).2 ∧
      ((g.addImport origin target).2 = .unknownTarget ↔ g.indexOf? target = none) ∧
      ((g.addImport origin target).2 = .unknownOrigin ↔
        g.indexOf? target ≠ none ∧ g.fileCount ≤ origin) ∧
      ((g.addImport origin target).2 ≠ .added → (g.addImport origin target).1 = g)) := by
  intro g s
  have h : Represents g s := represents_empty.foldl edits
  refine ⟨⟨h.fileCount_eq, h.file?_eq⟩, fun p => ⟨fun i => ?_, ?_⟩,
    fun i => ⟨h.targets_eq i, h.targets_nodup i⟩, h.edges_eq, ⟨h.edgeCount_eq, ?_, ?_⟩, ?_,
    fun p => (h.addFile p).2, fun origin target => ⟨(h.addImport origin target).2, ?_⟩⟩
  · rw [h.indexOf?_eq, placeOf?_eq_some s.distinct]
    simp only [h.file?_eq]
  · rw [h.indexOf?_eq, placeOf?_eq_none]
    simp
  · exact (length_edges h.toWellFormed).symm
  · rw [← length_edges h.toWellFormed, edges, List.length_flatMap]
    simp
  · intro more i file hi
    have hmore := h.foldl more
    have hfile : (more.foldl apply g).file? i = some file := by
      rw [hmore.file?_eq]
      rw [h.file?_eq] at hi
      obtain ⟨hlt, rfl⟩ := List.getElem?_eq_some_iff.mp hi
      exact List.prefix_iff_getElem?.mp (s.files_prefix_foldl more) i hlt
    exact ⟨hfile, (hmore.indexOf?_eq_some file i).mpr ⟨file, hfile, rfl⟩⟩
  · obtain ⟨hunknown, horigin⟩ := h.addImport_failed_iff origin target
    exact ⟨hunknown, horigin, addImport_eq_of_ne_added⟩

end ImportCycles.Graph
