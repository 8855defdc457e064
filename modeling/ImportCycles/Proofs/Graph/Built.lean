import Mathlib.Data.List.Nodup
import ImportCycles.Graph.Build
/-! Graphs that arise by adding files and imports, and what holds of every one of them. -/
namespace ImportCycles.Graph

variable {g : Graph} {i origin t : Nat} {p target : Path}

/-- One addition to a graph. -/
inductive Edit where
  | file (p : Path)
  | importOf (origin : Nat) (target : Path)

/-- The graph after an addition; an import that cannot be added changes nothing. -/
def apply (g : Graph) : Edit → Graph
  | .file p => (g.addFile p).1
  | .importOf origin target => (g.addImport origin target).1

/-- Some additions make the graph out of the empty one. -/
def Built (g : Graph) : Prop := ∃ edits : List Edit, edits.foldl apply empty = g

structure WellFormed (g : Graph) : Prop where
  tableSize : g.targetTable.size = g.fileCount
  target_lt : ∀ i, ∀ j ∈ g.targets i, j < g.fileCount
  targets_nodup : ∀ i, (g.targets i).Nodup
  /-- A path has the place of the one file that it is a spelling of. -/
  indexOf?_eq_some : ∀ p i,
    g.indexOf? p = some i ↔ ∃ q, g.file? i = some q ∧ q.components = p.components

theorem targets_of_size_le (h : g.targetTable.size ≤ i) : g.targets i = [] := by
  simp [targets, Array.getElem?_eq_none h]

theorem WellFormed.lt_of_mem_targets {j : Nat} (h : g.WellFormed) (hj : j ∈ g.targets i) :
    i < g.fileCount := by
  by_contra hi
  have hn := targets_of_size_le (g := g) (i := i) (by rw [h.tableSize]; omega)
  simp [hn] at hj

theorem file?_eq_none_iff : g.file? i = none ↔ g.fileCount ≤ i := by
  simp [file?, fileCount]

theorem addFile_known (h : g.indexOf? p = some i) : g.addFile p = (g, i) := by
  simp [addFile, h]

theorem addFile_new (h : g.indexOf? p = none) :
    g.addFile p = (⟨g.files.push p, g.index.insert p.components g.fileCount,
      g.targetTable.push #[]⟩, g.fileCount) := by
  simp [addFile, h]

/-- A new file has no targets, like a place without a file. -/
theorem targets_addFile : (g.addFile p).1.targets i = g.targets i := by
  cases h : g.indexOf? p with
  | some k => rw [addFile_known h]
  | none =>
    simp only [addFile_new h, targets, Array.getElem?_push]
    split
    · subst i
      simp
    · rfl

/-- An import is added, or nothing is changed. -/
theorem addImport_cases (g : Graph) (origin : Nat) (target : Path) :
    (g.addImport origin target).1 = g ∨
      ∃ t, g.indexOf? target = some t ∧ origin < g.targetTable.size ∧ t ∉ g.targets origin ∧
        (g.addImport origin target).1 =
          { g with targetTable := g.targetTable.modify origin (·.push t) } := by
  unfold addImport
  cases ht : g.indexOf? target with
  | none => exact Or.inl rfl
  | some t =>
    cases hk : g.targetTable[origin]? with
    | none => exact Or.inl rfl
    | some known =>
      obtain ⟨ho, -⟩ := Array.getElem?_eq_some_iff.mp hk
      by_cases hc : t ∈ known
      · exact Or.inl (by simp [hc])
      · exact Or.inr ⟨t, rfl, ho, by simpa [targets, hk] using hc, by simp [hc]⟩

theorem targets_modify (ho : origin < g.targetTable.size) :
    ({ g with targetTable := g.targetTable.modify origin (·.push t) } : Graph).targets i =
      if origin = i then g.targets i ++ [t] else g.targets i := by
  simp only [targets, Array.getElem?_modify]
  split
  · subst i
    simp [Array.getElem?_eq_getElem ho]
  · rfl

theorem wellFormed_empty : WellFormed empty where
  tableSize := rfl
  target_lt i j hj := by simp [targets, empty] at hj
  targets_nodup i := by simp [targets, empty]
  indexOf?_eq_some p i := by simp [indexOf?, file?, empty]

theorem WellFormed.addFile (h : g.WellFormed) (p : Path) : (g.addFile p).1.WellFormed := by
  cases hp : g.indexOf? p with
  | some k => rwa [addFile_known hp]
  | none =>
    have hcount : (g.addFile p).1.fileCount = g.fileCount + 1 := by
      simp [addFile_new hp, fileCount]
    refine ⟨?_, ?_, ?_, ?_⟩
    · rw [hcount]
      simp [addFile_new hp, h.tableSize]
    · intro i j hj
      rw [targets_addFile] at hj
      have := h.target_lt i j hj
      omega
    · intro i
      rw [targets_addFile]
      exact h.targets_nodup i
    · intro q i
      have hnew : ∀ r, g.file? i = some r → r.components ≠ p.components := by
        intro r hr he
        have := (h.indexOf?_eq_some p i).mpr ⟨r, hr, he⟩
        simp [hp] at this
      have hq := h.indexOf?_eq_some q i
      simp only [indexOf?, file?] at hq hnew
      simp only [addFile_new hp, indexOf?, file?, fileCount, Std.HashMap.getElem?_insert,
        Array.getElem?_push]
      by_cases hi : i = g.files.size
      · subst i
        by_cases he : p.components = q.components
        · simp [he]
        · simpa [he] using hq
      · by_cases he : p.components = q.components
        · simp only [beq_iff_eq, he, if_true, if_neg hi]
          constructor
          · intro heq
            exact absurd (Option.some.inj heq).symm hi
          · rintro ⟨r, hr, hc⟩
            exact (hnew r hr (hc.trans he.symm)).elim
        · simpa [he, hi] using hq

theorem WellFormed.addImport (h : g.WellFormed) (origin : Nat) (target : Path) :
    (g.addImport origin target).1.WellFormed := by
  obtain he | ⟨t, ht, ho, hnot, he⟩ := addImport_cases g origin target
  · rwa [he]
  · rw [he]
    obtain ⟨q, hq, -⟩ := (h.indexOf?_eq_some target t).mp ht
    have hlt : t < g.fileCount := by
      by_contra hge
      simp [file?_eq_none_iff.mpr (by omega : g.fileCount ≤ t)] at hq
    refine ⟨by simpa [fileCount] using h.tableSize, ?_, ?_, h.indexOf?_eq_some⟩
    · intro i j hj
      rw [targets_modify ho] at hj
      split at hj
      · rcases List.mem_append.mp hj with hj | hj
        · exact h.target_lt i j hj
        · rw [List.mem_singleton.mp hj]
          exact hlt
      · exact h.target_lt i j hj
    · intro i
      rw [targets_modify ho]
      split
      · subst i
        simpa using (h.targets_nodup origin).concat hnot
      · exact h.targets_nodup i

theorem built_empty : Built empty := ⟨[], rfl⟩

theorem Built.apply (h : g.Built) (edit : Edit) : (g.apply edit).Built := by
  obtain ⟨edits, rfl⟩ := h
  exact ⟨edits ++ [edit], by simp⟩

theorem WellFormed.apply (h : g.WellFormed) (edit : Edit) : (g.apply edit).WellFormed := by
  cases edit with
  | file p => exact h.addFile p
  | importOf origin target => exact h.addImport origin target

theorem Built.wellFormed (h : g.Built) : g.WellFormed := by
  obtain ⟨edits, rfl⟩ := h
  exact List.foldlRecOn edits Graph.apply wellFormed_empty fun _ hg edit _ => hg.apply edit

theorem built_addFiles (h : g.Built) (files : List Path) : (addFiles g files).1.Built := by
  induction files generalizing g with
  | nil => exact h
  | cons p files ih => exact ih (h.apply (.file p))

theorem built_addTargets {state : Graph × Lost} (h : state.1.Built) (targets : List Path) :
    (addTargets origin state targets).1.Built := by
  induction targets generalizing state with
  | nil => exact h
  | cons target targets ih => exact ih (h.apply (.importOf origin target))

theorem built_ofImports (files : List Path) (targets : List (List Path)) :
    (ofImports files targets).1.Built := by
  have hfold : ∀ (imports : List (Nat × List Path)) (state : Graph × Lost), state.1.Built →
      (imports.foldl (fun state one => addTargets one.1 state one.2) state).1.Built := by
    intro imports
    induction imports with
    | nil => exact fun _ h => h
    | cons one imports ih => exact fun state h => ih _ (built_addTargets h one.2)
  exact hfold _ _ (built_addFiles built_empty files)

/-- `a` imports `b` and `d`, each of these imports `c`, and `c` imports `a`. -/
def detour : Graph :=
  (["a", "b", "c", "d"].map (fun file => Edit.file (Path.ofString file)) ++
    [(0, "b"), (1, "c"), (2, "a"), (0, "d"), (3, "c")].map
      fun (origin, target) => Edit.importOf origin (Path.ofString target)).foldl apply empty

theorem built_detour : detour.Built := ⟨_, rfl⟩

end ImportCycles.Graph
