import Mathlib.Algebra.BigOperators.Group.Finset.Piecewise
import ImportCycles.Proofs.Search.Halting
/-!
Imports recorded one after the other: each file has as its targets the first occurrences of the
known files among those given for it, and every import is an edge, a repetition or dropped.
-/
namespace ImportCycles.Graph

/-- The place of the file that is the same path as `target`. -/
def placeOf? (files : List Path) (target : Path) : Option Nat :=
  files.findIdx? fun file => file.same target

/-- One import is added or counted as lost. -/
def record (state : Graph × Lost) (imported : Nat × Path) : Graph × Lost :=
  ((state.1.addImport imported.1 imported.2).1,
    state.2.count (state.1.addImport imported.1 imported.2).2)

/-- What some imports have made of a graph `g` that had none. -/
structure Recorded (g : Graph) (imports : List (Nat × Path)) (state : Graph × Lost) : Prop where
  wellFormed : state.1.WellFormed
  files_eq : state.1.files = g.files
  index_eq : state.1.index = g.index
  targets_eq : ∀ i, state.1.targets i =
    ((imports.filter fun e => e.1 = i).filterMap fun e => g.indexOf? e.2).eraseDups
  dropped_eq : state.2.dropped = imports.countP fun e => (g.indexOf? e.2).isNone
  balance : state.1.edgeCount + state.2.repeated + state.2.dropped = imports.length

variable {g : Graph} {files : List Path} {imports : List (Nat × Path)} {state : Graph × Lost}
  {i origin t : Nat} {p target : Path}

theorem length_edges (hg : g.WellFormed) : g.edges.length = g.edgeCount := by
  rw [hg.edgeCount_eq_sum, edges, List.length_flatMap]
  simp only [List.length_map]
  rfl

theorem addImport_unknown (ht : g.indexOf? target = none) :
    g.addImport origin target = (g, .unknownTarget) := by
  simp [addImport, ht]

theorem addImport_known (hg : g.WellFormed) (ho : origin < g.fileCount)
    (ht : g.indexOf? target = some t) :
    g.addImport origin target = if t ∈ g.targets origin then (g, .repeated)
      else ({ g with targetTable := g.targetTable.modify origin (·.push t) }, .added) := by
  have hlt : origin < g.targetTable.size := by rw [hg.tableSize]; exact ho
  simp [addImport, ht, targets, Array.getElem?_eq_getElem hlt]

/-- One target more is one edge more. -/
theorem edgeCount_modify (hg : g.WellFormed) (ho : origin < g.fileCount)
    (hg' : ({ g with targetTable := g.targetTable.modify origin (·.push t) } : Graph).WellFormed) :
    ({ g with targetTable := g.targetTable.modify origin (·.push t) } : Graph).edgeCount =
      g.edgeCount + 1 := by
  have hlt : origin < g.targetTable.size := by rw [hg.tableSize]; exact ho
  have hlen : ∀ i, (({ g with targetTable := g.targetTable.modify origin (·.push t) } : Graph).targets
      i).length = (g.targets i).length + if origin = i then 1 else 0 := by
    intro i
    rw [targets_modify hlt]
    split <;> simp
  have hcount : ({ g with targetTable := g.targetTable.modify origin (·.push t) } :
      Graph).fileCount = g.fileCount := rfl
  rw [hg'.edgeCount_eq_sum, hg.edgeCount_eq_sum, hcount]
  simp only [hlen, Finset.sum_add_distrib, Finset.sum_ite_eq]
  rw [if_pos (Finset.mem_range.mpr ho)]

theorem eraseDups_concat {l : List Nat} :
    (l ++ [t]).eraseDups = if t ∈ l then l.eraseDups else l.eraseDups ++ [t] := by
  rw [List.eraseDups_append]
  split <;> simp [List.removeAll, List.eraseDups_cons, *]

theorem recorded_nil (hg : g.WellFormed) (hnone : ∀ i, g.targets i = []) :
    Recorded g [] (g, .none) where
  wellFormed := hg
  files_eq := rfl
  index_eq := rfl
  targets_eq i := by rw [hnone i]; rfl
  dropped_eq := rfl
  balance := by simp [hg.edgeCount_eq_sum, hnone, Lost.none]

theorem filter_concat {α : Type} {imports : List (Nat × α)} {target : α} :
    ((imports ++ [(origin, target)]).filter fun e => e.1 = i) =
      if origin = i then (imports.filter fun e => e.1 = i) ++ [(origin, target)]
      else imports.filter fun e => e.1 = i := by
  rw [List.filter_append]
  split <;> simp [*]

namespace Recorded

/-- A known target comes after the others of its origin, unless it is among them. -/
theorem targets_concat (h : Recorded g imports state) (ht : g.indexOf? target = some t) (i : Nat) :
    (((imports ++ [(origin, target)]).filter fun e => e.1 = i).filterMap
      fun e => g.indexOf? e.2).eraseDups =
        if origin = i ∧ t ∉ state.1.targets i then state.1.targets i ++ [t]
        else state.1.targets i := by
  rw [filter_concat, h.targets_eq]
  by_cases hi : origin = i
  · simp only [hi, if_true, List.filterMap_append, List.filterMap_cons, ht, List.filterMap_nil,
      eraseDups_concat, List.mem_eraseDups]
    split <;> simp [*]
  · simp [hi]

theorem dropped_concat (h : Recorded g imports state) (ht : g.indexOf? target = some t) :
    state.2.dropped =
      (imports ++ [(origin, target)]).countP fun e => (g.indexOf? e.2).isNone := by
  rw [h.dropped_eq]
  simp [List.countP_append, ht]

theorem unknown (h : Recorded g imports state) (ht : g.indexOf? target = none) :
    Recorded g (imports ++ [(origin, target)])
      (state.1, { state.2 with dropped := state.2.dropped + 1 }) := by
  refine ⟨h.wellFormed, h.files_eq, h.index_eq, ?_, ?_, ?_⟩
  · intro i
    rw [filter_concat]
    split
    · simpa [ht] using h.targets_eq i
    · exact h.targets_eq i
  · simp [List.countP_append, ht, h.dropped_eq]
  · have hbalance := h.balance
    simp only [List.length_append, List.length_singleton]
    omega

theorem repeated (h : Recorded g imports state) (ht : g.indexOf? target = some t)
    (hmem : t ∈ state.1.targets origin) :
    Recorded g (imports ++ [(origin, target)])
      (state.1, { state.2 with repeated := state.2.repeated + 1 }) := by
  refine ⟨h.wellFormed, h.files_eq, h.index_eq, ?_, h.dropped_concat ht, ?_⟩
  · intro i
    rw [h.targets_concat ht, if_neg]
    rintro ⟨rfl, hnot⟩
    exact hnot hmem
  · have hbalance := h.balance
    simp only [List.length_append, List.length_singleton]
    omega

theorem added (h : Recorded g imports state) (ho : origin < state.1.fileCount)
    (ht : g.indexOf? target = some t) (hmem : t ∉ state.1.targets origin)
    (hwf : Graph.WellFormed { state.1 with
      targetTable := state.1.targetTable.modify origin (·.push t) }) :
    Recorded g (imports ++ [(origin, target)])
      ({ state.1 with targetTable := state.1.targetTable.modify origin (·.push t) }, state.2) := by
  have hlt : origin < state.1.targetTable.size := by rw [h.wellFormed.tableSize]; exact ho
  refine ⟨hwf, h.files_eq, h.index_eq, ?_, h.dropped_concat ht, ?_⟩
  · intro i
    rw [h.targets_concat ht, targets_modify hlt]
    by_cases hi : origin = i
    · subst hi
      simp [hmem]
    · simp [hi]
  · have hbalance := h.balance
    simp only [edgeCount_modify h.wellFormed ho hwf, List.length_append, List.length_singleton]
    omega

theorem step (h : Recorded g imports state) (ho : origin < g.fileCount) (target : Path) :
    Recorded g (imports ++ [(origin, target)]) (record state (origin, target)) := by
  have hindex : state.1.indexOf? target = g.indexOf? target := by
    rw [indexOf?, h.index_eq]
    rfl
  have hcount : origin < state.1.fileCount := by
    rw [fileCount, h.files_eq]
    exact ho
  have hwf : (record state (origin, target)).1.WellFormed := h.wellFormed.addImport origin target
  cases ht : g.indexOf? target with
  | none =>
    have hrecord : record state (origin, target) =
        (state.1, { state.2 with dropped := state.2.dropped + 1 }) := by
      simp [record, addImport_unknown (hindex.trans ht), Lost.count]
    rw [hrecord]
    exact h.unknown ht
  | some t =>
    have haddImport := addImport_known h.wellFormed hcount (hindex.trans ht)
    by_cases hmem : t ∈ state.1.targets origin
    · have hrecord : record state (origin, target) =
          (state.1, { state.2 with repeated := state.2.repeated + 1 }) := by
        simp [record, haddImport, hmem, Lost.count]
      rw [hrecord]
      exact h.repeated ht hmem
    · have hrecord : record state (origin, target) =
          ({ state.1 with targetTable := state.1.targetTable.modify origin (·.push t) }, state.2) := by
        simp [record, haddImport, hmem, Lost.count]
      rw [hrecord] at hwf ⊢
      exact h.added hcount ht hmem hwf

end Recorded

theorem Recorded.foldl {done : List (Nat × Path)} (h : Recorded g done state)
    (ho : ∀ e ∈ imports, e.1 < g.fileCount) :
    Recorded g (done ++ imports) (imports.foldl record state) := by
  induction imports generalizing done state with
  | nil => simpa using h
  | cons e imports ih =>
    rw [List.forall_mem_cons] at ho
    have := ih (h.step ho.1 e.2) ho.2
    rwa [List.append_assoc] at this

/-- Adding files gives no file a target. -/
theorem targets_addFiles : (addFiles g files).1.targets i = g.targets i := by
  induction files generalizing g with
  | nil => rfl
  | cons p files ih =>
    rw [addFiles]
    exact ih.trans targets_addFile

theorem same_eq_true {q : Path} : p.same q = true ↔ p.components = q.components := by
  simp [Path.same]

/-- Among distinct files one at most is a given path. -/
theorem placeOf?_eq_some (hd : files.Pairwise fun p q => ¬ p.same q) :
    placeOf? files p = some i ↔ ∃ file, files[i]? = some file ∧ file.same p = true := by
  rw [placeOf?, List.findIdx?_eq_some_iff_getElem]
  constructor
  · rintro ⟨hi, hsame, -⟩
    exact ⟨files[i], List.getElem?_eq_getElem hi, hsame⟩
  · rintro ⟨file, hfile, hsame⟩
    obtain ⟨hi, rfl⟩ := List.getElem?_eq_some_iff.mp hfile
    refine ⟨hi, hsame, fun k hk hk' => ?_⟩
    rw [same_eq_true] at hsame hk'
    exact List.pairwise_iff_getElem.mp hd k i (hk.trans hi) hi hk
      (same_eq_true.mpr (hk'.trans hsame.symm))

/-- A graph finds a path where it stands among its files. -/
theorem WellFormed.indexOf?_eq (hg : g.WellFormed) (hfiles : g.files.toList = files) (p : Path) :
    g.indexOf? p = placeOf? files p := by
  have hat : ∀ i, g.file? i = files[i]? := by
    intro i
    rw [file?, ← hfiles, Array.getElem?_toList]
  cases h : placeOf? files p with
  | some i =>
    obtain ⟨hi, hsame, -⟩ := List.findIdx?_eq_some_iff_getElem.mp h
    rw [hg.indexOf?_eq_some]
    exact ⟨files[i], by rw [hat, List.getElem?_eq_getElem hi], same_eq_true.mp hsame⟩
  | none =>
    rw [placeOf?, List.findIdx?_eq_none_iff] at h
    cases hindex : g.indexOf? p with
    | none => rfl
    | some i =>
      obtain ⟨q, hq, hsame⟩ := (hg.indexOf?_eq_some p i).mp hindex
      rw [hat] at hq
      have := h q (List.mem_of_getElem? hq)
      rw [same_eq_true.mpr hsame] at this
      exact absurd this (by simp)

end ImportCycles.Graph
