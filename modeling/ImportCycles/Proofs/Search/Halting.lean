import Mathlib.Algebra.BigOperators.Group.Finset.Basic
import Mathlib.Algebra.Order.BigOperators.Group.Finset
import Mathlib.Algebra.Ring.Nat
import ImportCycles.Proofs.Search.Step
/-! How many steps a search takes, and how it ends. -/
namespace ImportCycles.Graph

open Finset

variable {g : Graph}

theorem foldr_size_eq_sum (table : List (Array Nat)) :
    table.foldr (fun targets n => targets.size + n) 0 =
      ∑ i ∈ range table.length, ((table[i]?).getD #[]).size := by
  induction table with
  | nil => rfl
  | cons targets table ih =>
    rw [List.foldr_cons, ih, List.length_cons, sum_range_succ', Nat.add_comm]
    simp

theorem WellFormed.edgeCount_eq_sum (hg : g.WellFormed) :
    g.edgeCount = ∑ i ∈ range g.fileCount, (g.targets i).length := by
  rw [edgeCount, foldr_size_eq_sum]
  simp [targets, ← hg.tableSize]

namespace Search

variable {s t : Search} {marks : Array Mark} {before : List Frame} {found : List (List Nat)}
  {pending : List Nat} {node n k i : Nat}

/-- The steps that one file takes: one for each target, and one to leave it. -/
def weight (g : Graph) (i : Nat) : Nat := (g.targets i).length + 1

/-- The files that the search has not come to. -/
def freshFiles (g : Graph) (s : Search) : Finset Nat :=
  {i ∈ range g.fileCount | s.marks[i]? = some .fresh}

/-- The steps that are left to a search, if it comes to every file. -/
def cost (g : Graph) (s : Search) : Nat :=
  (s.way.map fun f => f.pending.length + 1).sum + ∑ i ∈ freshFiles g s, weight g i

theorem Valid.mem_freshFiles (h : Valid g s) : i ∈ freshFiles g s ↔ s.marks[i]? = some .fresh := by
  simp only [freshFiles, mem_filter, mem_range, and_iff_right_iff_imp]
  exact h.lt_of_mark

theorem freshFiles_enter : freshFiles g (s.enter g i) = (freshFiles g s).erase i := by
  ext j
  simp only [freshFiles, Search.enter, mem_filter, mem_erase, Array.getElem?_setIfInBounds]
  by_cases hj : i = j
  · subst j
    simp
  · simp [hj, Ne.symm hj]

/-- A file that is left is not fresh before, either. -/
theorem Valid.freshFiles_leave (h : Valid g ⟨marks, ⟨node, pending⟩ :: before, found⟩) :
    freshFiles g ⟨marks.setIfInBounds node .left, before, found⟩ =
      freshFiles g ⟨marks, ⟨node, pending⟩ :: before, found⟩ := by
  ext j
  simp only [freshFiles, mem_filter, Array.getElem?_setIfInBounds]
  by_cases hj : node = j
  · subst j
    simp [h.mark_last]
  · simp [hj]

theorem Valid.cost_enter (h : Valid g s) (hf : s.marks[i]? = some .fresh) :
    cost g (s.enter g i) = cost g s := by
  have hsum := add_sum_erase (freshFiles g s) (weight g) (h.mem_freshFiles.mpr hf)
  have hway : (s.enter g i).way = ⟨i, g.targets i⟩ :: s.way := rfl
  simp only [cost, freshFiles_enter, hway, List.map_cons, List.sum_cons]
  simp only [weight] at hsum ⊢
  omega

/-- Every step takes one from the cost. -/
theorem Valid.cost_step (h : Valid g s) (hs : Step g s t) : cost g s = cost g t + 1 := by
  cases hs with
  | leave =>
    simp only [cost, h.freshFiles_leave, List.map_cons, List.sum_cons, List.length_nil]
    omega
  | @descend marks node target pending before found hf =>
    rw [Valid.cost_enter (h.consume found) hf]
    simp only [cost, freshFiles, List.map_cons, List.sum_cons, List.length_cons]
    omega
  | close _ =>
    simp only [cost, freshFiles, List.map_cons, List.sum_cons, List.length_cons]
    omega
  | pass _ =>
    simp only [cost, freshFiles, List.map_cons, List.sum_cons, List.length_cons]
    omega

/-- All files take as many steps as there are files and imports. -/
theorem sum_weight (hg : g.WellFormed) :
    ∑ i ∈ range g.fileCount, weight g i = g.fileCount + g.edgeCount := by
  simp only [weight, sum_add_distrib, hg.edgeCount_eq_sum, ← card_eq_sum_ones, card_range]
  exact Nat.add_comm _ _

/-- With nothing on the way no more than all files and imports are left. -/
theorem cost_le (hg : g.WellFormed) (hw : s.way = []) :
    cost g s ≤ g.fileCount + g.edgeCount := by
  have hsub := sum_le_sum_of_subset (f := weight g)
    (filter_subset (fun i => s.marks[i]? = some .fresh) (range g.fileCount))
  rw [sum_weight hg] at hsub
  simp only [cost, hw, List.map_nil, List.sum_nil, freshFiles]
  omega

theorem freshFiles_start : freshFiles g (start g) = range g.fileCount := by
  ext i
  simp [freshFiles, start, Array.getElem?_replicate]

/-- At the start all of them are. -/
theorem cost_start (hg : g.WellFormed) : cost g (start g) = g.fileCount + g.edgeCount := by
  have hway : (start g).way = [] := rfl
  simp only [cost, hway, freshFiles_start, sum_weight hg, List.map_nil, List.sum_nil, Nat.zero_add]

theorem Reached.run (h : Reached g s) : Reached g (run g n s) := by
  induction n generalizing s with
  | zero => exact h
  | succ n ih =>
    simp only [Search.run]
    cases hs : s.step g with
    | none => exact h
    | some t => exact ih (h.step (step_eq_some.mp hs))

/-- A search with as many steps as it costs leaves every file. -/
theorem Valid.way_run (h : Valid g s) (hn : cost g s ≤ n) : (run g n s).way = [] := by
  induction n generalizing s with
  | zero =>
    cases hw : s.way with
    | nil => exact hw
    | cons f before =>
      simp only [cost, hw, List.map_cons, List.sum_cons] at hn
      omega
  | succ n ih =>
    simp only [run]
    cases hs : s.step g with
    | none => exact step_eq_none.mp hs
    | some t =>
      have hstep := step_eq_some.mp hs
      have hcost := h.cost_step hstep
      exact ih (h.step hstep) (by omega)

/-- A search that has come to its end by single steps ends there with as many as it costs. -/
theorem Valid.run_eq (h : Valid g s) (hs : Relation.ReflTransGen (Step g) s t) (ht : t.way = [])
    (hn : cost g s ≤ n) : run g n s = t := by
  induction hs using Relation.ReflTransGen.head_induction_on generalizing n with
  | refl =>
    cases n with
    | zero => rfl
    | succ n => simp [run, step_eq_none.mpr ht]
  | head hstep _ ih =>
    have hcost := h.cost_step hstep
    obtain ⟨n, rfl⟩ : ∃ m, n = m + 1 := ⟨n - 1, by omega⟩
    simp only [run, step_eq_some.mpr hstep]
    exact ih (h.step hstep) (by omega)

theorem setIfInBounds_not_fresh {marks : Array Mark} {j : Nat} {m : Mark} (hm : m ≠ .fresh)
    (hi : i = j ∨ marks[i]? ≠ some .fresh) :
    (marks.setIfInBounds j m)[i]? ≠ some .fresh := by
  rw [Array.getElem?_setIfInBounds]
  split
  · split <;> simp [hm]
  · exact hi.resolve_left (by omega)

/-- A file that has been come to is never fresh again. -/
theorem Step.not_fresh (hs : Step g s t) (hi : s.marks[i]? ≠ some .fresh) :
    t.marks[i]? ≠ some .fresh := by
  cases hs with
  | leave => exact setIfInBounds_not_fresh (by simp) (Or.inr hi)
  | descend _ => exact setIfInBounds_not_fresh (by simp) (Or.inr hi)
  | close _ => exact hi
  | pass _ => exact hi

theorem run_not_fresh (hi : s.marks[i]? ≠ some .fresh) : (run g n s).marks[i]? ≠ some .fresh := by
  induction n generalizing s with
  | zero => exact hi
  | succ n ih =>
    simp only [run]
    cases hs : s.step g with
    | none => exact hi
    | some t => exact ih ((step_eq_some.mp hs).not_fresh hi)

/-- The search has come to the end of its first `k` roots. -/
structure Rests (g : Graph) (k : Nat) (s : Search) : Prop where
  reached : Reached g s
  way : s.way = []
  not_fresh : ∀ i < k, s.marks[i]? ≠ some .fresh

theorem rests_start : Rests g 0 (start g) where
  reached := .start
  way := rfl
  not_fresh i hi := absurd hi (Nat.not_lt_zero i)

theorem fromRoot_fresh (hf : s.marks[i]? = some .fresh) :
    fromRoot g n s i = run g n (s.enter g i) := by
  simp [fromRoot, hf]

theorem fromRoot_not_fresh (hf : s.marks[i]? ≠ some .fresh) : fromRoot g n s i = s := by
  unfold fromRoot
  split
  · contradiction
  · rfl

theorem Rests.fromRoot (hg : g.WellFormed) (h : Rests g k s) :
    Rests g (k + 1) (fromRoot g (g.fileCount + g.edgeCount) s k) := by
  by_cases hf : s.marks[k]? = some .fresh
  · have hentered := h.reached.enter h.way hf
    rw [fromRoot_fresh hf]
    refine ⟨hentered.run, hentered.valid.way_run ?_, ?_⟩
    · rw [h.reached.valid.cost_enter hf]
      exact cost_le hg h.way
    · intro i hi
      refine run_not_fresh (setIfInBounds_not_fresh (by simp) ?_)
      rcases Nat.lt_succ_iff_lt_or_eq.mp hi with hi | rfl
      · exact Or.inr (h.not_fresh i hi)
      · exact Or.inl rfl
  · rw [fromRoot_not_fresh hf]
    refine ⟨h.reached, h.way, ?_⟩
    intro i hi
    rcases Nat.lt_succ_iff_lt_or_eq.mp hi with hi | rfl
    · exact h.not_fresh i hi
    · exact hf

theorem rests_roots (hg : g.WellFormed) (k : Nat) :
    Rests g k ((List.range k).foldl (fromRoot g (g.fileCount + g.edgeCount)) (start g)) := by
  induction k with
  | zero => exact rests_start
  | succ k ih =>
    rw [List.range_succ, List.foldl_concat]
    exact ih.fromRoot hg

theorem rests_search (hg : g.WellFormed) : Rests g g.fileCount g.search :=
  rests_roots hg g.fileCount

/-- In the end every file has been left. -/
theorem search_left (hg : g.WellFormed) (hi : i < g.fileCount) :
    g.search.marks[i]? = some .left := by
  have h := rests_search hg
  have hv := h.reached.valid
  cases hm : g.search.marks[i]? with
  | none =>
    have := Array.getElem?_eq_none_iff.mp hm
    rw [hv.marks_size] at this
    omega
  | some m =>
    cases m with
    | fresh => exact absurd hm (h.not_fresh i hi)
    | onWay k =>
      have := (hv.onWay_iff i k).mp hm
      simp [path, h.way] at this
    | left => rfl

end Search

end ImportCycles.Graph
