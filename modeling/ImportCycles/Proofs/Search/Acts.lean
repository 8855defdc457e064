import Mathlib.Algebra.BigOperators.Group.Finset.Basic
import Mathlib.Data.Multiset.Bind
import ImportCycles.Proofs.Search.Halting
/-!
What a search has still to do: every file that it has not come to is entered, its imports are looked
at and it is left, and so with what is pending of the files on the way. Each step does one thing
that was due, or two of them when it enters a file, and nothing else becomes due.
-/
namespace ImportCycles.Graph.Search

open Finset

/-- What a search does with a file or with an import. -/
inductive Act where
  | enter (node : Nat)
  | look (node target : Nat)
  | leave (node : Nat)
deriving DecidableEq, Repr

/-- What is to be done with a file from its pending targets on. -/
def actsFrom (node : Nat) (pending : List Nat) : List Act :=
  pending.map (.look node) ++ [.leave node]

/-- What is to be done with a file that is fresh. -/
def actsOn (g : Graph) (i : Nat) : List Act := .enter i :: actsFrom i (g.targets i)

def due (g : Graph) (s : Search) : Multiset Act :=
  (s.way.map fun f => (actsFrom f.node f.pending : Multiset Act)).sum +
    ∑ i ∈ freshFiles g s, (actsOn g i : Multiset Act)

variable {g : Graph} {s : Search} {marks : Array Mark} {before : List Frame}
  {found : List (List Nat)} {pending : List Nat} {node target i : Nat}

theorem Valid.due_enter (h : Valid g s) (hf : s.marks[i]? = some .fresh) :
    due g s = .enter i ::ₘ due g (s.enter g i) := by
  have hsum := add_sum_erase (freshFiles g s) (fun i => (actsOn g i : Multiset Act))
    (h.mem_freshFiles.mpr hf)
  have hway : (s.enter g i).way = ⟨i, g.targets i⟩ :: s.way := rfl
  have hacts : (actsOn g i : Multiset Act) = .enter i ::ₘ ↑(actsFrom i (g.targets i)) := rfl
  simp only [due, freshFiles_enter, hway, List.map_cons, List.sum_cons, ← hsum, hacts,
    Multiset.cons_add, Multiset.add_cons, add_assoc, add_left_comm]

theorem due_look (found' : List (List Nat)) :
    due g ⟨marks, ⟨node, target :: pending⟩ :: before, found⟩ =
      .look node target ::ₘ due g ⟨marks, ⟨node, pending⟩ :: before, found'⟩ := by
  have hacts : (actsFrom node (target :: pending) : Multiset Act) =
      .look node target ::ₘ ↑(actsFrom node pending) := rfl
  simp only [due, freshFiles, List.map_cons, List.sum_cons, hacts, Multiset.cons_add]

theorem Valid.due_leave (h : Valid g ⟨marks, ⟨node, []⟩ :: before, found⟩) :
    due g ⟨marks, ⟨node, []⟩ :: before, found⟩ =
      .leave node ::ₘ due g ⟨marks.setIfInBounds node .left, before, found⟩ := by
  have hacts : (actsFrom node [] : Multiset Act) = .leave node ::ₘ 0 := rfl
  simp only [due, h.freshFiles_leave, List.map_cons, List.sum_cons, hacts, Multiset.cons_add,
    zero_add]

/-- What is done is not due any more. -/
theorem cons_add_due {a : Act} {acts : List Act} {rest : Multiset Act}
    (h : due g s = a ::ₘ rest) :
    ((a :: acts : List Act) : Multiset Act) + rest = acts + due g s := by
  rw [h, ← Multiset.cons_coe, Multiset.add_cons, Multiset.cons_add]

theorem sum_range_coe (f : Nat → List Act) (n : Nat) :
    ∑ i ∈ range n, (f i : Multiset Act) = ((List.range n).flatMap f : List Act) := by
  induction n with
  | zero => rfl
  | succ n ih => simp [sum_range_succ, ih, List.range_succ, Multiset.coe_add]

/-- At the start everything is due. -/
theorem due_start : due g (start g) = ((List.range g.fileCount).flatMap (actsOn g) : List Act) := by
  have hway : (start g).way = [] := rfl
  simp [due, freshFiles_start, hway, sum_range_coe]

theorem freshFiles_search (hg : g.WellFormed) : freshFiles g g.search = ∅ := by
  ext i
  simp only [freshFiles, mem_filter, mem_range, notMem_empty, iff_false, not_and]
  intro hi
  simp [search_left hg hi]

/-- At the end nothing is. -/
theorem due_search (hg : g.WellFormed) : due g g.search = 0 := by
  simp [due, freshFiles_search hg, (rests_search hg).way]

theorem cost_search (hg : g.WellFormed) : cost g g.search = 0 := by
  simp [cost, freshFiles_search hg, (rests_search hg).way]

end ImportCycles.Graph.Search
