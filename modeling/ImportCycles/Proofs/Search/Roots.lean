import ImportCycles.Proofs.Search.Elementary
/-!
The cycles found from one root share no file with those found from another. Between two roots every
file is fresh or has been left; from a root the search comes to fresh files only, and none of those
in its cycles is fresh again.
-/
namespace ImportCycles.Graph

/-- The search when the first `k` roots have been taken. -/
def searchOfRoots (g : Graph) (k : Nat) : Search :=
  (List.range k).foldl (Search.fromRoot g (g.fileCount + g.edgeCount)) (Search.start g)

/-- The cycles found from root `k` by the places of their files, in the order in which they are
found. -/
def foundFromRoot (g : Graph) (k : Nat) : List (List Nat) :=
  (g.searchOfRoots (k + 1)).found.reverse.drop (g.searchOfRoots k).found.length

def cyclesFromRoot (g : Graph) (k : Nat) : List Cycle :=
  (g.foundFromRoot k).map fun indices => ⟨indices.filterMap g.file?⟩

namespace Search

/-- What a search has come to since it was at `base`: files that were fresh there. -/
structure Since (base s : Search) : Prop where
  fresh_mono : ∀ i : Nat, s.marks[i]? = some .fresh → base.marks[i]? = some .fresh
  path_fresh : ∀ i ∈ s.path, base.marks[i]? = some .fresh
  found_fresh : ∃ more, s.found = more ++ base.found ∧
    ∀ walk ∈ more, ∀ i ∈ walk, base.marks[i]? = some .fresh

variable {g : Graph} {base s t : Search} {marks : Array Mark} {before : List Frame}
  {found : List (List Nat)} {pending : List Nat} {node target position i j k n : Nat}

/-- A cycle that is closed has its files on the way. -/
theorem Valid.mem_path_of_mem_closed
    (h : Valid g ⟨marks, ⟨node, target :: pending⟩ :: before, found⟩)
    (ht : marks[target]? = some (.onWay position))
    (hi : i ∈ closed (⟨node, pending⟩ :: before) position target) :
    i ∈ path ⟨marks, ⟨node, target :: pending⟩ :: before, found⟩ := by
  rw [closed_eq, List.mem_append, List.mem_singleton] at hi
  rcases hi with hi | rfl
  · exact List.mem_of_mem_drop hi
  · exact h.mem_path_iff.mpr ⟨position, ht⟩

theorem since_refl (hw : s.way = []) : Since s s where
  fresh_mono _ hi := hi
  path_fresh i hi := by simp [path, hw] at hi
  found_fresh := ⟨[], rfl, by simp⟩

theorem Since.enter (h : Since base s) (hi : s.marks[i]? = some .fresh) :
    Since base (s.enter g i) where
  fresh_mono j hj := by
    by_contra hnot
    exact setIfInBounds_not_fresh (by simp) (.inr (mt (h.fresh_mono j) hnot)) hj
  path_fresh := by
    intro j hj
    rw [path_enter, List.mem_append, List.mem_singleton] at hj
    rcases hj with hj | rfl
    · exact h.path_fresh j hj
    · exact h.fresh_mono j hi
  found_fresh := h.found_fresh

theorem Since.step (hv : Valid g s) (h : Since base s) (hs : Step g s t) : Since base t := by
  have hmono : ∀ i : Nat, t.marks[i]? = some .fresh → base.marks[i]? = some .fresh := by
    intro i hi
    by_contra hnot
    exact hs.not_fresh (mt (h.fresh_mono i) hnot) hi
  cases hs with
  | @leave marks node before found =>
    refine ⟨hmono, fun i hi => h.path_fresh i ?_, h.found_fresh⟩
    rw [path_cons]
    exact List.mem_append_left _ hi
  | @descend marks node target pending before found hf =>
    have hconsumed : Since base ⟨marks, ⟨node, pending⟩ :: before, found⟩ :=
      ⟨h.fresh_mono, h.path_fresh, h.found_fresh⟩
    exact hconsumed.enter hf
  | @close marks node target position pending before found ht =>
    obtain ⟨more, hmore, hfresh⟩ := h.found_fresh
    refine ⟨hmono, h.path_fresh,
      closed (⟨node, pending⟩ :: before) position target :: more, ?_, ?_⟩
    · exact congrArg (closed (⟨node, pending⟩ :: before) position target :: ·) hmore
    · intro walk hw i hi
      rcases List.mem_cons.mp hw with rfl | hw
      · exact h.path_fresh i (hv.mem_path_of_mem_closed ht hi)
      · exact hfresh walk hw i hi
  | pass _ => exact ⟨hmono, h.path_fresh, h.found_fresh⟩

theorem Since.run (hv : Valid g s) (h : Since base s) : Since base (run g n s) := by
  induction n generalizing s with
  | zero => exact h
  | succ n ih =>
    simp only [Search.run]
    cases hs : s.step g with
    | none => exact h
    | some t =>
      have hstep := step_eq_some.mp hs
      exact ih (hv.step hstep) (h.step hv hstep)

theorem Rests.since_fromRoot (h : Rests g k s) : Since s (Search.fromRoot g n s i) := by
  by_cases hf : s.marks[i]? = some .fresh
  · rw [fromRoot_fresh hf]
    exact ((since_refl h.way).enter hf).run (h.reached.enter h.way hf).valid
  · rw [fromRoot_not_fresh hf]
    exact since_refl h.way

/-- The search has come to the files of every cycle that it has found. -/
theorem Reached.found_not_fresh (h : Reached g s) :
    ∀ walk ∈ s.found, ∀ i ∈ walk, s.marks[i]? ≠ some .fresh := by
  induction h with
  | start => simp [Search.start]
  | enter _ _ _ ih =>
    exact fun walk hw i hi => setIfInBounds_not_fresh (by simp) (.inr (ih walk hw i hi))
  | @step s t hs hstep ih =>
    have hkeep : ∀ walk ∈ s.found, ∀ i ∈ walk, t.marks[i]? ≠ some .fresh :=
      fun walk hw i hi => hstep.not_fresh (ih walk hw i hi)
    cases hstep with
    | leave => exact hkeep
    | descend _ => exact hkeep
    | close ht =>
      intro walk hw i hi
      rcases List.mem_cons.mp hw with rfl | hw
      · obtain ⟨k, hk⟩ := hs.valid.mem_path_iff.mp (hs.valid.mem_path_of_mem_closed ht hi)
        simp only at hk
        simp [hk]
      · exact hkeep walk hw i hi
    | pass _ => exact hkeep

/-- With nothing on the way every file is fresh or has been left. -/
theorem Rests.fresh_or_left (h : Rests g k s) (hi : i < g.fileCount) :
    s.marks[i]? = some .fresh ∨ s.marks[i]? = some .left := by
  have hv := h.reached.valid
  have hlt : i < s.marks.size := by rwa [hv.marks_size]
  cases hm : s.marks[i] with
  | fresh => exact .inl (Array.getElem?_eq_some_iff.mpr ⟨hlt, hm⟩)
  | onWay position =>
    have hway := (hv.onWay_iff i position).mp (Array.getElem?_eq_some_iff.mpr ⟨hlt, hm⟩)
    simp [path, h.way] at hway
  | left => exact .inr (Array.getElem?_eq_some_iff.mpr ⟨hlt, hm⟩)

end Search

variable {g : Graph} {walk walk' : List Nat} {c d : Cycle} {i j k : Nat} {p q : Path}

theorem rests_searchOfRoots (hg : g.WellFormed) (k : Nat) : Search.Rests g k (g.searchOfRoots k) :=
  Search.rests_roots hg k

theorem searchOfRoots_succ : g.searchOfRoots (k + 1) =
    Search.fromRoot g (g.fileCount + g.edgeCount) (g.searchOfRoots k) k := by
  rw [searchOfRoots, List.range_succ, List.foldl_concat]
  rfl

theorem since_searchOfRoots (hg : g.WellFormed) (k : Nat) :
    Search.Since (g.searchOfRoots k) (g.searchOfRoots (k + 1)) := by
  rw [searchOfRoots_succ]
  exact (rests_searchOfRoots hg k).since_fromRoot

/-- A file that is not fresh at one root is not fresh at a later one. -/
theorem not_fresh_of_le (hg : g.WellFormed) (hjk : j ≤ k)
    (hi : (g.searchOfRoots j).marks[i]? ≠ some .fresh) :
    (g.searchOfRoots k).marks[i]? ≠ some .fresh := by
  induction k, hjk using Nat.le_induction with
  | base => exact hi
  | succ k _ ih => exact mt ((since_searchOfRoots hg k).fresh_mono i) ih

/-- From a root cycles are found in addition to those found before, through fresh files. -/
theorem found_searchOfRoots (hg : g.WellFormed) (k : Nat) :
    (g.searchOfRoots (k + 1)).found.reverse =
        (g.searchOfRoots k).found.reverse ++ g.foundFromRoot k ∧
      ∀ walk ∈ g.foundFromRoot k, ∀ i ∈ walk, (g.searchOfRoots k).marks[i]? = some .fresh := by
  obtain ⟨more, hmore, hfresh⟩ := (since_searchOfRoots hg k).found_fresh
  have hfound : g.foundFromRoot k = more.reverse := by
    rw [foundFromRoot, hmore, List.reverse_append, List.drop_left' (List.length_reverse)]
  rw [hfound, hmore, List.reverse_append]
  exact ⟨rfl, fun walk hw => hfresh walk (List.mem_reverse.mp hw)⟩

/-- A file in a cycle found from one root is not fresh at the next. -/
theorem not_fresh_of_foundFromRoot (hg : g.WellFormed) (hw : walk ∈ g.foundFromRoot k)
    (hi : i ∈ walk) : (g.searchOfRoots (k + 1)).marks[i]? ≠ some .fresh := by
  have hmem : walk ∈ (g.searchOfRoots (k + 1)).found := by
    rw [← List.mem_reverse, (found_searchOfRoots hg k).1]
    exact List.mem_append_right _ hw
  exact (rests_searchOfRoots hg (k + 1)).reached.found_not_fresh walk hmem i hi

/-- Cycles found from different roots share no place. -/
theorem ne_of_foundFromRoot (hg : g.WellFormed) (hjk : j ≠ k) (hw : walk ∈ g.foundFromRoot j)
    (hw' : walk' ∈ g.foundFromRoot k) (hi : i ∈ walk) : i ∉ walk' := by
  have hnot : ∀ {j k walk walk'}, j < k → walk ∈ g.foundFromRoot j → walk' ∈ g.foundFromRoot k →
      i ∈ walk → i ∉ walk' := by
    intro j k walk walk' hlt hw hw' hi hi'
    exact not_fresh_of_le hg hlt (not_fresh_of_foundFromRoot hg hw hi)
      ((found_searchOfRoots hg k).2 walk' hw' i hi')
  rcases Nat.lt_or_gt_of_ne hjk with hlt | hlt
  · exact hnot hlt hw hw' hi
  · exact fun hi' => hnot hlt hw' hw hi' hi

theorem found_eq_flatMap (hg : g.WellFormed) (k : Nat) :
    (g.searchOfRoots k).found.reverse = (List.range k).flatMap g.foundFromRoot := by
  induction k with
  | zero => rfl
  | succ k ih =>
    rw [(found_searchOfRoots hg k).1, ih, List.range_succ, List.flatMap_append]
    simp

/-- A file of a cycle found from a root stands at a place that was fresh at that root. -/
theorem exists_place_of_cyclesFromRoot (hc : c ∈ g.cyclesFromRoot k) (hp : p ∈ c.files) :
    ∃ walk ∈ g.foundFromRoot k, ∃ i ∈ walk, g.file? i = some p := by
  obtain ⟨walk, hw, rfl⟩ := List.mem_map.mp hc
  obtain ⟨i, hi, hfile⟩ := List.mem_filterMap.mp hp
  exact ⟨walk, hw, i, hi, hfile⟩

/-- The reported cycles are those found from the roots, one root after the other. Between two roots
every file is fresh or has been left; the files of the cycles found from a root were fresh when the
search came to it, and two cycles found from different roots share no file. -/
theorem cycles_of_roots_disjoint (hg : g.Built) :
    (g.cycles = (List.range g.fileCount).flatMap g.cyclesFromRoot ∧
      ∀ k, (g.searchOfRoots (k + 1)).found.reverse =
        (g.searchOfRoots k).found.reverse ++ g.foundFromRoot k) ∧
    (∀ k, (g.searchOfRoots k).way = [] ∧ ∀ i < g.fileCount,
      (g.searchOfRoots k).marks[i]? = some .fresh ∨ (g.searchOfRoots k).marks[i]? = some .left) ∧
    (∀ k, ∀ walk ∈ g.foundFromRoot k, ∀ i ∈ walk,
      (g.searchOfRoots k).marks[i]? = some .fresh) ∧
    (∀ j k, j ≠ k → ∀ c ∈ g.cyclesFromRoot j, ∀ d ∈ g.cyclesFromRoot k,
      ∀ p ∈ c.files, ∀ q ∈ d.files, ¬ p.same q) := by
  have hwf := hg.wellFormed
  refine ⟨⟨?_, fun k => (found_searchOfRoots hwf k).1⟩, fun k => ?_,
    fun k => (found_searchOfRoots hwf k).2, ?_⟩
  · have hindices : g.cycleIndices = (List.range g.fileCount).flatMap g.foundFromRoot :=
      found_eq_flatMap hwf g.fileCount
    rw [cycles, hindices, List.map_flatMap]
    rfl
  · have hrests := rests_searchOfRoots hwf k
    exact ⟨hrests.way, fun i hi => hrests.fresh_or_left hi⟩
  · intro j k hjk c hc d hd p hp q hq hsame
    obtain ⟨walk, hw, i, hi, hfile⟩ := exists_place_of_cyclesFromRoot hc hp
    obtain ⟨walk', hw', i', hi', hfile'⟩ := exists_place_of_cyclesFromRoot hd hq
    obtain rfl := hwf.eq_of_components hfile hfile' (by simpa [Path.same] using hsame)
    exact ne_of_foundFromRoot hwf hjk hw hw' hi hi'

/-- `a` and `b` import each other, `c` and `d` too, and `d` imports `a`, which has been left when the
search comes to `d`. -/
def twoRings : Graph :=
  (["a", "b", "c", "d"].map (fun file => Edit.file (Path.ofString file)) ++
    [(0, "b"), (1, "a"), (2, "d"), (3, "c"), (3, "a")].map
      fun (origin, target) => Edit.importOf origin (Path.ofString target)).foldl apply empty

theorem twoRings_disjoint :
    twoRings.Built ∧ twoRings.foundFromRoot 0 = [[0, 1, 0]] ∧
      twoRings.foundFromRoot 2 = [[2, 3, 2]] ∧
      ∀ c ∈ twoRings.cyclesFromRoot 0, ∀ d ∈ twoRings.cyclesFromRoot 2,
        ∀ p ∈ c.files, ∀ q ∈ d.files, ¬ p.same q := by
  have hbuilt : twoRings.Built := ⟨_, rfl⟩
  have hfirst : twoRings.foundFromRoot 0 = [[0, 1, 0]] := by cbv
  have hsecond : twoRings.foundFromRoot 2 = [[2, 3, 2]] := by cbv
  exact ⟨hbuilt, hfirst, hsecond, (cycles_of_roots_disjoint hbuilt).2.2.2 0 2 (by decide)⟩

end ImportCycles.Graph
