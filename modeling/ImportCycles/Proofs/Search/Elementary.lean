import Mathlib.Data.List.Permutation
import ImportCycles.Proofs.Search.Halting
/-! Every reported cycle is a cycle of the graph that comes to no file twice. -/
namespace ImportCycles

/-- The files of `c` are a cycle of the graph, and no file but the first stands in it twice. -/
structure Cycle.IsElementary (g : Graph) (c : Cycle) : Prop where
  two_le : 2 ≤ c.files.length
  closed : c.files.head? = c.files.getLast?
  imports : ∀ e ∈ c.edges,
    ∃ i j, g.file? i = some e.1 ∧ g.file? j = some e.2 ∧ g.Imports i j
  distinct : c.files.dropLast.Pairwise fun p q => ¬ p.same q
  /-- There are two entries just when a file imports itself. -/
  length_eq_two : c.files.length = 2 ↔ ∃ e ∈ c.edges, e.1.same e.2

namespace Graph

variable {g : Graph} {walk : List Nat} {c : Cycle}

theorem IsElementary.length_eq_two (h : IsElementary g walk) :
    walk.length = 2 ↔ ∃ i, (i, i) ∈ walk.zip walk.tail := by
  constructor
  · intro hl
    obtain ⟨a, b, rest, rfl, hlast⟩ := h.exists_ends
    obtain rfl : rest = [] := List.length_eq_zero_iff.mp (by simpa using hl)
    obtain rfl : b = a := by simpa using hlast
    exact ⟨b, by simp⟩
  · rintro ⟨i, hi⟩
    obtain ⟨k, hk, hk'⟩ := mem_zip_tail_iff.mp hi
    have hlt : k + 1 < walk.length := (List.getElem?_eq_some_iff.mp hk').1
    have hfront : ∀ j, j + 1 < walk.length → walk.dropLast[j]? = walk[j]? := by
      intro j hj
      rw [List.getElem?_dropLast, if_pos (by omega)]
    have hfirst : walk[0]? = walk[walk.length - 1]? := by
      rw [← List.head?_eq_getElem?, h.closed, List.getLast?_eq_getElem?]
    -- The second of the two places is either inside or the last one, which is the first again.
    by_cases hin : k + 2 < walk.length
    · have := (List.getElem?_inj (i := k) (j := k + 1) (by simp; omega) h.nodup).mp
        (by rw [hfront k hlt, hfront (k + 1) hin, hk, hk'])
      omega
    · have hlast : walk.length - 1 = k + 1 := by omega
      have := (List.getElem?_inj (i := k) (j := 0) (by simp; omega) h.nodup).mp
        (by rw [hfront k hlt, hfront 0 (by omega), hk, hfirst, hlast, hk'])
      omega

namespace Search

variable {s t : Search} {marks : Array Mark} {before : List Frame} {found : List (List Nat)}
  {pending : List Nat} {node target position : Nat}

/-- What is reported is the way from the target on, which ends with the file whose import was looked
at, and the target again. -/
theorem Valid.exists_closed_eq
    (h : Valid g ⟨marks, ⟨node, pending⟩ :: before, found⟩)
    (ht : marks[target]? = some (.onWay position)) :
    ∃ front, (path ⟨marks, ⟨node, pending⟩ :: before, found⟩).drop position = front ++ [node] ∧
      closed (⟨node, pending⟩ :: before) position target = front ++ [node, target] := by
  have hpos := (h.onWay_iff target position).mp ht
  have hlt := (List.getElem?_eq_some_iff.mp hpos).1
  rw [path_cons] at hlt
  have hle : position ≤ (path ⟨marks, before, found⟩).length := by
    simp only [List.length_append, List.length_singleton] at hlt
    omega
  have hpath : (path ⟨marks, ⟨node, pending⟩ :: before, found⟩).drop position =
      (path ⟨marks, before, found⟩).drop position ++ [node] := by
    rw [path_cons, List.drop_append_of_le_length hle]
  refine ⟨(path ⟨marks, before, found⟩).drop position, hpath, ?_⟩
  rw [closed_eq]
  simpa [path] using congrArg (· ++ [target]) hpath

/-- A target that is on the way closes an elementary cycle. -/
theorem Valid.elementary_closed
    (h : Valid g ⟨marks, ⟨node, target :: pending⟩ :: before, found⟩)
    (ht : marks[target]? = some (.onWay position)) :
    IsElementary g (closed (⟨node, pending⟩ :: before) position target) := by
  have hpos := (h.onWay_iff target position).mp ht
  obtain ⟨hlt, hget⟩ := List.getElem?_eq_some_iff.mp hpos
  have hlast : (path ⟨marks, ⟨node, target :: pending⟩ :: before, found⟩).getLast? =
      some node := by simp
  obtain ⟨rest, hrest⟩ : ∃ rest,
      (path ⟨marks, ⟨node, target :: pending⟩ :: before, found⟩).drop position = target :: rest :=
    ⟨_, by rw [List.drop_eq_getElem_cons hlt, hget]⟩
  have hclosed : closed (⟨node, pending⟩ :: before) position target =
      target :: rest ++ [target] := by
    rw [closed_eq, ← hrest]
    simp [path]
  rw [hclosed]
  refine ⟨⟨?_, ?_, ?_⟩, ?_⟩
  · rw [List.isChain_append, ← hrest]
    refine ⟨h.path_imports.drop position, List.isChain_singleton target, ?_⟩
    rw [List.getLast?_drop, if_neg (by omega), hlast]
    simpa using h.imports_target
  · rw [List.getLast?_concat]
    rfl
  · simp
  · rw [List.dropLast_concat, ← hrest]
    exact h.path_nodup.sublist (List.drop_sublist ..)

theorem Reached.elementary (h : Reached g s) : ∀ walk ∈ s.found, IsElementary g walk := by
  induction h with
  | start => simp [Search.start]
  | enter _ _ _ ih => exact ih
  | step hs hstep ih =>
    cases hstep with
    | leave => exact ih
    | descend _ => exact ih
    | close ht =>
      intro walk hw
      rcases List.mem_cons.mp hw with rfl | hw
      · exact hs.valid.elementary_closed ht
      · exact ih walk hw
    | pass _ => exact ih

end Search

theorem elementary_of_found (hg : g.WellFormed) (hw : walk ∈ g.search.found) :
    IsElementary g walk :=
  (Search.rests_search hg).reached.elementary walk hw

theorem cycles_eq (hg : g.WellFormed) :
    g.cycles = g.cycleIndices.map fun walk => ⟨walk.map g.fileAt⟩ := by
  refine List.map_congr_left fun walk hw => ?_
  have hcycle := (elementary_of_found hg (List.mem_reverse.mp hw)).toIsCycle
  rw [filterMap_file? fun i hi => hcycle.lt_fileCount hg hi]

/-- The reported cycles are those that the search found. -/
theorem mem_cycles_iff (hg : g.WellFormed) :
    c ∈ g.cycles ↔ ∃ walk ∈ g.search.found, c = ⟨walk.map g.fileAt⟩ := by
  simp only [cycles_eq hg, cycleIndices, List.mem_map, List.mem_reverse, eq_comm]

/-- The files of a reported cycle are files of the graph. -/
theorem mem_files_of_mem_cycles {p : Path} (hg : g.WellFormed) (hc : c ∈ g.cycles)
    (hp : p ∈ c.files) : p ∈ g.files.toList := by
  obtain ⟨walk, hwalk, rfl⟩ := (mem_cycles_iff hg).mp hc
  obtain ⟨i, hi, rfl⟩ := List.mem_map.mp hp
  exact fileAt_mem_files ((elementary_of_found hg hwalk).toIsCycle.lt_fileCount hg hi)

theorem edges_map_fileAt : (⟨walk.map g.fileAt⟩ : Cycle).edges =
    (walk.zip walk.tail).map (Prod.map g.fileAt g.fileAt) := by
  rw [Cycle.edges, ← List.map_tail, List.zip_map]

theorem IsElementary.map_fileAt (hg : g.WellFormed) (h : IsElementary g walk) :
    Cycle.IsElementary g ⟨walk.map g.fileAt⟩ := by
  have hlt : ∀ i ∈ walk, i < g.fileCount := fun i hi => h.toIsCycle.lt_fileCount hg hi
  refine ⟨by simpa using h.two_le, by simp [h.closed], ?_, ?_, ?_⟩
  · rw [edges_map_fileAt]
    intro e he
    obtain ⟨⟨i, j⟩, hij, rfl⟩ := List.mem_map.mp he
    have himp : g.Imports i j := isChain_iff_forall_mem_zip.mp h.chain _ hij
    exact ⟨i, j, file?_of_lt (hg.lt_of_mem_targets himp), file?_of_lt (hg.target_lt i j himp), himp⟩
  · rw [← List.map_dropLast, List.pairwise_map]
    refine h.nodup.imp_of_mem fun hi hj hne hsame => hne ?_
    exact hg.eq_of_components (file?_of_lt (hlt _ (List.mem_of_mem_dropLast hi)))
      (file?_of_lt (hlt _ (List.mem_of_mem_dropLast hj))) (by simpa [Path.same] using hsame)
  · rw [edges_map_fileAt, List.length_map, h.length_eq_two]
    constructor
    · rintro ⟨i, hi⟩
      exact ⟨_, List.mem_map_of_mem hi, by simp [Path.same]⟩
    · rintro ⟨e, he, hsame⟩
      obtain ⟨⟨i, j⟩, hij, rfl⟩ := List.mem_map.mp he
      obtain ⟨k, hk, hk'⟩ := mem_zip_tail_iff.mp hij
      obtain rfl := hg.eq_of_components (file?_of_lt (hlt i (List.mem_of_getElem? hk)))
        (file?_of_lt (hlt j (List.mem_of_getElem? hk'))) (by simpa [Path.same] using hsame)
      exact ⟨i, hij⟩

theorem isElementary_of_mem_cycles (hg : g.WellFormed) (hc : c ∈ g.cycles) : c.IsElementary g := by
  obtain ⟨walk, hwalk, rfl⟩ := (mem_cycles_iff hg).mp hc
  exact (elementary_of_found hg hwalk).map_fileAt hg

/-- Every reported cycle is elementary, in whatever order files and imports were added. -/
theorem cycles_elementary (hg : g.Built) (hc : c ∈ g.cycles) : c.IsElementary g := by
  obtain ⟨walk, hw, rfl⟩ := (mem_cycles_iff hg.wellFormed).mp hc
  exact (elementary_of_found hg.wellFormed hw).map_fileAt hg.wellFormed

theorem detour_cycle_elementary :
    detour.Built ∧ ⟨["a", "b", "c", "a"].map Path.ofString⟩ ∈ detour.cycles ∧
      Cycle.IsElementary detour ⟨["a", "b", "c", "a"].map Path.ofString⟩ := by
  have hcycles : detour.cycles = [⟨["a", "b", "c", "a"].map Path.ofString⟩] := by cbv
  have hmem : ⟨["a", "b", "c", "a"].map Path.ofString⟩ ∈ detour.cycles := by
    rw [hcycles]
    exact List.mem_singleton_self _
  exact ⟨built_detour, hmem, cycles_elementary built_detour hmem⟩

end Graph

end ImportCycles
