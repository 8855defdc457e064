import ImportCycles.Proofs.Graph.Imports
import ImportCycles.Proofs.Search.Feedback
/-!
No cycle is reported twice. The search looks at each import once, and whether the import closes a
cycle is settled then: the imports along the way never close one, and one that closed a cycle
closes no other.
-/
namespace ImportCycles

/-- The two pairs are the same import: they have the same origin and the same target. -/
def sameImport (e e' : Path × Path) : Bool := e.1.same e'.1 && e.2.same e'.2

/-- The two cycles come to the same files in the same order, whichever of them they begin with. -/
def Cycle.IsRotation (c d : Cycle) : Prop :=
  c.files.dropLast.map Path.components ~r d.files.dropLast.map Path.components

namespace Graph

namespace Search

/-- The import of `v` by `u` is still to be looked at, if there is one. -/
def Awaits (s : Search) (u v : Nat) : Prop :=
  s.marks[u]? = some .fresh ∨ ∃ f ∈ s.way, f.node = u ∧ v ∈ f.pending

/-- The import has been looked at and closed no cycle. -/
def Spent (s : Search) (u v : Nat) : Prop := ¬ s.Awaits u v ∧ ¬ s.Closes u v

/-- What the imports on the way and in the found cycles have been used for. -/
structure OnceOnly (s : Search) : Prop where
  way_spent : ∀ e ∈ s.path.zip s.path.tail, s.Spent e.1 e.2
  closing_looked : ∀ u v, s.Closes u v → ¬ s.Awaits u v
  inner_spent : ∀ walk ∈ s.found, ∀ e ∈ (walk.zip walk.tail).dropLast, s.Spent e.1 e.2
  closing_distinct : (s.found.map fun walk => (walk.zip walk.tail).getLast?).Nodup

variable {g : Graph} {s t : Search} {marks : Array Mark} {before : List Frame}
  {found found' : List (List Nat)} {pending : List Nat} {node target position u v i : Nat}

theorem awaits_enter (hf : s.marks[i]? = some .fresh) (h : (s.enter g i).Awaits u v) :
    s.Awaits u v := by
  rcases h with hu | ⟨f, hmem, rfl, hv⟩
  · left
    by_cases hi : i = u
    · exact hi ▸ hf
    · simpa [Search.enter, hi] using hu
  · rcases List.mem_cons.mp hmem with rfl | hmem
    · exact Or.inl hf
    · exact Or.inr ⟨f, hmem, rfl, hv⟩

theorem awaits_consume (h : Awaits ⟨marks, ⟨node, pending⟩ :: before, found'⟩ u v) :
    Awaits ⟨marks, ⟨node, target :: pending⟩ :: before, found⟩ u v := by
  rcases h with hu | ⟨f, hmem, rfl, hv⟩
  · exact Or.inl hu
  · rcases List.mem_cons.mp hmem with rfl | hmem
    · exact Or.inr ⟨_, List.mem_cons_self, rfl, List.mem_cons_of_mem _ hv⟩
    · exact Or.inr ⟨f, List.mem_cons_of_mem _ hmem, rfl, hv⟩

theorem awaits_leave (h : Awaits ⟨marks.setIfInBounds node .left, before, found⟩ u v) :
    Awaits ⟨marks, ⟨node, pending⟩ :: before, found⟩ u v := by
  rcases h with hu | ⟨f, hmem, rfl, hv⟩
  · left
    by_contra hnot
    exact setIfInBounds_not_fresh (by simp) (Or.inr hnot) hu
  · exact Or.inr ⟨f, List.mem_cons_of_mem _ hmem, rfl, hv⟩

/-- The target at the front of what is pending is awaited. -/
theorem awaits_target : Awaits ⟨marks, ⟨node, target :: pending⟩ :: before, found⟩ node target :=
  Or.inr ⟨_, List.mem_cons_self, rfl, List.mem_cons_self⟩

/-- Nothing that has been looked at is awaited again. -/
theorem Step.awaits (hs : Step g s t) (h : t.Awaits u v) : s.Awaits u v := by
  cases hs with
  | leave => exact awaits_leave h
  | descend hf => exact awaits_consume (awaits_enter hf h)
  | close _ => exact awaits_consume h
  | pass _ => exact awaits_consume h

/-- A target is not pending twice, so it is looked at once. -/
theorem Valid.not_awaits_consume (hg : g.WellFormed)
    (h : Valid g ⟨marks, ⟨node, target :: pending⟩ :: before, found⟩) :
    ¬ Awaits ⟨marks, ⟨node, pending⟩ :: before, found'⟩ node target := by
  rintro (hfresh | ⟨f, hmem, hnode, hv⟩)
  · simp [h.mark_last] at hfresh
  · rcases List.mem_cons.mp hmem with rfl | hmem
    · have hnodup := (hg.targets_nodup node).sublist
        (h.pending_suffix _ List.mem_cons_self).sublist
      exact (List.nodup_cons.mp hnodup).1 hv
    · exact h.node_ne hmem hnode.symm

/-- A step closes a cycle only with the import that it looks at. -/
theorem Valid.closes_step (hg : g.WellFormed) (h : Valid g s) (hs : Step g s t)
    (hc : t.Closes u v) : s.Closes u v ∨ s.Awaits u v ∧ ¬ t.Awaits u v := by
  cases hs with
  | leave => exact Or.inl hc
  | descend _ => exact Or.inl hc
  | pass _ => exact Or.inl hc
  | close ht =>
    obtain ⟨front, hfront⟩ := hc
    rcases List.mem_cons.mp hfront with heq | hmem
    · obtain ⟨front', -, hclosed⟩ := (h.consume []).exists_closed_eq ht
      rw [hclosed] at heq
      obtain ⟨-, hends⟩ := List.append_inj' heq rfl
      simp only [List.cons.injEq, and_true] at hends
      obtain ⟨rfl, rfl⟩ := hends
      exact Or.inr ⟨awaits_target, h.not_awaits_consume hg⟩
    · exact Or.inl ⟨front, hmem⟩

theorem Spent.step (hg : g.WellFormed) (hv : Valid g s) (hs : Step g s t) (h : s.Spent u v) :
    t.Spent u v := by
  refine ⟨fun ha => h.1 (hs.awaits ha), fun hc => ?_⟩
  rcases hv.closes_step hg hs hc with hc | ⟨ha, -⟩
  · exact h.2 hc
  · exact h.1 ha

theorem once_start : OnceOnly (start g) where
  way_spent := by simp [path, start]
  closing_looked u v := by simp [Closes, start]
  inner_spent := by simp [start]
  closing_distinct := by simp [start]

theorem OnceOnly.enter (ho : OnceOnly s) (hw : s.way = []) (hf : s.marks[i]? = some .fresh) :
    OnceOnly (s.enter g i) where
  way_spent := by
    rw [path_enter]
    simp [path, hw]
  closing_looked u v hc ha := ho.closing_looked u v hc (awaits_enter hf ha)
  inner_spent walk hwalk e he :=
    have h := ho.inner_spent walk hwalk e he
    ⟨fun ha => h.1 (awaits_enter hf ha), h.2⟩
  closing_distinct := ho.closing_distinct

/-- The import along which the search goes on is the last one of the new way. -/
theorem OnceOnly.way_descend (hg : g.WellFormed)
    (hv : Valid g ⟨marks, ⟨node, target :: pending⟩ :: before, found⟩)
    (ho : OnceOnly ⟨marks, ⟨node, target :: pending⟩ :: before, found⟩)
    (hf : marks[target]? = some .fresh) :
    Spent (Search.enter g ⟨marks, ⟨node, pending⟩ :: before, found⟩ target) node target :=
  ⟨fun ha => hv.not_awaits_consume hg (awaits_enter hf ha),
    fun hc => ho.closing_looked node target hc awaits_target⟩

theorem OnceOnly.step (hg : g.WellFormed) (hv : Valid g s) (ho : OnceOnly s) (hs : Step g s t) :
    OnceOnly t := by
  have hspent : ∀ u v, s.Spent u v → t.Spent u v := fun _ _ h => h.step hg hv hs
  have hlooked : ∀ u v, t.Closes u v → ¬ t.Awaits u v := by
    intro u v hc ha
    rcases hv.closes_step hg hs hc with hc | ⟨-, hnot⟩
    · exact ho.closing_looked u v hc (hs.awaits ha)
    · exact hnot ha
  have hinner : ∀ walk ∈ s.found, ∀ e ∈ (walk.zip walk.tail).dropLast, t.Spent e.1 e.2 :=
    fun walk hw e he => hspent _ _ (ho.inner_spent walk hw e he)
  have hway : ∀ e ∈ s.path.zip s.path.tail, t.Spent e.1 e.2 :=
    fun e he => hspent _ _ (ho.way_spent e he)
  cases hs with
  | @leave marks node before found =>
    refine ⟨fun e he => hway e ?_, hlooked, hinner, ho.closing_distinct⟩
    obtain ⟨k, hk, hk'⟩ := mem_zip_tail_iff.mp he
    rw [path_cons]
    refine mem_zip_tail_iff.mpr ⟨k, ?_, ?_⟩
    · exact (List.getElem?_append_left (List.getElem?_eq_some_iff.mp hk).1).trans hk
    · exact (List.getElem?_append_left (List.getElem?_eq_some_iff.mp hk').1).trans hk'
  | @descend marks node target pending before found hf =>
    refine ⟨?_, hlooked, hinner, ho.closing_distinct⟩
    have hpath : path (Search.enter g ⟨marks, ⟨node, pending⟩ :: before, found⟩ target) =
        path ⟨marks, before, found⟩ ++ [node, target] := by
      rw [path_enter, path_cons]
      simp
    intro e he
    rw [hpath, Lists.zip_tail_concat, List.mem_append, List.mem_singleton] at he
    rcases he with he | rfl
    · exact hway e (by rwa [path_cons])
    · exact ho.way_descend hg hv hf
  | @close marks node target position pending before found ht =>
    obtain ⟨front, hdrop, hclosed⟩ := (hv.consume found).exists_closed_eq ht
    have hpath : path ⟨marks, ⟨node, pending⟩ :: before, found⟩ =
        path ⟨marks, ⟨node, target :: pending⟩ :: before, found⟩ := by simp
    refine ⟨by simpa [path] using hway, hlooked, ?_, ?_⟩
    · intro walk hw e he
      rcases List.mem_cons.mp hw with rfl | hw
      · refine hway e ?_
        rw [hclosed, Lists.zip_tail_concat, List.dropLast_concat, ← hdrop, hpath] at he
        obtain ⟨k, hk, hk'⟩ := mem_zip_tail_iff.mp he
        rw [List.getElem?_drop] at hk hk'
        exact mem_zip_tail_iff.mpr ⟨position + k, hk, hk'⟩
      · exact hinner walk hw e he
    · rw [List.map_cons, List.nodup_cons]
      refine ⟨fun hmem => ?_, ho.closing_distinct⟩
      obtain ⟨walk, hw, hlast⟩ := List.mem_map.mp hmem
      rw [hclosed, Lists.getLast?_zip_tail_eq_some.mpr ⟨front, rfl⟩] at hlast
      obtain ⟨front', rfl⟩ := Lists.getLast?_zip_tail_eq_some.mp hlast
      exact ho.closing_looked node target ⟨front', hw⟩ awaits_target
  | pass _ => exact ⟨by simpa [path] using hway, hlooked, hinner, ho.closing_distinct⟩

theorem Reached.onceOnly (hg : g.WellFormed) (h : Reached g s) : OnceOnly s := by
  induction h with
  | start => exact once_start
  | enter _ hw hr ih => exact ih.enter hw hr
  | step hs hstep ih => exact ih.step hg hs.valid hstep

end Search

variable {g : Graph} {walk walk' : List Nat}

theorem closing?_map_fileAt : (⟨walk.map g.fileAt⟩ : Cycle).closing? =
    (walk.zip walk.tail).getLast?.map (Prod.map g.fileAt g.fileAt) := by
  rw [Cycle.closing?, edges_map_fileAt, List.getLast?_map]

/-- The imports along a cycle are those along its files taken as a ring. -/
theorem IsCycle.zip_tail_eq {r : Nat → Nat → Prop} (h : IsCycle r walk) :
    walk.zip walk.tail = walk.dropLast.zip (walk.dropLast.rotate 1) := by
  obtain ⟨front, u, v, rfl⟩ := h.exists_concat
  obtain ⟨a, rest, hrest⟩ : ∃ a rest, front ++ [u] = a :: rest :=
    List.exists_cons_of_ne_nil (by simp)
  have hwalk : front ++ [u, v] = a :: rest ++ [v] := by
    rw [← hrest]
    simp
  obtain rfl : a = v := by
    have hclosed := h.closed
    rw [hwalk, List.getLast?_concat] at hclosed
    simpa using hclosed
  rw [hwalk, Lists.zip_tail_closed, List.dropLast_concat]

/-- A cycle has the same imports from whichever of its files it is read. -/
theorem IsCycle.mem_zip_of_rotated {r : Nat → Nat → Prop} (h : IsCycle r walk)
    (h' : IsCycle r walk') (hr : walk.dropLast ~r walk'.dropLast) {e : Nat × Nat}
    (he : e ∈ walk.zip walk.tail) : e ∈ walk'.zip walk'.tail := by
  obtain ⟨n, hn⟩ := hr
  rw [h'.zip_tail_eq, ← hn, Lists.zip_rotate_one_rotate, List.mem_rotate, ← h.zip_tail_eq]
  exact he

theorem isRotated_of_isRotation (hg : g.WellFormed) (hw : ∀ i ∈ walk, i < g.fileCount)
    (hw' : ∀ i ∈ walk', i < g.fileCount)
    (h : Cycle.IsRotation ⟨walk.map g.fileAt⟩ ⟨walk'.map g.fileAt⟩) :
    walk.dropLast ~r walk'.dropLast := by
  -- The index of the graph takes the components of a file back to its place.
  have hback : ∀ {w : List Nat}, (∀ i ∈ w, i < g.fileCount) →
      ((w.map g.fileAt).dropLast.map Path.components).map (g.index[·]?) = w.dropLast.map some := by
    intro w hw
    rw [← List.map_dropLast, List.map_map, List.map_map]
    refine List.map_congr_left fun i hi => ?_
    exact (hg.indexOf?_eq_some _ i).mpr
      ⟨_, file?_of_lt (hw i (List.mem_of_mem_dropLast hi)), rfl⟩
  obtain ⟨n, hn⟩ := h.map (g.index[·]?)
  rw [hback hw, hback hw', ← List.map_rotate] at hn
  exact ⟨n, List.map_injective_iff.mpr (Option.some_injective _) hn⟩

section Found

variable (hg : g.WellFormed) (hw : walk ∈ g.search.found) (hw' : walk' ∈ g.search.found)
include hg hw

theorem lt_of_found : ∀ i ∈ walk, i < g.fileCount :=
  fun _ hi => (elementary_of_found hg hw).toIsCycle.lt_fileCount hg hi

include hw'

/-- Imports of found cycles are the same by their files only if they are so by their places. -/
theorem eq_of_sameImport {e e' : Nat × Nat} (he : e ∈ walk.zip walk.tail)
    (he' : e' ∈ walk'.zip walk'.tail)
    (h : sameImport (e.map g.fileAt g.fileAt) (e'.map g.fileAt g.fileAt) = true) : e = e' := by
  have himports : g.Imports e.1 e.2 :=
    isChain_iff_forall_mem_zip.mp (elementary_of_found hg hw).chain e he
  have himports' : g.Imports e'.1 e'.2 :=
    isChain_iff_forall_mem_zip.mp (elementary_of_found hg hw').chain e' he'
  rw [sameImport, Bool.and_eq_true, same_eq_true, same_eq_true] at h
  refine Prod.ext ?_ ?_
  · exact hg.eq_of_components (file?_of_lt (hg.lt_of_mem_targets himports))
      (file?_of_lt (hg.lt_of_mem_targets himports')) h.1
  · exact hg.eq_of_components (file?_of_lt (hg.target_lt _ _ himports))
      (file?_of_lt (hg.target_lt _ _ himports')) h.2

/-- An import inside a found cycle closes none. -/
theorem not_closing_of_inner {e : Nat × Nat} (he : e ∈ (walk.zip walk.tail).dropLast) :
    (walk'.zip walk'.tail).getLast? ≠ some e := by
  intro hlast
  obtain ⟨front, rfl⟩ := Lists.getLast?_zip_tail_eq_some.mp hlast
  exact (((Search.rests_search hg).reached.onceOnly hg).inner_spent walk hw e he).2 ⟨front, hw'⟩

/-- Found cycles that close with different imports are no rotations of one another. -/
theorem not_isRotated_of_found
    (hne : (walk.zip walk.tail).getLast? ≠ (walk'.zip walk'.tail).getLast?) :
    ¬ walk.dropLast ~r walk'.dropLast := by
  intro hr
  have hcycle := (elementary_of_found hg hw).toIsCycle
  have hcycle' := (elementary_of_found hg hw').toIsCycle
  obtain ⟨front, u, v, rfl⟩ := hcycle.exists_concat
  obtain ⟨front', u', v', rfl⟩ := hcycle'.exists_concat
  have hmem : (u, v) ∈ (front' ++ [u', v']).zip (front' ++ [u', v']).tail := by
    refine hcycle.mem_zip_of_rotated hcycle' hr ?_
    rw [Lists.zip_tail_concat]
    simp
  rw [Lists.zip_tail_concat, List.getLast?_concat, Lists.zip_tail_concat, List.getLast?_concat]
    at hne
  rw [Lists.zip_tail_concat, List.mem_append, List.mem_singleton] at hmem
  rcases hmem with hmem | heq
  · refine not_closing_of_inner hg hw' hw (e := (u, v)) ?_ ?_
    · rwa [Lists.zip_tail_concat, List.dropLast_concat]
    · exact Lists.getLast?_zip_tail_eq_some.mpr ⟨front, rfl⟩
  · exact hne (congrArg some heq)

end Found

theorem closing_pairwise (hg : g.WellFormed) : g.search.found.Pairwise fun walk walk' =>
    (walk.zip walk.tail).getLast? ≠ (walk'.zip walk'.tail).getLast? :=
  List.pairwise_map.mp ((Search.rests_search hg).reached.onceOnly hg).closing_distinct

/-- What holds of any two found cycles, whichever comes first, holds of the reported ones. -/
theorem cycles_pairwise (hg : g.WellFormed) {r : Cycle → Cycle → Prop}
    (h : g.search.found.Pairwise fun walk walk' =>
      r ⟨walk'.map g.fileAt⟩ ⟨walk.map g.fileAt⟩) : g.cycles.Pairwise r := by
  rw [cycles_eq hg, cycleIndices, List.pairwise_map, List.pairwise_reverse]
  exact h

theorem length_found_le (hg : g.WellFormed) : g.search.found.length ≤ g.edgeCount := by
  have hnodup := ((Search.rests_search hg).reached.onceOnly hg).closing_distinct
  have hsub : (g.search.found.map fun walk => (walk.zip walk.tail).getLast?) ⊆
      g.edges.map some := by
    intro e he
    obtain ⟨walk, hw, rfl⟩ := List.mem_map.mp he
    have hcycle := (elementary_of_found hg hw).toIsCycle
    obtain ⟨front, u, v, rfl⟩ := hcycle.exists_concat
    have himports : g.Imports u v :=
      isChain_iff_forall_mem_zip.mp hcycle.chain (u, v) (by rw [Lists.zip_tail_concat]; simp)
    rw [Lists.zip_tail_concat, List.getLast?_concat]
    refine List.mem_map_of_mem (List.mem_flatMap.mpr ⟨u, ?_, List.mem_map_of_mem himports⟩)
    exact List.mem_range.mpr (hg.lt_of_mem_targets himports)
  have hle := (hnodup.subperm hsub).length_le
  rwa [List.length_map, List.length_map, length_edges hg] at hle

/-- No cycle is reported twice: every reported cycle closes with an import of its own, which is no
inner import of any reported cycle, so that none is a rotation of another, and there are no more
of them than imports. -/
theorem cycles_reported_once (hg : g.Built) :
    (∀ c ∈ g.cycles, c.closing?.isSome) ∧
    (g.cycles.Pairwise fun c d => ∀ e ∈ c.closing?, ∀ e' ∈ d.closing?, ¬ sameImport e e') ∧
    (∀ c ∈ g.cycles, ∀ d ∈ g.cycles, ∀ e ∈ c.edges.dropLast, ∀ e' ∈ d.closing?,
      ¬ sameImport e e') ∧
    (g.cycles.Pairwise fun c d => ¬ c.IsRotation d) ∧
    g.cycles.length ≤ g.edgeCount := by
  have hwf := hg.wellFormed
  refine ⟨?_, ?_, ?_, ?_, ?_⟩
  · intro c hc
    obtain ⟨walk, hw, rfl⟩ := (mem_cycles_iff hwf).mp hc
    obtain ⟨front, u, v, rfl⟩ := (elementary_of_found hwf hw).toIsCycle.exists_concat
    rw [closing?_map_fileAt, Lists.zip_tail_concat, List.getLast?_concat]
    rfl
  · refine cycles_pairwise hwf ((closing_pairwise hwf).imp_of_mem ?_)
    intro walk walk' hw hw' hne e he e' he' hsame
    rw [closing?_map_fileAt] at he he'
    obtain ⟨i, hi, rfl⟩ := Option.map_eq_some_iff.mp he
    obtain ⟨j, hj, rfl⟩ := Option.map_eq_some_iff.mp he'
    obtain rfl := eq_of_sameImport hwf hw' hw (List.mem_of_getLast? hi) (List.mem_of_getLast? hj)
      hsame
    exact hne (hj.trans hi.symm)
  · intro c hc d hd e he e' he' hsame
    obtain ⟨walk, hw, rfl⟩ := (mem_cycles_iff hwf).mp hc
    obtain ⟨walk', hw', rfl⟩ := (mem_cycles_iff hwf).mp hd
    rw [edges_map_fileAt, ← List.map_dropLast] at he
    rw [closing?_map_fileAt] at he'
    obtain ⟨i, hi, rfl⟩ := List.mem_map.mp he
    obtain ⟨j, hj, rfl⟩ := Option.map_eq_some_iff.mp he'
    obtain rfl := eq_of_sameImport hwf hw hw' (List.mem_of_mem_dropLast hi)
      (List.mem_of_getLast? hj) hsame
    exact not_closing_of_inner hwf hw hw' hi hj
  · refine cycles_pairwise hwf ((closing_pairwise hwf).imp_of_mem ?_)
    intro walk walk' hw hw' hne hrotation
    exact not_isRotated_of_found hwf hw' hw hne.symm
      (isRotated_of_isRotation hwf (lt_of_found hwf hw') (lt_of_found hwf hw) hrotation)
  · rw [cycles_eq hwf, List.length_map, cycleIndices, List.length_reverse]
    exact length_found_le hwf

/-- `a` and `b` import each other, and `b` imports itself: two imports lead back on one way. -/
def twoBack : Graph :=
  [.file (Path.ofString "a"), .file (Path.ofString "b"), .importOf 0 (Path.ofString "b"),
    .importOf 1 (Path.ofString "a"), .importOf 1 (Path.ofString "b")].foldl apply empty

theorem twoBack_reported_once :
    twoBack.Built ∧ twoBack.cycleIndices = [[0, 1, 0], [1, 1]] ∧
      (twoBack.cycles.Pairwise fun c d => ∀ e ∈ c.closing?, ∀ e' ∈ d.closing?, ¬ sameImport e e') ∧
      (twoBack.cycles.Pairwise fun c d => ¬ c.IsRotation d) ∧
      twoBack.cycles.length ≤ twoBack.edgeCount := by
  have hbuilt : twoBack.Built := ⟨_, rfl⟩
  have hindices : twoBack.cycleIndices = [[0, 1, 0], [1, 1]] := by cbv
  obtain ⟨-, hclosing, -, hrotation, hlength⟩ := cycles_reported_once hbuilt
  exact ⟨hbuilt, hindices, hclosing, hrotation, hlength⟩

end Graph

end ImportCycles
