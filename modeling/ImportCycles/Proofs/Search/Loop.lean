import ImportCycles.Proofs.Search.Feedback
import ImportCycles.Proofs.Search.Tables
/-!
The loop of the search in tables. Each round does one step of the search along the way and takes one
from what that costs, so the loop ends, and what holds of every state of the search can be read in
the tables.
-/
namespace ImportCycles.Graph

open Search (Act actsOn Reached)

namespace Tables

/-- The tables each time before the loop goes on or ends. -/
inductive Head (g : Graph) : Tables → Prop
  | root {T T' : Tables} {k : Nat} (hk : k < g.fileCount) (hT : ofRoots? g k = some T)
      (hfresh : T.stages[k]? = some .unvisited) (hT' : T.enter? k 0 = some T') : Head g T'
  | round {T T' : Tables} (h : Head g T) (hT' : T.round? g = some T') : Head g T'

/-- What holds each time. -/
structure Consistent (g : Graph) (T : Tables) : Prop where
  stages_size : T.stages.size = g.fileCount
  positions_size : T.positions.size = g.fileCount
  path_nodup : T.path.Nodup
  path_lt : ∀ i ∈ T.path, i < g.fileCount
  path_imports : T.path.IsChain g.Imports
  inProgress_iff : ∀ i : Nat, T.stages[i]? = some .inProgress ↔ i ∈ T.path
  position_iff : ∀ i k : Nat, T.positions[i]? = some (some k) ↔ T.path[k]? = some i
  noPosition_iff : ∀ i < g.fileCount, T.positions[i]? = some none ↔ i ∉ T.path
  next_le : ∀ level ∈ T.way, level.next ≤ (g.targets level.node).length
  done_targets : ∀ i : Nat, T.stages[i]? = some .done → ∀ j ∈ g.targets i,
    T.stages[j]? = some .done ∨ T.stages[j]? = some .inProgress

end Tables

namespace Search

/-- The tables hold a state of the search. The rounds that the loop has gone and those that are left
are as many as files and imports together; what has been done and what is due is all that there is
to be done. -/
structure Tabulated (g : Graph) (s : Search) (T : Tables) : Prop where
  eq_tables : T = tables g s T.rounds T.acts
  rounds_add : T.rounds + cost g s = g.fileCount + g.edgeCount
  acts_add : (T.acts : Multiset Act) + due g s =
    ((List.range g.fileCount).flatMap (actsOn g) : List Act)

variable {g : Graph} {s t : Search} {T T' : Tables} {u v i k n : Nat}

theorem tabulated_start (hg : g.WellFormed) : Tabulated g (start g) (Tables.start g) where
  eq_tables := by
    simp [Tables.start, tables, start, Array.map_replicate, Mark.stage, Mark.position?]
  rounds_add := by
    have hrounds : (Tables.start g).rounds = 0 := rfl
    rw [hrounds, cost_start hg, Nat.zero_add]
  acts_add := by
    have hacts : (Tables.start g).acts = [] := rfl
    rw [hacts, due_start, Multiset.coe_nil, zero_add]

/-- The way of the tables ends where that of the search does. -/
theorem Tabulated.way_eq_nil_iff (h : Tabulated g s T) : T.way = [] ↔ s.way = [] := by
  rw [h.eq_tables]
  simp [tables]

theorem Tabulated.stage (h : Tabulated g s T) : T.stages[i]? = (s.marks[i]?).map Mark.stage := by
  rw [h.eq_tables]
  simp [tables]

theorem Tabulated.unvisited_iff (h : Tabulated g s T) :
    T.stages[i]? = some .unvisited ↔ s.marks[i]? = some .fresh := by
  rw [h.stage]
  rcases s.marks[i]? with _ | _ | _ | _ <;> simp [Mark.stage]

theorem Tabulated.inProgress_iff (h : Tabulated g s T) :
    T.stages[i]? = some .inProgress ↔ ∃ k, s.marks[i]? = some (.onWay k) := by
  rw [h.stage]
  rcases s.marks[i]? with _ | _ | _ | _ <;> simp [Mark.stage]

theorem Tabulated.done_iff (h : Tabulated g s T) :
    T.stages[i]? = some .done ↔ s.marks[i]? = some .left := by
  rw [h.stage]
  rcases s.marks[i]? with _ | _ | _ | _ <;> simp [Mark.stage]

theorem Tabulated.position (h : Tabulated g s T) :
    T.positions[i]? = (s.marks[i]?).map Mark.position? := by
  rw [h.eq_tables]
  simp [tables]

theorem Tabulated.path_eq (h : Tabulated g s T) : T.path = s.path := by
  rw [h.eq_tables, path_tables]

/-- A root that is taken has the first position. -/
theorem Tabulated.enter (hv : Valid g s) (h : Tabulated g s T) (hw : s.way = [])
    (hf : s.marks[i]? = some .fresh) :
    ∃ T', T.enter? i 0 = some T' ∧ Tabulated g (s.enter g i) T' := by
  have hlt : i < s.marks.size := (Array.getElem?_eq_some_iff.mp hf).1
  have henter : (tables g s T.rounds T.acts).enter? i s.way.length =
      some (tables g (s.enter g i) T.rounds (.enter i :: T.acts)) := enter?_tables hlt
  rw [← h.eq_tables, hw, List.length_nil] at henter
  refine ⟨_, henter, rfl, ?_, (cons_add_due (hv.due_enter hf)).trans h.acts_add⟩
  exact (hv.cost_enter hf) ▸ h.rounds_add

/-- One step of the search is one round of the loop. -/
theorem Step.round?_tables (hg : g.WellFormed) (hv : Valid g s) (hs : Step g s t) (rounds : Nat)
    (acts : List Act) : ∃ acts' : List Act,
      (tables g s rounds acts).round? g = some (tables g t (rounds + 1) acts') ∧
        (acts' : Multiset Act) + due g t = acts + due g s := by
  cases hs with
  | @leave marks node before found =>
    exact ⟨.leave node :: acts, hv.round?_leave, cons_add_due hv.due_leave⟩
  | @descend marks node target pending before found hf =>
    have hconsumed := hv.consume found
    have hlt : target < marks.size := (Array.getElem?_eq_some_iff.mp hf).1
    refine ⟨.enter target :: .look node target :: acts, ?_, ?_⟩
    · rw [hv.round?_look hf]
      exact enter?_tables hlt
    · exact (cons_add_due (hconsumed.due_enter hf)).trans (cons_add_due (due_look found))
  | @close marks node target position pending before found ht =>
    refine ⟨.look node target :: acts, ?_, cons_add_due (due_look _)⟩
    rw [hv.round?_look ht]
    exact (hv.consume found).report?_tables ht
  | @pass marks node target pending before found ht =>
    -- Every target is a file of the graph, so it has a mark.
    have hlt : target < marks.size := hv.marks_size ▸ hg.target_lt _ _ hv.imports_target
    have hleft : marks[target]? = some .left := ht.resolve_right (by simp [hlt])
    exact ⟨.look node target :: acts, hv.round?_look hleft, cons_add_due (due_look _)⟩

theorem Tabulated.step (hg : g.WellFormed) (hv : Valid g s) (h : Tabulated g s T)
    (hs : Step g s t) : ∃ T', T.round? g = some T' ∧ Tabulated g t T' := by
  obtain ⟨acts', hround, hacts⟩ := hs.round?_tables hg hv T.rounds T.acts
  have hrounds := h.rounds_add
  have hcost := hv.cost_step hs
  rw [← h.eq_tables] at hround
  refine ⟨_, hround, rfl, ?_, hacts.trans h.acts_add⟩
  change T.rounds + 1 + cost g t = _
  omega

/-- The loop ends, with what so many steps of the search come to. -/
theorem Tabulated.loop (hg : g.WellFormed) (hv : Valid g s) (h : Tabulated g s T)
    (hn : cost g s ≤ n) : ∃ T', Tables.loop? g T = some T' ∧ Tabulated g (run g n s) T' := by
  induction n generalizing s T with
  | zero => exact ⟨T, Tables.loop?_nil (h.way_eq_nil_iff.mpr (hv.way_run hn)), h⟩
  | succ n ih =>
    simp only [run]
    cases hs : s.step g with
    | none => exact ⟨T, Tables.loop?_nil (h.way_eq_nil_iff.mpr (step_eq_none.mp hs)), h⟩
    | some t =>
      have hstep := step_eq_some.mp hs
      have hcost := hv.cost_step hstep
      obtain ⟨T₁, hround, h₁⟩ := h.step hg hv hstep
      obtain ⟨T', hloop, h'⟩ := ih (hv.step hstep) h₁ (by omega)
      exact ⟨T', (Tables.loop?_of_round? hround).trans hloop, h'⟩

theorem Tabulated.fromRoot (hg : g.WellFormed) (hs : Rests g k s) (h : Tabulated g s T)
    (hk : k < g.fileCount) : ∃ T', T.fromRoot? g k = some T' ∧
      Tabulated g (fromRoot g (g.fileCount + g.edgeCount) s k) T' := by
  have hv := hs.reached.valid
  rcases hs.fresh_or_left hk with hf | hl
  · have hstage : T.stages[k]? = some .unvisited := h.unvisited_iff.mpr hf
    obtain ⟨T₁, henter, h₁⟩ := h.enter hv hs.way hf
    have hentered := (hs.reached.enter hs.way hf).valid
    have hcost := hv.cost_enter hf ▸ cost_le hg hs.way
    obtain ⟨T', hloop, h'⟩ := h₁.loop hg hentered hcost
    refine ⟨T', ?_, by rwa [fromRoot_fresh hf]⟩
    simp [Tables.fromRoot?, hstage, henter, hloop]
  · have hstage : T.stages[k]? = some .done := by
      rw [h.stage, hl]
      rfl
    refine ⟨T, ?_, by rwa [fromRoot_not_fresh (by simp [hl])]⟩
    simp [Tables.fromRoot?, hstage]

theorem exists_ofRoots? (hg : g.WellFormed) (hk : k ≤ g.fileCount) :
    ∃ T, Tables.ofRoots? g k = some T ∧ Tabulated g (g.searchOfRoots k) T := by
  induction k with
  | zero => exact ⟨Tables.start g, rfl, tabulated_start hg⟩
  | succ k ih =>
    obtain ⟨T, hT, h⟩ := ih (by omega)
    obtain ⟨T', hT', h'⟩ := h.fromRoot hg (rests_searchOfRoots hg k) (by omega)
    refine ⟨T', ?_, by rwa [searchOfRoots_succ]⟩
    rw [Tables.ofRoots?] at hT ⊢
    rw [List.range_succ, List.foldlM_append, hT]
    simpa using hT'

/-- The loop only comes to states of the search. -/
theorem exists_of_head (hg : g.WellFormed) (h : Tables.Head g T) :
    ∃ s, Reached g s ∧ Tabulated g s T := by
  induction h with
  | @root T T' k hk hT hfresh hT' =>
    have hrests := rests_searchOfRoots hg k
    obtain ⟨T₀, hT₀, h₀⟩ := exists_ofRoots? hg (Nat.le_of_lt hk)
    obtain rfl := Option.some.inj (hT₀.symm.trans hT)
    have hf := h₀.unvisited_iff.mp hfresh
    obtain ⟨T₁, hT₁, h₁⟩ := h₀.enter hrests.reached.valid hrests.way hf
    obtain rfl := Option.some.inj (hT₁.symm.trans hT')
    exact ⟨_, hrests.reached.enter hrests.way hf, h₁⟩
  | @round T T' _ hT' ih =>
    obtain ⟨s, hreached, hs⟩ := ih
    cases hstep : s.step g with
    | none =>
      have hway := hs.way_eq_nil_iff.mpr (step_eq_none.mp hstep)
      simp [Tables.round?, hway] at hT'
    | some t =>
      have hst := step_eq_some.mp hstep
      obtain ⟨T₁, hT₁, h₁⟩ := hs.step hg hreached.valid hst
      obtain rfl := Option.some.inj (hT₁.symm.trans hT')
      exact ⟨t, hreached.step hst, h₁⟩

/-- The search has come to the targets of a file on the way that are not pending. -/
theorem Reached.target_not_fresh (hg : g.WellFormed) (h : Reached g s) {f : Frame}
    (hf : f ∈ s.way) (hv : v ∈ g.targets f.node) :
    v ∈ f.pending ∨ s.marks[v]? ≠ some .fresh := by
  rcases (h.accounted hg).settled f hf v hv with hp | hl | ⟨front, hc⟩ | ⟨k, m, -, hm, -⟩
  · exact .inl hp
  · exact .inr (by simp [hl])
  · exact .inr (h.found_not_fresh _ hc v (by simp))
  · exact .inr (by simp [hm])

theorem left_or_eq_of_setIfInBounds {marks : Array Mark} {j : Nat} {m : Mark}
    (h : (marks.setIfInBounds j m)[i]? = some .left) :
    marks[i]? = some .left ∨ i = j ∧ m = .left := by
  by_cases hij : j = i
  · subst j
    rw [Array.getElem?_setIfInBounds_self] at h
    split at h
    · exact .inr ⟨rfl, Option.some.inj h⟩
    · simp at h
  · exact .inl (by rwa [Array.getElem?_setIfInBounds_ne hij] at h)

/-- It has come to all targets of a file that has been left. -/
theorem Reached.left_targets (hg : g.WellFormed) (h : Reached g s)
    (hu : s.marks[u]? = some .left) (hv : v ∈ g.targets u) : s.marks[v]? ≠ some .fresh := by
  induction h with
  | start => simp [Search.start, Array.getElem?_replicate] at hu
  | @enter s root hs hw hr ih =>
    have hbefore := (left_or_eq_of_setIfInBounds hu).resolve_right (by simp)
    exact setIfInBounds_not_fresh (by simp) (.inr (ih hbefore))
  | @step s t hs hstep ih =>
    refine hstep.not_fresh ?_
    cases hstep with
    | @leave marks node before found =>
      rcases left_or_eq_of_setIfInBounds hu with hbefore | ⟨rfl, -⟩
      · exact ih hbefore
      · exact (hs.target_not_fresh hg List.mem_cons_self hv).resolve_left List.not_mem_nil
    | descend _ => exact ih ((left_or_eq_of_setIfInBounds hu).resolve_right (by simp))
    | close _ => exact ih hu
    | pass _ => exact ih hu

theorem Tabulated.consistent (hg : g.WellFormed) (hs : Reached g s) (h : Tabulated g s T) :
    T.Consistent g := by
  have hv := hs.valid
  have hstages : T.stages.size = g.fileCount := by
    rw [h.eq_tables, ← hv.marks_size]
    simp [tables]
  have hpositions : T.positions.size = g.fileCount := by
    rw [h.eq_tables, ← hv.marks_size]
    simp [tables]
  have hposition : ∀ i k : Nat, T.positions[i]? = some (some k) ↔ T.path[k]? = some i := by
    intro i k
    rw [h.position, h.path_eq, ← hv.onWay_iff]
    rcases s.marks[i]? with _ | _ | _ | _ <;> simp [Mark.position?]
  refine {
    stages_size := hstages
    positions_size := hpositions
    path_nodup := h.path_eq ▸ hv.path_nodup
    path_lt := fun i hi => hv.lt_of_mem_path (h.path_eq ▸ hi)
    path_imports := h.path_eq ▸ hv.path_imports
    inProgress_iff := ?_
    position_iff := hposition
    noPosition_iff := ?_
    next_le := ?_
    done_targets := ?_ }
  · intro i
    rw [h.inProgress_iff, h.path_eq, hv.mem_path_iff]
  · intro i hi
    obtain ⟨position, hp⟩ : ∃ position, T.positions[i]? = some position :=
      ⟨_, Array.getElem?_eq_getElem (hpositions ▸ hi)⟩
    rw [List.mem_iff_getElem?, hp]
    simp only [← hposition, hp]
    cases position <;> simp
  · intro level hlevel
    rw [h.eq_tables] at hlevel
    obtain ⟨f, -, rfl⟩ := List.mem_map.mp hlevel
    exact Nat.sub_le _ _
  · intro i hi j hj
    have hfresh := hs.left_targets hg (h.done_iff.mp hi) hj
    have hlt : j < s.marks.size := hv.marks_size ▸ hg.target_lt _ _ hj
    rw [h.done_iff, h.inProgress_iff]
    cases hm : s.marks[j] with
    | fresh => exact absurd (Array.getElem?_eq_some_iff.mpr ⟨hlt, hm⟩) hfresh
    | onWay k => exact .inr ⟨k, Array.getElem?_eq_some_iff.mpr ⟨hlt, hm⟩⟩
    | left => exact .inl (Array.getElem?_eq_some_iff.mpr ⟨hlt, hm⟩)

/-- No look into a table fails as long as there is a file on the way. -/
theorem Tabulated.exists_round? (hg : g.WellFormed) (hv : Valid g s) (h : Tabulated g s T)
    (hw : T.way ≠ []) : ∃ T', T.round? g = some T' := by
  cases hs : s.step g with
  | none => exact absurd (h.way_eq_nil_iff.mpr (step_eq_none.mp hs)) hw
  | some t =>
    obtain ⟨T', hT', -⟩ := h.step hg hv (step_eq_some.mp hs)
    exact ⟨T', hT'⟩

end Search

variable {g : Graph}

/-- The search in tables comes to its end, with the cycles of the graph. Each time before the loop
goes on the tables are consistent, the next round finds all that it looks for, and a file in
progress has a position. The loop goes as many rounds as there are files and imports: it comes to
each file once and leaves it once, and it looks at each import once. -/
theorem search_in_tables (hg : g.Built) :
    (∀ T, Tables.Head g T →
      (∃ s, Reached g s ∧ T = Search.tables g s T.rounds T.acts) ∧ T.Consistent g ∧
        (T.way ≠ [] → ∃ T', T.round? g = some T') ∧
        ∀ i : Nat, T.stages[i]? = some .inProgress → ∃ k, T.positions[i]? = some (some k)) ∧
    ∃ T, Tables.ofRoots? g g.fileCount = some T ∧ T = Search.tables g g.search T.rounds T.acts ∧
      T.way = [] ∧ T.found.reverse = g.cycles ∧ T.rounds = g.fileCount + g.edgeCount ∧
      T.acts.Perm ((List.range g.fileCount).flatMap (actsOn g)) := by
  have hwf := hg.wellFormed
  constructor
  · intro T hT
    obtain ⟨s, hs, h⟩ := Search.exists_of_head hwf hT
    have hconsistent := h.consistent hwf hs
    refine ⟨⟨s, hs, h.eq_tables⟩, hconsistent, h.exists_round? hwf hs.valid, ?_⟩
    intro i hi
    obtain ⟨k, hk⟩ := List.mem_iff_getElem?.mp ((hconsistent.inProgress_iff i).mp hi)
    exact ⟨k, (hconsistent.position_iff i k).mpr hk⟩
  · obtain ⟨T, hT, h⟩ := Search.exists_ofRoots? hwf (Nat.le_refl g.fileCount)
    have hsearch : Search.Tabulated g g.search T := h
    have hrounds := hsearch.rounds_add
    have hacts := hsearch.acts_add
    rw [Search.cost_search hwf, Nat.add_zero] at hrounds
    rw [Search.due_search hwf, add_zero] at hacts
    refine ⟨T, hT, hsearch.eq_tables,
      hsearch.way_eq_nil_iff.mpr (Search.rests_search hwf).way, ?_, hrounds,
      Multiset.coe_eq_coe.mp hacts⟩
    rw [hsearch.eq_tables, cycles_eq hwf, cycleIndices]
    simp [Search.tables]

theorem detour_in_tables : detour.Built ∧
    ∃ T, Tables.ofRoots? detour 4 = some T ∧ T.rounds = 9 ∧
      T.found = [⟨["a", "b", "c", "a"].map Path.ofString⟩] := by
  have hcount : detour.fileCount = 4 := by cbv
  have hedges : detour.edgeCount = 5 := by cbv
  have hcycles : detour.cycles = [⟨["a", "b", "c", "a"].map Path.ofString⟩] := by cbv
  obtain ⟨T, hT, -, -, hfound, hrounds, -⟩ := (search_in_tables built_detour).2
  rw [hcount] at hT
  rw [hcount, hedges] at hrounds
  rw [hcycles] at hfound
  exact ⟨built_detour, T, hT, hrounds, by simpa using congrArg List.reverse hfound⟩

end ImportCycles.Graph
