import ImportCycles.Proofs.Graph.Walk
/-! The single steps of the search, the states it goes through, and what holds in all of them. -/
namespace ImportCycles.Graph.Search

/-- What one step does. -/
inductive Step (g : Graph) : Search → Search → Prop
  | leave {marks : Array Mark} {node : Nat} {before : List Frame} {found : List (List Nat)} :
      Step g ⟨marks, ⟨node, []⟩ :: before, found⟩
        ⟨marks.setIfInBounds node .left, before, found⟩
  | descend {marks : Array Mark} {node target : Nat} {pending : List Nat} {before : List Frame}
      {found : List (List Nat)} (h : marks[target]? = some .fresh) :
      Step g ⟨marks, ⟨node, target :: pending⟩ :: before, found⟩
        (enter g ⟨marks, ⟨node, pending⟩ :: before, found⟩ target)
  | close {marks : Array Mark} {node target position : Nat} {pending : List Nat}
      {before : List Frame} {found : List (List Nat)}
      (h : marks[target]? = some (.onWay position)) :
      Step g ⟨marks, ⟨node, target :: pending⟩ :: before, found⟩
        ⟨marks, ⟨node, pending⟩ :: before,
          closed (⟨node, pending⟩ :: before) position target :: found⟩
  | pass {marks : Array Mark} {node target : Nat} {pending : List Nat} {before : List Frame}
      {found : List (List Nat)} (h : marks[target]? = some .left ∨ marks[target]? = none) :
      Step g ⟨marks, ⟨node, target :: pending⟩ :: before, found⟩
        ⟨marks, ⟨node, pending⟩ :: before, found⟩

/-- The states that a search can go through, in whatever order it takes its roots. -/
inductive Reached (g : Graph) : Search → Prop
  | start : Reached g (start g)
  | enter {s : Search} {root : Nat} (hs : Reached g s) (hw : s.way = [])
      (hr : s.marks[root]? = some .fresh) : Reached g (s.enter g root)
  | step {s t : Search} (hs : Reached g s) (h : Step g s t) : Reached g t

/-- The files on the way, the first one first. -/
def path (s : Search) : List Nat := (s.way.map Frame.node).reverse

variable {g : Graph} {s t : Search} {marks : Array Mark} {before : List Frame}
  {found : List (List Nat)} {pending : List Nat} {node target position i : Nat}

theorem step_eq_some : s.step g = some t ↔ Step g s t := by
  constructor
  · intro h
    obtain ⟨marks, way, found⟩ := s
    match way with
    | [] => simp [step] at h
    | ⟨node, []⟩ :: before =>
      obtain rfl := Option.some.inj h
      exact .leave
    | ⟨node, target :: pending⟩ :: before =>
      simp only [step] at h
      cases hm : marks[target]? with
      | none =>
        obtain rfl := Option.some.inj (by simpa only [hm] using h)
        exact .pass (.inr hm)
      | some mark =>
        cases mark with
        | fresh =>
          obtain rfl := Option.some.inj (by simpa only [hm] using h)
          exact .descend hm
        | onWay position =>
          obtain rfl := Option.some.inj (by simpa only [hm] using h)
          exact .close hm
        | left =>
          obtain rfl := Option.some.inj (by simpa only [hm] using h)
          exact .pass (.inl hm)
  · intro h
    cases h with
    | leave => rfl
    | descend h => simp [step, h]
    | close h => simp [step, h]
    | pass h => rcases h with h | h <;> simp [step, h]

theorem step_eq_none : s.step g = none ↔ s.way = [] := by
  obtain ⟨marks, way, found⟩ := s
  constructor
  · intro h
    match way with
    | [] => rfl
    | ⟨node, []⟩ :: before => simp [step] at h
    | ⟨node, target :: pending⟩ :: before =>
      simp only [step] at h
      split at h <;> simp at h
  · rintro rfl
    rfl

structure Valid (g : Graph) (s : Search) : Prop where
  marks_size : s.marks.size = g.fileCount
  path_nodup : s.path.Nodup
  path_imports : s.path.IsChain g.Imports
  /-- The marks say which files are on the way, and where. -/
  onWay_iff : ∀ i k : Nat, s.marks[i]? = some (.onWay k) ↔ s.path[k]? = some i
  pending_suffix : ∀ f ∈ s.way, f.pending <:+ g.targets f.node

@[simp] theorem path_cons {f : Frame} :
    path ⟨marks, f :: before, found⟩ = path ⟨marks, before, found⟩ ++ [f.node] := by
  simp [path]

theorem path_enter : (s.enter g i).path = s.path ++ [i] := by
  simp [path, enter]

theorem length_path : s.path.length = s.way.length := by
  simp [path]

theorem Valid.lt_of_mark (h : Valid g s) {m : Mark} (hi : s.marks[i]? = some m) :
    i < g.fileCount := by
  obtain ⟨hlt, -⟩ := Array.getElem?_eq_some_iff.mp hi
  exact h.marks_size ▸ hlt

theorem Valid.mem_path_iff (h : Valid g s) : i ∈ s.path ↔ ∃ k, s.marks[i]? = some (.onWay k) := by
  simp only [List.mem_iff_getElem?, h.onWay_iff]

/-- The last place of a list with one more entry holds that entry. -/
theorem getElem?_concat_eq_some {l : List Nat} {a k : Nat} :
    (l ++ [a])[k]? = some i ↔ l[k]? = some i ∨ k = l.length ∧ a = i := by
  rcases Nat.lt_trichotomy k l.length with hk | rfl | hk
  · simp [List.getElem?_append_left hk, Nat.ne_of_lt hk]
  · simp
  · rw [List.getElem?_eq_none (by simp; omega), List.getElem?_eq_none (by omega)]
    simp [Nat.ne_of_gt hk]

theorem valid_start : Valid g (start g) where
  marks_size := by simp [start]
  path_nodup := by simp [path, start]
  path_imports := by simp [path, start]
  onWay_iff i k := by simp [path, start, Array.getElem?_replicate]
  pending_suffix f hf := by simp [start] at hf

/-- The last file on the way is marked with its place there. -/
theorem Valid.mark_last (h : Valid g ⟨marks, ⟨node, pending⟩ :: before, found⟩) :
    marks[node]? = some (.onWay before.length) := by
  have hlen := length_path (s := ⟨marks, before, found⟩)
  rw [h.onWay_iff node, path_cons, getElem?_concat_eq_some]
  exact Or.inr ⟨hlen.symm, rfl⟩

theorem Valid.node_ne {f : Frame} (h : Valid g ⟨marks, ⟨node, pending⟩ :: before, found⟩)
    (hf : f ∈ before) : node ≠ f.node := by
  rintro rfl
  have hnodup := h.path_nodup
  rw [path_cons] at hnodup
  refine List.disjoint_of_nodup_append hnodup ?_ (List.mem_singleton_self f.node)
  simpa [path] using ⟨f, hf, rfl⟩

/-- Going on to a fresh file that the last one on the way imports. -/
theorem Valid.enter (h : Valid g s) (hf : s.marks[i]? = some .fresh)
    (hi : ∀ j ∈ s.path.getLast?, g.Imports j i) : Valid g (s.enter g i) := by
  have hlt : i < s.marks.size := (Array.getElem?_eq_some_iff.mp hf).1
  have hnot : i ∉ s.path := by
    intro hm
    obtain ⟨k, hk⟩ := h.mem_path_iff.mp hm
    simp [hf] at hk
  refine ⟨by simpa [Search.enter] using h.marks_size, ?_, ?_, ?_, ?_⟩
  · rw [path_enter]
    simpa using h.path_nodup.concat hnot
  · rw [path_enter, List.isChain_append]
    exact ⟨h.path_imports, List.isChain_singleton i, by simpa using hi⟩
  · intro j k
    rw [path_enter, getElem?_concat_eq_some, ← h.onWay_iff j k, length_path]
    by_cases hj : i = j
    · subst j
      rw [hf]
      simp [Search.enter, hlt, eq_comm]
    · simp [Search.enter, hj]
  · intro f hmem
    rcases List.mem_cons.mp hmem with rfl | hmem
    · exact List.suffix_refl _
    · exact h.pending_suffix f hmem

/-- The target at the front of what is pending is a target of the file. -/
theorem Valid.imports_target (h : Valid g ⟨marks, ⟨node, target :: pending⟩ :: before, found⟩) :
    g.Imports node target :=
  (h.pending_suffix _ List.mem_cons_self).mem List.mem_cons_self

theorem Valid.consume (h : Valid g ⟨marks, ⟨node, target :: pending⟩ :: before, found⟩)
    (found' : List (List Nat)) :
    Valid g ⟨marks, ⟨node, pending⟩ :: before, found'⟩ where
  marks_size := h.marks_size
  path_nodup := by simpa [path] using h.path_nodup
  path_imports := by simpa [path] using h.path_imports
  onWay_iff := by simpa [path] using h.onWay_iff
  pending_suffix := by
    intro f hf
    rcases List.mem_cons.mp hf with rfl | hf
    · exact (List.suffix_cons target pending).trans (h.pending_suffix _ List.mem_cons_self)
    · exact h.pending_suffix f (List.mem_cons_of_mem _ hf)

theorem Valid.leave (h : Valid g ⟨marks, ⟨node, pending⟩ :: before, found⟩) :
    Valid g ⟨marks.setIfInBounds node .left, before, found⟩ := by
  have hnodup := h.path_nodup
  have hchain := h.path_imports
  have hway := h.onWay_iff
  simp only [path_cons] at hnodup hchain hway
  have hnot : node ∉ path ⟨marks, before, found⟩ := by
    simp only [path, List.mem_reverse, List.mem_map, not_exists, not_and]
    exact fun f hf he => h.node_ne hf he.symm
  refine ⟨by simpa using h.marks_size, (List.nodup_append.mp hnodup).1,
    hchain.left_of_append, ?_, fun f hf => h.pending_suffix f (List.mem_cons_of_mem _ hf)⟩
  intro j k
  have hj := hway j k
  rw [getElem?_concat_eq_some] at hj
  change (marks.setIfInBounds node .left)[j]? = _ ↔ (path ⟨marks, before, found⟩)[k]? = some j
  by_cases hn : node = j
  · subst j
    have hlt : node < marks.size := (Array.getElem?_eq_some_iff.mp h.mark_last).1
    simp only [Array.getElem?_setIfInBounds_self_of_lt hlt]
    constructor
    · intro he
      simp at he
    · intro he
      exact (hnot (List.mem_of_getElem? he)).elim
  · rw [Array.getElem?_setIfInBounds_ne hn, hj]
    simp [hn]

theorem Valid.step (h : Valid g s) (hs : Step g s t) : Valid g t := by
  cases hs with
  | leave => exact h.leave
  | descend hf =>
    refine (h.consume _).enter hf ?_
    simpa using h.imports_target
  | close _ => exact h.consume _
  | pass _ => exact h.consume _

theorem Reached.valid (h : Reached g s) : Valid g s := by
  induction h with
  | start => exact valid_start
  | enter _ hw hr ih => exact ih.enter hr (by simp [path, hw])
  | step _ hs ih => exact ih.step hs

/-- The files on the way from a position on, when `target` stands there. -/
theorem closed_eq (way : List Frame) :
    closed way position target = (way.map Frame.node).reverse.drop position ++ [target] := by
  simp [closed, List.map_take, List.drop_reverse]

end ImportCycles.Graph.Search
