import ImportCycles.Proofs.Lists
import ImportCycles.Proofs.Search.Elementary
/-!
The closing imports of the reported cycles meet every cycle of the graph. The imports that close
no reported cycle lead from each file that has been left to files that were left before it.
-/
namespace ImportCycles.Graph

/-- The import of file `j` by file `i` closes a reported cycle. -/
def IsClosing (g : Graph) (i j : Nat) : Prop :=
  ∃ c ∈ g.cycles, ∃ p q, c.closing? = some (p, q) ∧ g.file? i = some p ∧ g.file? j = some q

/-- The imports that are left when those that close a reported cycle are taken away. -/
def Kept (g : Graph) (i j : Nat) : Prop := g.Imports i j ∧ ¬ g.IsClosing i j

namespace Search

/-- A found cycle ends with `u` and `v`. -/
def Closes (s : Search) (u v : Nat) : Prop := ∃ front, front ++ [u, v] ∈ s.found

/-- What the search knows of an import that it has looked at: it leads to a file that has been
left, or closes a cycle, or leads further on along the way. -/
def Settled (s : Search) (u v : Nat) : Prop :=
  s.marks[v]? = some .left ∨ s.Closes u v ∨
    ∃ k m : Nat, s.marks[u]? = some (.onWay k) ∧ s.marks[v]? = some (.onWay m) ∧ k < m

structure Accounted (g : Graph) (s : Search) : Prop where
  settled : ∀ f ∈ s.way, ∀ v ∈ g.targets f.node, v ∈ f.pending ∨ s.Settled f.node v
  /-- From a file that has been left every way along kept imports comes to an end. -/
  ends : ∀ u : Nat, s.marks[u]? = some .left →
    Acc (fun v u => g.Imports u v ∧ ¬ s.Closes u v) u

variable {g : Graph} {s t : Search} {marks : Array Mark} {before : List Frame}
  {found found' : List (List Nat)} {pending : List Nat} {node target position u v i : Nat}

theorem Closes.mono (h : s.Closes u v) (hf : s.found ⊆ t.found) : t.Closes u v := by
  obtain ⟨front, hfront⟩ := h
  exact ⟨front, hf hfront⟩

theorem Settled.mono (h : s.Settled u v) (hf : s.found ⊆ t.found)
    (hm : ∀ (j : Nat) m, s.marks[j]? = some m → m ≠ .fresh → t.marks[j]? = some m) :
    t.Settled u v := by
  rcases h with hl | hc | ⟨k, m, hu, hv, hkm⟩
  · exact Or.inl (hm v _ hl (by simp))
  · exact Or.inr (Or.inl (hc.mono hf))
  · exact Or.inr (Or.inr ⟨k, m, hm u _ hu (by simp), hm v _ hv (by simp), hkm⟩)

/-- With more cycles found fewer imports are kept. -/
theorem acc_mono (h : Acc (fun v u => g.Imports u v ∧ ¬ s.Closes u v) i)
    (hf : s.found ⊆ t.found) : Acc (fun v u => g.Imports u v ∧ ¬ t.Closes u v) i :=
  Subrelation.accessible (fun hvu => ⟨hvu.1, fun hc => hvu.2 (hc.mono hf)⟩) h

theorem accounted_start : Accounted g (start g) where
  settled f hf := by simp [start] at hf
  ends u hu := by simp [start, Array.getElem?_replicate] at hu

theorem Accounted.enter (ha : Accounted g s) (hf : s.marks[i]? = some .fresh) :
    Accounted g (s.enter g i) := by
  have hkeep : ∀ (j : Nat) m, s.marks[j]? = some m → m ≠ .fresh →
      (s.enter g i).marks[j]? = some m := by
    intro j m hj hm
    have hne : i ≠ j := by
      rintro rfl
      exact hm (Option.some.inj (hj.symm.trans hf))
    simpa [Search.enter, hne] using hj
  refine ⟨?_, ?_⟩
  · intro f hmem v hv
    rcases List.mem_cons.mp hmem with rfl | hmem
    · exact Or.inl hv
    · exact (ha.settled f hmem v hv).imp id (·.mono (List.Subset.refl _) hkeep)
  · intro u hu
    refine acc_mono (ha.ends u ?_) (List.Subset.refl _)
    by_cases hne : i = u
    · subst u
      have hlt := (Array.getElem?_eq_some_iff.mp hf).1
      simp [Search.enter, hlt] at hu
    · simpa [Search.enter, hne] using hu

/-- A target need not be pending once its import is settled. -/
theorem Accounted.consume (above : List Frame)
    (ha : Accounted g ⟨marks, above ++ ⟨node, target :: pending⟩ :: before, found⟩)
    (hf : found ⊆ found')
    (ht : Settled ⟨marks, above ++ ⟨node, pending⟩ :: before, found'⟩ node target) :
    Accounted g ⟨marks, above ++ ⟨node, pending⟩ :: before, found'⟩ := by
  have hkeep : ∀ (f : Frame) v,
      Settled ⟨marks, above ++ ⟨node, target :: pending⟩ :: before, found⟩ f.node v →
        Settled ⟨marks, above ++ ⟨node, pending⟩ :: before, found'⟩ f.node v :=
    fun _ _ hs => hs.mono hf fun _ _ hj _ => hj
  refine ⟨?_, fun u hu => acc_mono (ha.ends u hu) hf⟩
  intro f hmem v hv
  rcases List.mem_append.mp hmem with hmem | hmem
  · exact (ha.settled f (by simp [hmem]) v hv).imp id (hkeep f v)
  rcases List.mem_cons.mp hmem with rfl | hmem
  · rcases ha.settled ⟨node, target :: pending⟩ (by simp) v hv with hp | hs
    · rcases List.mem_cons.mp hp with rfl | hp
      · exact Or.inr ht
      · exact Or.inl hp
    · exact Or.inr (hkeep ⟨node, pending⟩ v hs)
  · exact (ha.settled f (by simp [hmem]) v hv).imp id (hkeep f v)

/-- Going on from the last file on the way to one of its targets settles that import. -/
theorem Accounted.descend (hv : Valid g ⟨marks, ⟨node, target :: pending⟩ :: before, found⟩)
    (ha : Accounted g ⟨marks, ⟨node, target :: pending⟩ :: before, found⟩)
    (hf : marks[target]? = some .fresh) :
    Accounted g (Search.enter g ⟨marks, ⟨node, pending⟩ :: before, found⟩ target) := by
  have hlt := (Array.getElem?_eq_some_iff.mp hf).1
  have hne : target ≠ node := by
    rintro rfl
    have := hv.mark_last
    simp [hf] at this
  refine Accounted.consume [⟨target, g.targets target⟩] (ha.enter hf)
    (List.Subset.refl _)
      (Or.inr (Or.inr ⟨before.length, before.length + 1, ?_, ?_, Nat.lt_succ_self _⟩))
  · exact (Array.getElem?_setIfInBounds_ne hne).trans hv.mark_last
  · exact Array.getElem?_setIfInBounds_self_of_lt hlt

/-- A file that is left has every import settled, and none leads further on along the way. -/
theorem Accounted.leave (hv : Valid g ⟨marks, ⟨node, []⟩ :: before, found⟩)
    (ha : Accounted g ⟨marks, ⟨node, []⟩ :: before, found⟩) :
    Accounted g ⟨marks.setIfInBounds node .left, before, found⟩ := by
  have hlt := (Array.getElem?_eq_some_iff.mp hv.mark_last).1
  refine ⟨?_, ?_⟩
  · intro f hmem v hv'
    have hne := hv.node_ne hmem
    refine (ha.settled f (List.mem_cons_of_mem _ hmem) v hv').imp id ?_
    by_cases hnv : node = v
    · subst v
      exact fun _ => Or.inl (by simp [hlt])
    · rintro (hl | hc | ⟨k, m, hk, hm, hkm⟩)
      · exact Or.inl (by simpa [hnv] using hl)
      · exact Or.inr (Or.inl hc)
      · exact Or.inr (Or.inr ⟨k, m, by simpa [hne] using hk, by simpa [hnv] using hm, hkm⟩)
  · intro u hu
    by_cases hnu : node = u
    · subst u
      refine Acc.intro _ ?_
      rintro v ⟨himp, hopen⟩
      rcases ha.settled _ List.mem_cons_self v himp with hp | hl | hc | ⟨k, m, hk, hm, hkm⟩
      · simp at hp
      · exact ha.ends v hl
      · exact (hopen hc).elim
      · obtain rfl : before.length = k := by
          simpa using Option.some.inj (hv.mark_last.symm.trans hk)
        have hm' := (List.getElem?_eq_some_iff.mp ((hv.onWay_iff v m).mp hm)).1
        rw [length_path, List.length_cons] at hm'
        omega
    · exact ha.ends u (by simpa [hnu] using hu)

theorem Accounted.step (hg : g.WellFormed) (hv : Valid g s) (ha : Accounted g s)
    (hs : Step g s t) : Accounted g t := by
  cases hs with
  | leave => exact ha.leave hv
  | descend hf => exact ha.descend hv hf
  | @close _ _ _ _ _ _ found ht =>
    obtain ⟨front, -, hfront⟩ := (hv.consume found).exists_closed_eq ht
    exact Accounted.consume [] ha (List.subset_cons_self ..)
      (Or.inr (Or.inl ⟨front, by rw [← hfront]; exact List.mem_cons_self⟩))
  | pass ht =>
    rcases ht with ht | ht
    · exact Accounted.consume [] ha (List.Subset.refl _) (Or.inl ht)
    · have := hg.target_lt _ _ hv.imports_target
      rw [Array.getElem?_eq_none_iff, hv.marks_size] at ht
      omega

theorem Reached.accounted (hg : g.WellFormed) (h : Reached g s) : Accounted g s := by
  induction h with
  | start => exact accounted_start
  | enter _ _ hr ih => exact ih.enter hr
  | step hs hstep ih => exact ih.step hg hs.valid hstep

end Search

variable {g : Graph} {walk : List Nat} {i j : Nat}

theorem closing?_append {front : List Path} {p q : Path} :
    (⟨front ++ [p, q]⟩ : Cycle).closing? = some (p, q) :=
  Lists.getLast?_zip_tail_eq_some.mpr ⟨front, rfl⟩

/-- A reported cycle is closed by the last two places of a found one. -/
theorem isClosing_iff (hg : g.WellFormed) : g.IsClosing i j ↔ g.search.Closes i j := by
  constructor
  · rintro ⟨c, hc, p, q, hpq, hi, hj⟩
    obtain ⟨walk, hw, rfl⟩ := (mem_cycles_iff hg).mp hc
    have hcycle := (elementary_of_found hg hw).toIsCycle
    obtain ⟨front, u, v, rfl⟩ := hcycle.exists_concat
    have hends : (g.fileAt u, g.fileAt v) = (p, q) := by
      rw [List.map_append] at hpq
      exact Option.some.inj (closing?_append.symm.trans hpq)
    obtain ⟨rfl, rfl⟩ := Prod.mk.inj hends
    obtain rfl := hg.eq_of_file? (file?_of_lt (hcycle.lt_fileCount hg (by simp))) hi
    obtain rfl := hg.eq_of_file? (file?_of_lt (hcycle.lt_fileCount hg (by simp))) hj
    exact ⟨front, hw⟩
  · rintro ⟨front, hfront⟩
    have hcycle := (elementary_of_found hg hfront).toIsCycle
    refine ⟨_, (mem_cycles_iff hg).mpr ⟨_, hfront, rfl⟩, g.fileAt i, g.fileAt j, ?_,
      file?_of_lt (hcycle.lt_fileCount hg (by simp)),
      file?_of_lt (hcycle.lt_fileCount hg (by simp))⟩
    rw [List.map_append]
    exact closing?_append

/-- From every file the ways along kept imports come to an end. -/
theorem acc_kept (hg : g.WellFormed) (i : Nat) : Acc (fun v u => g.Kept u v) i := by
  have hacc : Acc (fun v u => g.Imports u v ∧ ¬ g.search.Closes u v) i := by
    by_cases hi : i < g.fileCount
    · exact ((Search.rests_search hg).reached.accounted hg).ends i (Search.search_left hg hi)
    · exact Acc.intro _ fun v hv => absurd (hg.lt_of_mem_targets hv.1) hi
  exact Subrelation.accessible (fun hk => ⟨hk.1, fun hc => hk.2 ((isClosing_iff hg).mpr hc)⟩) hacc

/-- With nothing reported every way along imports comes to an end. -/
theorem acc_imports (hg : g.WellFormed) (hnone : g.cycles = []) (i : Nat) :
    Acc (fun v u => g.Imports u v) i := by
  refine Subrelation.accessible ?_ (acc_kept hg i)
  rintro v u himports
  refine ⟨himports, ?_⟩
  rintro ⟨c, hc, -⟩
  simp [hnone] at hc

theorem not_isCycle_kept (hg : g.WellFormed) : ¬ IsCycle g.Kept walk := by
  intro h
  obtain ⟨a, ha⟩ := h.exists_transGen
  exact not_transGen_of_acc (acc_kept hg a) ha

/-- A cycle of imports is not made of kept imports alone. -/
theorem exists_isClosing (hg : g.WellFormed) (h : IsCycle g.Imports walk) :
    ∃ e ∈ walk.zip walk.tail, g.IsClosing e.1 e.2 := by
  by_contra hnone
  refine not_isCycle_kept hg ⟨?_, h.closed, h.two_le⟩
  rw [isChain_iff_forall_mem_zip]
  intro e he
  exact ⟨isChain_iff_forall_mem_zip.mp h.chain e he, fun hc => hnone ⟨e, he, hc⟩⟩

/-- A reported cycle lies in the component of each cycle that its closing import is part of. -/
theorem exists_cycle_in_component (hg : g.WellFormed) (h : IsCycle g.Imports walk) :
    ∃ c ∈ g.cycles, ∀ p ∈ c.files, ∃ j, g.file? j = some p ∧ ∀ i ∈ walk, g.SameComponent i j := by
  obtain ⟨⟨u, v⟩, he, hclosing⟩ := exists_isClosing hg h
  obtain ⟨front, hfront⟩ := (isClosing_iff hg).mp hclosing
  have hcycle := (elementary_of_found hg hfront).toIsCycle
  obtain ⟨k, hk, -⟩ := mem_zip_tail_iff.mp he
  have hu : u ∈ walk := List.mem_of_getElem? hk
  refine ⟨_, (mem_cycles_iff hg).mpr ⟨_, hfront, rfl⟩, ?_⟩
  intro p hp
  obtain ⟨j, hj, rfl⟩ := List.mem_map.mp hp
  refine ⟨j, file?_of_lt (hcycle.lt_fileCount hg hj), fun i hi => ⟨?_, ?_⟩⟩
  · exact (h.reflTransGen hi hu).trans (hcycle.reflTransGen (by simp) hj)
  · exact (hcycle.reflTransGen hj (by simp)).trans (h.reflTransGen hu hi)

/-- A cycle is reported just when there is one. -/
theorem cycles_ne_nil_iff (hg : g.WellFormed) : g.cycles ≠ [] ↔ ∃ walk, IsCycle g.Imports walk := by
  constructor
  · intro hne
    obtain ⟨c, hc⟩ := List.exists_mem_of_ne_nil _ hne
    obtain ⟨walk, hw, -⟩ := (mem_cycles_iff hg).mp hc
    exact ⟨walk, (elementary_of_found hg hw).toIsCycle⟩
  · rintro ⟨walk, hw⟩
    obtain ⟨c, hc, -⟩ := exists_cycle_in_component hg hw
    exact List.ne_nil_of_mem hc

/-- The closing imports of the reported cycles meet every cycle: none is left without them, each
component with a cycle holds a reported one, and with nothing reported there is no cycle. -/
theorem closing_imports_meet_cycles (hg : g.Built) :
    (∀ walk, IsCycle g.Imports walk → ∃ e ∈ walk.zip walk.tail, g.IsClosing e.1 e.2) ∧
    (∀ walk, ¬ IsCycle g.Kept walk) ∧
    (∀ walk, IsCycle g.Imports walk → ∃ c ∈ g.cycles,
      ∀ p ∈ c.files, ∃ j, g.file? j = some p ∧ ∀ i ∈ walk, g.SameComponent i j) ∧
    (g.cycles = [] → ∀ walk, ¬ IsCycle g.Imports walk) := by
  have hwf := hg.wellFormed
  refine ⟨fun _ => exists_isClosing hwf, fun _ => not_isCycle_kept hwf,
    fun _ => exists_cycle_in_component hwf, ?_⟩
  intro hnone walk h
  exact (cycles_ne_nil_iff hwf).mpr ⟨walk, h⟩ hnone

/-- The way from `a` by `d` is a cycle that is not reported; the cycle by `b` closes as it does. -/
theorem closing_import_on_detour :
    detour.Built ∧ IsCycle detour.Imports [0, 3, 2, 0] ∧ [0, 3, 2, 0] ∉ detour.cycleIndices ∧
      ∃ e ∈ [(0, 3), (3, 2), (2, 0)], detour.IsClosing e.1 e.2 := by
  have ha : detour.targets 0 = [1, 3] := by cbv
  have hc : detour.targets 2 = [0] := by cbv
  have hd : detour.targets 3 = [2] := by cbv
  have hcycle : IsCycle detour.Imports [0, 3, 2, 0] :=
    ⟨by simp [Imports, ha, hc, hd], rfl, by decide⟩
  have hreported : detour.cycleIndices = [[0, 1, 2, 0]] := by cbv
  exact ⟨built_detour, hcycle, by simp [hreported], (closing_imports_meet_cycles built_detour).1 _ hcycle⟩

end ImportCycles.Graph
