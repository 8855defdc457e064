import ImportCycles.Proofs.Search.Elementary
/-!
The depth-first search as a recursion over the targets of a file, and the proof that the search
along the way finds the same cycles in the same order.
-/
namespace ImportCycles.Graph

/-- How far the recursion has come with a file. -/
inductive Stage where
  | unvisited
  | inProgress
  | done
deriving DecidableEq

structure Traversal where
  stages : Array Stage
  /-- The cycles reported, the first one first. -/
  reported : List (List Nat)

namespace Traversal

variable {g : Graph} {t : Traversal} {path : List Nat} {i : Nat} {stage : Stage}

def start (g : Graph) : Traversal := ⟨Array.replicate g.fileCount .unvisited, []⟩

def mark (t : Traversal) (i : Nat) (stage : Stage) : Traversal :=
  { t with stages := t.stages.setIfInBounds i stage }

/-- Reports the path from `target` on, and `target` again. -/
def report (t : Traversal) (path : List Nat) (target : Nat) : Traversal :=
  { t with reported := t.reported ++ [path.dropWhile (· ≠ target) ++ [target]] }

/-- How many files have not been visited. -/
def unvisited (t : Traversal) : Nat := t.stages.count .unvisited

theorem unvisited_mark_lt (h : t.stages[i]? = some .unvisited) (hs : stage ≠ .unvisited) :
    (t.mark i stage).unvisited < t.unvisited := by
  obtain ⟨hlt, hget⟩ := Array.getElem?_eq_some_iff.mp h
  have hpos : 0 < t.stages.count .unvisited :=
    Array.count_pos_iff.mpr (hget ▸ Array.getElem_mem hlt)
  have hmark : (t.mark i stage).unvisited = t.stages.count .unvisited - 1 := by
    rw [unvisited, mark, Array.setIfInBounds, dif_pos hlt, Array.count_set, hget,
      if_pos (beq_self_eq_true _), beq_false_of_ne hs]
    rfl
  rw [hmark, unvisited]
  omega

theorem unvisited_mark_le (hs : stage ≠ .unvisited) :
    (t.mark i stage).unvisited ≤ t.unvisited := by
  rw [unvisited, mark, Array.setIfInBounds]
  split
  · next hlt =>
    rw [Array.count_set, beq_false_of_ne hs]
    exact Nat.sub_le _ _
  · exact Nat.le_refl _

/-- The traversals that can come after `t`: no file is unvisited again. -/
abbrev After (t : Traversal) : Type := { u : Traversal // u.unvisited ≤ t.unvisited }

mutual

/-- Visits an unvisited file: it is in progress while its targets are explored, and then done.
`path` holds the files in progress, the first one first. -/
def visit (g : Graph) (path : List Nat) (t : Traversal) (i : Nat)
    (_h : t.stages[i]? = some .unvisited) : After t :=
  let u := explore g (path ++ [i]) (t.mark i .inProgress) (g.targets i)
  ⟨u.1.mark i .done, (unvisited_mark_le (by decide)).trans
    (u.2.trans (unvisited_mark_le (by decide)))⟩
termination_by (t.unvisited, 0)
decreasing_by exact Prod.Lex.left _ _ (unvisited_mark_lt _h (by decide))

/-- Explores targets of the last file of `path`: an unvisited one is visited, one in progress
closes a cycle, and one that is done is passed over. -/
def explore (g : Graph) (path : List Nat) (t : Traversal) : List Nat → After t
  | [] => ⟨t, le_rfl⟩
  | target :: rest =>
    match h : t.stages[target]? with
    | some .unvisited =>
      let u := visit g path t target h
      let v := explore g path u.1 rest
      ⟨v.1, v.2.trans u.2⟩
    | some .inProgress => explore g path (t.report path target) rest
    | some .done | none => explore g path t rest
termination_by targets => (t.unvisited, targets.length + 1)
decreasing_by
  · exact Prod.Lex.right _ (Nat.succ_pos _)
  · rcases Nat.lt_or_eq_of_le u.2 with hu | hu
    · exact Prod.Lex.left _ _ hu
    · rw [hu]
      exact Prod.Lex.right _ (Nat.lt_succ_self _)
  all_goals exact Prod.Lex.right _ (Nat.lt_succ_self _)

end

/-- Visits a file from outside, unless it has been visited. -/
def root (g : Graph) (t : Traversal) (i : Nat) : Traversal :=
  if h : t.stages[i]? = some .unvisited then (visit g [] t i h).1 else t

end Traversal

/-- The recursive traversal of the whole graph. -/
def traverse (g : Graph) : Traversal :=
  (List.range g.fileCount).foldl (Traversal.root g) (Traversal.start g)

/-- The stage that a mark of the search stands for. -/
def Mark.stage : Mark → Stage
  | .fresh => .unvisited
  | .onWay _ => .inProgress
  | .left => .done

namespace Traversal

variable {g : Graph} {t : Traversal} {path rest : List Nat} {target i : Nat}

theorem visit_eq (h : t.stages[i]? = some .unvisited) :
    (visit g path t i h).1 =
      (explore g (path ++ [i]) (t.mark i .inProgress) (g.targets i)).1.mark i .done := by
  rw [visit]

theorem unvisited_visit_lt (h : t.stages[i]? = some .unvisited) :
    (visit g path t i h).1.unvisited < t.unvisited := by
  rw [visit_eq]
  calc ((explore g (path ++ [i]) (t.mark i .inProgress) (g.targets i)).1.mark i .done).unvisited
    _ ≤ (explore g (path ++ [i]) (t.mark i .inProgress) (g.targets i)).1.unvisited :=
      unvisited_mark_le (by decide)
    _ ≤ (t.mark i .inProgress).unvisited := (explore ..).2
    _ < t.unvisited := unvisited_mark_lt h (by decide)

theorem explore_nil : (explore g path t []).1 = t := by
  rw [explore]

theorem explore_unvisited (h : t.stages[target]? = some .unvisited) :
    (explore g path t (target :: rest)).1 =
      (explore g path (visit g path t target h).1 rest).1 := by
  rw [explore]
  split <;> simp_all

theorem explore_inProgress (h : t.stages[target]? = some .inProgress) :
    (explore g path t (target :: rest)).1 = (explore g path (t.report path target) rest).1 := by
  rw [explore]
  split <;> simp_all

theorem explore_done (h : t.stages[target]? = some .done ∨ t.stages[target]? = none) :
    (explore g path t (target :: rest)).1 = (explore g path t rest).1 := by
  rw [explore]
  split <;> simp_all

end Traversal

namespace Search

/-- The search is as far as the recursion, and has found what that reported. -/
structure Mirrors (s : Search) (t : Traversal) : Prop where
  stages : t.stages = s.marks.map Mark.stage
  reported : t.reported = s.found.reverse

variable {g : Graph} {s s' : Search} {t : Traversal} {marks : Array Mark} {before : List Frame}
  {found : List (List Nat)} {pending : List Nat} {node target position n k i : Nat} {m : Mark}

theorem mirrors_start : Mirrors (start g) (Traversal.start g) where
  stages := by simp [start, Traversal.start, Mark.stage]
  reported := rfl

theorem Mirrors.stage (h : Mirrors s t) (hi : s.marks[i]? = some m) :
    t.stages[i]? = some m.stage := by
  simp [h.stages, hi]

theorem Mirrors.mark (h : Mirrors s t) (way : List Frame) :
    Mirrors ⟨s.marks.setIfInBounds i m, way, s.found⟩ (t.mark i m.stage) where
  stages := by simp [Traversal.mark, h.stages, Array.map_setIfInBounds]
  reported := h.reported

/-- In a list without repetitions, what comes from an entry on is the rest from its place on. -/
theorem dropWhile_ne_eq_drop {l : List Nat} (hl : l.Nodup) (hk : l[k]? = some i) :
    l.dropWhile (· ≠ i) = l.drop k := by
  induction l generalizing k with
  | nil => simp at hk
  | cons a l ih =>
    obtain ⟨ha, hl⟩ := List.nodup_cons.mp hl
    cases k with
    | zero =>
      obtain rfl : a = i := by simpa using hk
      simp
    | succ k =>
      rw [List.getElem?_cons_succ] at hk
      have hne : a ≠ i := fun he => ha (he ▸ List.mem_of_getElem? hk)
      rw [List.dropWhile_cons_of_pos (by simpa using hne), ih hl hk, List.drop_succ_cons]

/-- The frames of the way that are cut out hold the path from the target on. -/
theorem Mirrors.report (h : Mirrors ⟨marks, ⟨node, target :: pending⟩ :: before, found⟩ t)
    (hv : Valid g ⟨marks, ⟨node, target :: pending⟩ :: before, found⟩)
    (ht : marks[target]? = some (.onWay position)) :
    Mirrors ⟨marks, ⟨node, pending⟩ :: before,
        closed (⟨node, pending⟩ :: before) position target :: found⟩
      (t.report (path ⟨marks, ⟨node, target :: pending⟩ :: before, found⟩) target) where
  stages := h.stages
  reported := by
    have hdrop := dropWhile_ne_eq_drop hv.path_nodup ((hv.onWay_iff target position).mp ht)
    simp only [Traversal.report, hdrop, h.reported, closed_eq, List.reverse_cons]
    simp [path]

theorem Valid.steps (h : Valid g s) (hs : Relation.ReflTransGen (Step g) s s') : Valid g s' := by
  induction hs with
  | refl => exact h
  | tail _ hstep ih => exact ih.step hstep

/-- The search takes a file from the way by the steps in which the recursion explores the pending
targets of it. -/
theorem explore_steps (hv : Valid g ⟨marks, ⟨node, pending⟩ :: before, found⟩)
    (h : Mirrors ⟨marks, ⟨node, pending⟩ :: before, found⟩ t) :
    ∃ s', Relation.ReflTransGen (Step g) ⟨marks, ⟨node, pending⟩ :: before, found⟩ s' ∧
      s'.way = before ∧
      Mirrors s' ((Traversal.explore g (path ⟨marks, ⟨node, pending⟩ :: before, found⟩) t
        pending).1.mark node .done) := by
  -- A visited target leaves fewer files unvisited, any other one leaves fewer targets pending.
  obtain ⟨n, hn⟩ : ∃ n, t.unvisited = n := ⟨_, rfl⟩
  induction n using Nat.strong_induction_on
    generalizing t marks node pending before found with
  | h n ihn =>
  induction pending generalizing t found with
  | nil =>
    rw [Traversal.explore_nil]
    exact ⟨_, .single .leave, rfl, h.mark before⟩
  | cons target rest ih =>
    have hpath : path ⟨marks, ⟨node, target :: rest⟩ :: before, found⟩ =
        path ⟨marks, ⟨node, rest⟩ :: before, found⟩ := by simp [path]
    cases ht : marks[target]? with
    | none =>
      have hstage : t.stages[target]? = none := by simp [h.stages, ht]
      rw [Traversal.explore_done (.inr hstage), hpath]
      obtain ⟨s', hsteps, hway, hm⟩ := ih (hv.consume found) ⟨h.stages, h.reported⟩ hn
      exact ⟨s', .head (.pass (.inr ht)) hsteps, hway, hm⟩
    | some mark =>
      cases mark with
      | fresh =>
        have hstage : t.stages[target]? = some .unvisited := h.stage ht
        have hentered := hv.step (.descend ht)
        have hlt : (t.mark target .inProgress).unvisited < n :=
          hn ▸ Traversal.unvisited_mark_lt hstage (by decide)
        obtain ⟨⟨marks', _, found'⟩, hcall, rfl, hcalled⟩ := ihn _ hlt hentered (h.mark _) rfl
        have hvisited : Mirrors ⟨marks', ⟨node, rest⟩ :: before, found'⟩
            (Traversal.visit g (path ⟨marks, ⟨node, rest⟩ :: before, found⟩) t target hstage).1 := by
          rw [Traversal.visit_eq, ← path_enter (g := g)]
          exact hcalled
        obtain ⟨s', hsteps, hway, hm⟩ :=
          ihn _ (hn ▸ Traversal.unvisited_visit_lt hstage) (hentered.steps hcall) hvisited rfl
        rw [Traversal.explore_unvisited hstage, hpath]
        exact ⟨s', .head (.descend ht) (hcall.trans hsteps), hway, hm⟩
      | onWay position =>
        have hstage : t.stages[target]? = some .inProgress := h.stage ht
        rw [Traversal.explore_inProgress hstage]
        obtain ⟨s', hsteps, hway, hm⟩ := ih (hv.consume _) (h.report hv ht) hn
        exact ⟨s', .head (.close ht) hsteps, hway, hm⟩
      | left =>
        have hstage : t.stages[target]? = some .done := h.stage ht
        rw [Traversal.explore_done (.inl hstage), hpath]
        obtain ⟨s', hsteps, hway, hm⟩ := ih (hv.consume found) ⟨h.stages, h.reported⟩ hn
        exact ⟨s', .head (.pass (.inl ht)) hsteps, hway, hm⟩

theorem Mirrors.fromRoot (hg : g.WellFormed) (hs : Rests g k s) (h : Mirrors s t) :
    Mirrors (fromRoot g (g.fileCount + g.edgeCount) s k) (Traversal.root g t k) := by
  by_cases hf : s.marks[k]? = some .fresh
  · have hstage : t.stages[k]? = some .unvisited := h.stage hf
    have hentered := (hs.reached.enter hs.way hf).valid
    obtain ⟨s', hsteps, hway, hm⟩ := explore_steps hentered (h.mark _)
    have hcost := hs.reached.valid.cost_enter hf ▸ cost_le hg hs.way
    rw [fromRoot_fresh hf, hentered.run_eq hsteps (hway.trans hs.way) hcost]
    rw [Traversal.root, dif_pos hstage, Traversal.visit_eq]
    have hpath : path (s.enter g k) = [] ++ [k] := by
      rw [path_enter]
      simp [path, hs.way]
    rw [← hpath]
    exact hm
  · have hstage : t.stages[k]? ≠ some .unvisited := by
      rw [h.stages, Array.getElem?_map]
      cases hm : s.marks[k]? with
      | none => simp
      | some m => cases m <;> simp_all [Mark.stage]
    rw [fromRoot_not_fresh hf, Traversal.root, dif_neg hstage]
    exact h

theorem mirrors_search (hg : g.WellFormed) : Mirrors g.search g.traverse := by
  have hroots : ∀ k, Mirrors
      ((List.range k).foldl (fromRoot g (g.fileCount + g.edgeCount)) (start g))
      ((List.range k).foldl (Traversal.root g) (Traversal.start g)) := by
    intro k
    induction k with
    | zero => exact mirrors_start
    | succ k ih =>
      rw [List.range_succ, List.foldl_concat, List.foldl_concat]
      exact ih.fromRoot hg (rests_roots hg k)
  exact hroots g.fileCount

end Search

/-- The cycles of the graph are those that the recursion reports, in the same order and each from
the same file on. -/
theorem cycles_eq_reported {g : Graph} (hg : g.Built) :
    g.cycleIndices = g.traverse.reported ∧
      g.cycles = g.traverse.reported.map fun walk => ⟨walk.map g.fileAt⟩ := by
  have hindices : g.cycleIndices = g.traverse.reported :=
    (Search.mirrors_search hg.wellFormed).reported.symm
  exact ⟨hindices, hindices ▸ cycles_eq hg.wellFormed⟩

theorem detour_reported : detour.Built ∧ detour.traverse.reported = [[0, 1, 2, 0]] := by
  have hindices : detour.cycleIndices = [[0, 1, 2, 0]] := by cbv
  exact ⟨built_detour, (cycles_eq_reported built_detour).1.symm.trans hindices⟩

end ImportCycles.Graph
