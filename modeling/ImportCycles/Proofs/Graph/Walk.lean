import Mathlib.Data.List.Chain
import ImportCycles.Cycle
import ImportCycles.Proofs.Graph.Built
/-! Directed cycles of a graph, as lists of places and as lists of files. -/
namespace ImportCycles

/-- The last consecutive pair of a cycle. -/
def Cycle.closing? (c : Cycle) : Option (Path × Path) := c.edges.getLast?

namespace Graph

/-- File `i` imports file `j`. -/
def Imports (g : Graph) (i j : Nat) : Prop := j ∈ g.targets i

/-- A directed cycle of a relation: each place leads to the next, and the last is the first again. -/
structure IsCycle (r : Nat → Nat → Prop) (walk : List Nat) : Prop where
  chain : walk.IsChain r
  closed : walk.head? = walk.getLast?
  two_le : 2 ≤ walk.length

/-- Each of the two files leads to the other along imports. -/
def SameComponent (g : Graph) (i j : Nat) : Prop :=
  Relation.ReflTransGen g.Imports i j ∧ Relation.ReflTransGen g.Imports j i

/-- A cycle that comes to no file twice before it closes. -/
structure IsElementary (g : Graph) (walk : List Nat) : Prop extends IsCycle g.Imports walk where
  nodup : walk.dropLast.Nodup

variable {g : Graph} {r : Nat → Nat → Prop} {walk : List Nat} {i j : Nat}

theorem IsCycle.exists_ends (h : IsCycle r walk) :
    ∃ a b rest, walk = a :: b :: rest ∧ walk.getLast? = some a := by
  match walk, h with
  | a :: b :: rest, h => exact ⟨a, b, rest, rfl, h.closed.symm⟩
  | [], h => exact absurd h.two_le (by simp)
  | [_], h => exact absurd h.two_le (by simp)

theorem IsCycle.exists_concat (h : IsCycle r walk) : ∃ front u v, walk = front ++ [u, v] := by
  obtain ⟨a, b, rest, rfl, -⟩ := h.exists_ends
  obtain ⟨front, v, hv⟩ := (List.eq_nil_or_concat (b :: rest)).resolve_left (by simp)
  obtain ⟨front', u, hu⟩ := (List.eq_nil_or_concat (a :: front)).resolve_left (by simp)
  refine ⟨front', u, v, ?_⟩
  rw [hv, List.concat_eq_append, ← List.cons_append, hu]
  simp

theorem isChain_iff_forall_mem_zip :
    walk.IsChain r ↔ ∀ e ∈ walk.zip walk.tail, r e.1 e.2 := by
  induction walk with
  | nil => simp
  | cons a rest ih =>
    cases rest with
    | nil => simp
    | cons b rest =>
      rw [List.isChain_cons_cons, ih]
      simp

theorem mem_zip_tail_iff {α : Type} {l : List α} {a b : α} :
    (a, b) ∈ l.zip l.tail ↔ ∃ k, l[k]? = some a ∧ l[k + 1]? = some b := by
  simp [List.mem_iff_getElem?, List.getElem?_zip_eq_some, List.getElem?_tail]

/-- Every place of a cycle leads to every other one. -/
theorem IsCycle.reflTransGen (h : IsCycle r walk) (hi : i ∈ walk) (hj : j ∈ walk) :
    Relation.ReflTransGen r i j := by
  obtain ⟨a, b, rest, hw, hlast⟩ := h.exists_ends
  have hto : Relation.ReflTransGen r i a := by
    refine h.chain.backwards_induction (Relation.ReflTransGen r · a) walk
      (fun _ _ hxy hy => .head hxy hy) (fun hne => ?_) i hi
    rw [List.getLast?_eq_some_getLast hne] at hlast
    rw [Option.some.inj hlast]
  have hfrom : Relation.ReflTransGen r a j := by
    refine h.chain.induction (Relation.ReflTransGen r a ·) walk
      (fun _ _ hxy hx => .tail hx hxy) (fun hne => ?_) j hj
    simp [hw, Relation.ReflTransGen.refl]
  exact hto.trans hfrom

theorem IsCycle.exists_transGen (h : IsCycle r walk) : ∃ a, Relation.TransGen r a a := by
  obtain ⟨a, b, rest, rfl, -⟩ := h.exists_ends
  exact ⟨a, .head' (List.isChain_cons_cons.mp h.chain).1
    (h.reflTransGen (by simp) (by simp))⟩

/-- No cycle passes where every way on comes to an end. -/
theorem not_transGen_of_acc {a : Nat} (h : Acc (fun v u => r u v) a) :
    ¬ Relation.TransGen r a a := by
  rw [← Relation.transGen_swap]
  have hacc := h.transGen
  clear h
  induction hacc with
  | intro b _ ih => exact fun hb => ih b hb hb

/-- The files of a cycle are files of the graph. -/
theorem IsCycle.lt_fileCount (hg : g.WellFormed) (h : IsCycle g.Imports walk) (hi : i ∈ walk) :
    i < g.fileCount := by
  obtain ⟨a, b, rest, rfl, -⟩ := h.exists_ends
  have hab : g.Imports a b := (List.isChain_cons_cons.mp h.chain).1
  cases h.reflTransGen List.mem_cons_self hi with
  | refl => exact hg.lt_of_mem_targets hab
  | tail _ hc => exact hg.target_lt _ _ hc

/-- The file at a place of the graph; beyond its last place an empty path. -/
def fileAt (g : Graph) (i : Nat) : Path := (g.file? i).getD ⟨[]⟩

theorem file?_of_lt (hi : i < g.fileCount) : g.file? i = some (g.fileAt i) := by
  cases h : g.file? i with
  | none => exact absurd (file?_eq_none_iff.mp h) (by omega)
  | some p => simp [fileAt, h]

theorem fileAt_mem_files (hi : i < g.fileCount) : g.fileAt i ∈ g.files.toList :=
  Array.mem_toList_iff.mpr (Array.mem_of_getElem? (file?_of_lt hi))

theorem filterMap_file? (h : ∀ i ∈ walk, i < g.fileCount) :
    walk.filterMap g.file? = walk.map g.fileAt := by
  rw [← List.filterMap_eq_map]
  exact List.filterMap_congr fun i hi => file?_of_lt (h i hi)

/-- Two places do not hold spellings of one path. -/
theorem WellFormed.eq_of_components {p q : Path} (hg : g.WellFormed) (hi : g.file? i = some p)
    (hj : g.file? j = some q) (h : p.components = q.components) : i = j := by
  have hpi := (hg.indexOf?_eq_some p i).mpr ⟨p, hi, rfl⟩
  have hpj := (hg.indexOf?_eq_some p j).mpr ⟨q, hj, h.symm⟩
  exact Option.some.inj (hpi.symm.trans hpj)

theorem WellFormed.eq_of_file? {p : Path} (hg : g.WellFormed) (hi : g.file? i = some p)
    (hj : g.file? j = some p) : i = j :=
  hg.eq_of_components hi hj rfl

theorem mem_edges_iff (hg : g.WellFormed) : (i, j) ∈ g.edges ↔ g.Imports i j := by
  simp only [edges, List.mem_flatMap, List.mem_range, List.mem_map, Prod.mk.injEq]
  constructor
  · rintro ⟨_, -, _, hj, rfl, rfl⟩
    exact hj
  · intro h
    exact ⟨i, hg.lt_of_mem_targets h, j, h, rfl, rfl⟩

/-- A file of the graph is found at its place. -/
theorem indexOf?_fileAt (hg : g.WellFormed) (hi : i < g.fileCount) :
    g.indexOf? (g.fileAt i) = some i :=
  (hg.indexOf?_eq_some _ _).mpr ⟨g.fileAt i, file?_of_lt hi, rfl⟩

/-- Files of the graph have different components. -/
theorem eq_of_components_of_mem {p q : Path} (hg : g.WellFormed) (hp : p ∈ g.files.toList)
    (hq : q ∈ g.files.toList) (h : p.components = q.components) : p = q := by
  obtain ⟨i, hi⟩ := List.getElem?_of_mem hp
  obtain ⟨j, hj⟩ := List.getElem?_of_mem hq
  rw [Array.getElem?_toList] at hi hj
  obtain rfl := hg.eq_of_components hi hj h
  exact Option.some.inj (hi.symm.trans hj)

end Graph

end ImportCycles
