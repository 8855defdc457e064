import ImportCycles.Proofs.Search.Acts
import ImportCycles.Proofs.Search.Recursion
import ImportCycles.Proofs.Search.Roots
/-!
The search with its state in tables: how far it has come with each file, where each file stands on
the way, and a way of files with the place of the next target of each. Every look into a table can
fail. The tables are those of the search along the way, so none does.
-/
namespace ImportCycles.Graph

open Search (Act actsOn)

/-- The table with another entry, if it has an entry there. -/
def write? {α : Type} (table : Array α) (i : Nat) (a : α) : Option (Array α) :=
  if i < table.size then some (table.setIfInBounds i a) else none

/-- A file on the way, and the place of the target to be looked at next. -/
structure Level where
  node : Nat
  next : Nat
deriving DecidableEq, Repr

structure Tables where
  stages : Array Stage
  /-- Where the files in progress stand on the way. -/
  positions : Array (Option Nat)
  /-- The way, the last file first. -/
  way : List Level
  /-- The cycles found, the last one first. -/
  found : List Cycle
  /-- How often the loop has gone round. -/
  rounds : Nat
  /-- What has been done, the last act first. -/
  acts : List Act

namespace Tables

def start (g : Graph) : Tables :=
  ⟨Array.replicate g.fileCount .unvisited, Array.replicate g.fileCount none, [], [], 0, []⟩

/-- The files on the way, the first one first. -/
def path (T : Tables) : List Nat := (T.way.map Level.node).reverse

/-- Goes on to a file, which gets this position on the way. -/
def enter? (T : Tables) (node position : Nat) : Option Tables := do
  let stages ← write? T.stages node .inProgress
  let positions ← write? T.positions node (some position)
  some { T with
    stages, positions, way := ⟨node, 0⟩ :: T.way, acts := .enter node :: T.acts }

/-- Leaves the last file, which was `node`; `before` is the rest of the way. -/
def leave? (T : Tables) (node : Nat) (before : List Level) : Option Tables := do
  let stages ← write? T.stages node .done
  let positions ← write? T.positions node none
  some { T with stages, positions, way := before, acts := .leave node :: T.acts }

/-- Reports the path from the position of `target` on, and `target` again. A file without a position
is taken to be the first one. -/
def report? (g : Graph) (T : Tables) (target : Nat) : Option Tables := do
  let position ← T.positions[target]?
  let first := position.getD 0
  guard (first ≤ T.path.length)
  let files ← (T.path.drop first ++ [target]).mapM g.file?
  some { T with found := ⟨files⟩ :: T.found }

/-- One round of the loop. -/
def round? (g : Graph) (T : Tables) : Option Tables :=
  match T.way with
  | [] => none
  | ⟨node, next⟩ :: before => do
    let T := { T with rounds := T.rounds + 1 }
    let targets ← ((List.range g.fileCount).map g.targets)[node]?
    match targets[next]? with
    | none => T.leave? node before
    | some target =>
      let T := { T with
        way := ⟨node, next + 1⟩ :: before, acts := .look node target :: T.acts }
      match ← T.stages[target]? with
      | .unvisited => T.enter? target T.way.length
      | .inProgress => T.report? g target
      | .done => some T

/-- How many files have not been visited. -/
def unvisited (T : Tables) : Nat := T.stages.count .unvisited

/-- How often the loop goes round with the files on the way alone. -/
def remaining (g : Graph) (T : Tables) : Nat :=
  (T.way.map fun level => (g.targets level.node).length - level.next + 1).sum

/-- Fewer files are unvisited, or no more than before and less remains of the way. -/
def Precedes (g : Graph) (T' T : Tables) : Prop :=
  Prod.Lex (· < ·) (· < ·) (T'.unvisited, T'.remaining g) (T.unvisited, T.remaining g)

variable {g : Graph} {T T' : Tables} {before : List Level} {node target position i : Nat}

theorem write?_eq_some {α : Type} {table table' : Array α} {a : α} :
    write? table i a = some table' ↔ i < table.size ∧ table.setIfInBounds i a = table' := by
  simp [write?]

theorem unvisited_of_enter? (hfresh : T.stages[node]? = some .unvisited)
    (h : T.enter? node position = some T') : T'.unvisited < T.unvisited := by
  simp only [enter?, Option.bind_eq_bind, Option.bind_eq_some_iff, write?_eq_some] at h
  obtain ⟨stages, ⟨-, rfl⟩, positions, -, h⟩ := h
  obtain rfl := Option.some.inj h
  exact Traversal.unvisited_mark_lt (t := ⟨T.stages, []⟩) hfresh (by decide)

theorem unvisited_of_leave? (h : T.leave? node before = some T') :
    T'.unvisited ≤ T.unvisited ∧ T'.way = before := by
  simp only [leave?, Option.bind_eq_bind, Option.bind_eq_some_iff, write?_eq_some] at h
  obtain ⟨stages, ⟨-, rfl⟩, positions, -, h⟩ := h
  obtain rfl := Option.some.inj h
  exact ⟨Traversal.unvisited_mark_le (t := ⟨T.stages, []⟩) (by decide), rfl⟩

theorem unvisited_of_report? (h : T.report? g target = some T') :
    T'.unvisited = T.unvisited ∧ T'.way = T.way := by
  simp only [report?, Option.bind_eq_bind, Option.bind_eq_some_iff] at h
  obtain ⟨position, -, -, -, files, -, h⟩ := h
  obtain rfl := Option.some.inj h
  exact ⟨rfl, rfl⟩

/-- A round comes to a file that was unvisited, or takes something from what remains of the way. -/
theorem precedes_of_round? (h : T.round? g = some T') : T'.Precedes g T := by
  unfold round? at h
  split at h
  · simp at h
  next node next before hway =>
  simp only [Option.bind_eq_bind, Option.bind_eq_some_iff] at h
  obtain ⟨targets, htargets, h⟩ := h
  obtain ⟨_, htargets⟩ := List.getElem?_eq_some_iff.mp htargets
  obtain rfl : g.targets node = targets := by simpa using htargets
  have hremaining : T.remaining g = (g.targets node).length - next + 1 +
      (before.map fun level => (g.targets level.node).length - level.next + 1).sum := by
    simp [remaining, hway]
  split at h
  · obtain ⟨hle, hrest⟩ := unvisited_of_leave? h
    refine Prod.Lex.right' _ hle ?_
    rw [hremaining, remaining, hrest]
    omega
  next target htarget =>
  obtain ⟨hlt, -⟩ := List.getElem?_eq_some_iff.mp htarget
  obtain ⟨stage, hstage, h⟩ := Option.bind_eq_some_iff.mp h
  have hless : ∀ {T' : Tables}, T'.way = ⟨node, next + 1⟩ :: before →
      T'.remaining g < T.remaining g := by
    intro T' hway'
    rw [hremaining, remaining, hway', List.map_cons, List.sum_cons]
    simp only
    omega
  cases stage with
  | unvisited =>
    have hlt := unvisited_of_enter? (by exact hstage) h
    exact Prod.Lex.left _ _ hlt
  | inProgress =>
    obtain ⟨heq, hrest⟩ := unvisited_of_report? h
    exact Prod.Lex.right' _ (Nat.le_of_eq heq) (hless hrest)
  | done =>
    obtain rfl := Option.some.inj h
    exact Prod.Lex.right' _ (Nat.le_refl _) (hless rfl)

/-- Goes round as long as there is a file on the way. -/
def loop? (g : Graph) (T : Tables) : Option Tables :=
  match T.way with
  | [] => some T
  | _ :: _ =>
    match _h : T.round? g with
    | none => none
    | some T => loop? g T
termination_by (T.unvisited, T.remaining g)
decreasing_by exact precedes_of_round? _h

theorem loop?_nil (h : T.way = []) : loop? g T = some T := by
  rw [loop?, h]

theorem loop?_of_round? (h : T.round? g = some T') : loop? g T = loop? g T' := by
  cases hw : T.way with
  | nil => simp [round?, hw] at h
  | cons level before =>
    rw [loop?, hw]
    simp only
    split <;> simp_all

/-- Takes a root, if it is unvisited. -/
def fromRoot? (g : Graph) (T : Tables) (root : Nat) : Option Tables := do
  match ← T.stages[root]? with
  | .unvisited => do
    let T ← T.enter? root 0
    loop? g T
  | _ => some T

/-- The tables when the first `k` roots have been taken. -/
def ofRoots? (g : Graph) (k : Nat) : Option Tables :=
  (List.range k).foldlM (fromRoot? g) (start g)

end Tables

/-- The position that a mark gives a file. -/
def Mark.position? : Mark → Option Nat
  | .onWay position => some position
  | _ => none

namespace Search

/-- The targets that are pending are those from the next one on. -/
def levelOf (g : Graph) (f : Frame) : Level :=
  ⟨f.node, (g.targets f.node).length - f.pending.length⟩

/-- A state of the search in tables. -/
def tables (g : Graph) (s : Search) (rounds : Nat) (acts : List Act) : Tables where
  stages := s.marks.map Mark.stage
  positions := s.marks.map Mark.position?
  way := s.way.map (levelOf g)
  found := s.found.map fun walk => ⟨walk.map g.fileAt⟩
  rounds := rounds
  acts := acts

variable {g : Graph} {s : Search} {marks : Array Mark} {before : List Frame}
  {found : List (List Nat)} {pending : List Nat} {acts : List Act} {m : Mark}
  {node target position rounds i : Nat}

theorem write?_map {α : Type} (h : i < marks.size) (read : Mark → α) :
    write? (marks.map read) i (read m) = some ((marks.setIfInBounds i m).map read) := by
  rw [write?, if_pos (by simpa using h), Array.map_setIfInBounds]

theorem path_tables : (tables g s rounds acts).path = s.path := by
  simp only [Tables.path, tables, List.map_map]
  rfl

theorem enter?_tables (hi : i < s.marks.size) :
    (tables g s rounds acts).enter? i s.way.length =
      some (tables g (s.enter g i) rounds (.enter i :: acts)) := by
  have hstages := write?_map (m := .onWay s.way.length) hi Mark.stage
  have hpositions := write?_map (m := .onWay s.way.length) hi Mark.position?
  simp only [Mark.stage, Mark.position?] at hstages hpositions
  simp only [Tables.enter?, tables, hstages, hpositions, Option.bind_eq_bind, Option.bind_some]
  simp [Search.enter, levelOf]

theorem leave?_tables (hi : node < marks.size) :
    (tables g ⟨marks, ⟨node, pending⟩ :: before, found⟩ rounds acts).leave? node
        (before.map (levelOf g)) =
      some (tables g ⟨marks.setIfInBounds node .left, before, found⟩ rounds
        (.leave node :: acts)) := by
  have hstages := write?_map (m := .left) hi Mark.stage
  have hpositions := write?_map (m := .left) hi Mark.position?
  simp only [Mark.stage, Mark.position?] at hstages hpositions
  simp only [Tables.leave?, tables, hstages, hpositions, Option.bind_eq_bind, Option.bind_some]

theorem mapM_file? {walk : List Nat} (h : ∀ i ∈ walk, i < g.fileCount) :
    walk.mapM g.file? = some (walk.map g.fileAt) := by
  induction walk with
  | nil => rfl
  | cons i walk ih =>
    obtain ⟨hi, hwalk⟩ := List.forall_mem_cons.mp h
    simp [List.mapM_cons, file?_of_lt hi, ih hwalk]

theorem Valid.lt_of_mem_path (h : Valid g s) (hi : i ∈ s.path) : i < g.fileCount := by
  obtain ⟨k, hk⟩ := h.mem_path_iff.mp hi
  exact h.lt_of_mark hk

/-- A file in progress has a position, and the path goes on from there. -/
theorem Valid.report?_tables
    (hv : Valid g ⟨marks, ⟨node, pending⟩ :: before, found⟩)
    (ht : marks[target]? = some (.onWay position)) :
    (tables g ⟨marks, ⟨node, pending⟩ :: before, found⟩ rounds acts).report? g target =
      some (tables g ⟨marks, ⟨node, pending⟩ :: before,
        closed (⟨node, pending⟩ :: before) position target :: found⟩ rounds acts) := by
  have hposition : (marks.map Mark.position?)[target]? = some (some position) := by
    simp [ht, Mark.position?]
  obtain ⟨hle, -⟩ := List.getElem?_eq_some_iff.mp ((hv.onWay_iff target position).mp ht)
  have hclosed : closed (⟨node, pending⟩ :: before) position target =
      (path ⟨marks, ⟨node, pending⟩ :: before, found⟩).drop position ++ [target] :=
    closed_eq (⟨node, pending⟩ :: before)
  have hfiles : ∀ i ∈ closed (⟨node, pending⟩ :: before) position target, i < g.fileCount := by
    intro i hi
    rw [hclosed, List.mem_append, List.mem_singleton] at hi
    rcases hi with hi | rfl
    · exact hv.lt_of_mem_path (List.mem_of_mem_drop hi)
    · exact hv.lt_of_mark ht
  have hmapM := mapM_file? hfiles
  rw [hclosed] at hmapM
  have hguard : (guard (position ≤ (path ⟨marks, ⟨node, pending⟩ :: before, found⟩).length) :
      Option Unit) = some () := if_pos (Nat.le_of_lt hle)
  simp only [Tables.report?, path_tables]
  simp only [tables, hposition, Option.bind_eq_bind, Option.bind_some, Option.getD_some, hguard,
    hmapM, List.map_cons, hclosed]

/-- The place of the next target, when the targets from it on are pending. -/
theorem getElem?_of_suffix {l : List Nat} (h : target :: pending <:+ l) :
    l[l.length - (target :: pending).length]? = some target ∧
      l.length - (target :: pending).length + 1 = l.length - pending.length := by
  obtain ⟨front, rfl⟩ := h
  constructor
  · simp
  · simp only [List.length_append, List.length_cons]
    omega

theorem Valid.getElem?_targets (hv : Valid g ⟨marks, ⟨node, pending⟩ :: before, found⟩) :
    ((List.range g.fileCount).map g.targets)[node]? = some (g.targets node) := by
  have hlt : node < g.fileCount := hv.lt_of_mark hv.mark_last
  simp [hlt]

theorem Valid.round?_leave (hv : Valid g ⟨marks, ⟨node, []⟩ :: before, found⟩) :
    (tables g ⟨marks, ⟨node, []⟩ :: before, found⟩ rounds acts).round? g =
      some (tables g ⟨marks.setIfInBounds node .left, before, found⟩ (rounds + 1)
        (.leave node :: acts)) := by
  have hlt : node < marks.size := (Array.getElem?_eq_some_iff.mp hv.mark_last).1
  have hleave : (tables g ⟨marks, ⟨node, []⟩ :: before, found⟩ (rounds + 1) acts).leave? node
      (before.map (levelOf g)) = _ := leave?_tables hlt
  have hend : (g.targets node)[(g.targets node).length]? = none := by simp
  simp only [Tables.round?]
  simp only [tables, List.map_cons, levelOf, hv.getElem?_targets, Option.bind_eq_bind,
    Option.bind_some, List.length_nil, Nat.sub_zero, hend]
  exact hleave

/-- A target is looked at, and the rest depends on its mark. -/
theorem Valid.round?_look (hv : Valid g ⟨marks, ⟨node, target :: pending⟩ :: before, found⟩)
    (hm : marks[target]? = some m) :
    (tables g ⟨marks, ⟨node, target :: pending⟩ :: before, found⟩ rounds acts).round? g =
      match m.stage with
      | .unvisited => (tables g ⟨marks, ⟨node, pending⟩ :: before, found⟩ (rounds + 1)
          (.look node target :: acts)).enter? target (before.length + 1)
      | .inProgress => (tables g ⟨marks, ⟨node, pending⟩ :: before, found⟩ (rounds + 1)
          (.look node target :: acts)).report? g target
      | .done => some (tables g ⟨marks, ⟨node, pending⟩ :: before, found⟩ (rounds + 1)
          (.look node target :: acts)) := by
  obtain ⟨htarget, hnext⟩ := getElem?_of_suffix (hv.pending_suffix _ List.mem_cons_self)
  have hstage : (marks.map Mark.stage)[target]? = some m.stage := by simp [hm]
  simp only [Tables.round?]
  simp only [tables, List.map_cons, levelOf, hv.getElem?_targets, Option.bind_eq_bind,
    Option.bind_some, htarget, hnext, hstage]
  cases m with
  | fresh => simp [Mark.stage]
  | onWay k => rfl
  | left => rfl

end Search

end ImportCycles.Graph
