import ImportCycles.Proofs.FileSystem.Tree
/-!
Trees that differ in the order in which their directories list their entries. The same names and
paths lead to the same places in them.
-/
namespace ImportCycles

namespace Node

/-- The same tree, with the entries of every directory listed in any order. -/
inductive Reordered : Node → Node → Prop
  | file (content : List UInt8) : Reordered (.file content) (.file content)
  | link (target : Path) : Reordered (.link target) (.link target)
  | directory {entries entries' : List (Name × Node)}
      (names : (entries.map Prod.fst).Perm (entries'.map Prod.fst))
      (inner : ∀ n node node', (n, node) ∈ entries → (n, node') ∈ entries' →
        Reordered node node') :
      Reordered (.directory entries) (.directory entries')

variable {node node' inner : Node} {entries entries' : List (Name × Node)} {names : List Name}
  {n : Name}

theorem isSome_lookup_iff : (entries.lookup n).isSome = true ↔ n ∈ entries.map Prod.fst := by
  rw [Option.isSome_iff_exists, List.mem_map]
  constructor
  · rintro ⟨node, h⟩
    exact ⟨(n, node), mem_of_lookup h, rfl⟩
  · rintro ⟨entry, hmem, rfl⟩
    cases hlookup : entries.lookup entry.1 with
    | some found => exact ⟨found, rfl⟩
    | none =>
      have hne := List.lookup_eq_none_iff.mp hlookup entry hmem
      simp at hne

theorem Reordered.lookup (h : (Node.directory entries).Reordered (.directory entries')) (n : Name) :
    Option.Rel Reordered (entries.lookup n) (entries'.lookup n) := by
  obtain ⟨hnames, hinner⟩ : (entries.map Prod.fst).Perm (entries'.map Prod.fst) ∧
      ∀ n node node', (n, node) ∈ entries → (n, node') ∈ entries' → Reordered node node' := by
    cases h with
    | directory names inner => exact ⟨names, inner⟩
  have hsome : (entries.lookup n).isSome = true ↔ (entries'.lookup n).isSome = true := by
    rw [isSome_lookup_iff, isSome_lookup_iff, hnames.mem_iff]
  cases hlookup : entries.lookup n with
  | none =>
    cases hlookup' : entries'.lookup n with
    | none => exact .none
    | some node' => simp [hlookup, hlookup'] at hsome
  | some node =>
    cases hlookup' : entries'.lookup n with
    | none => simp [hlookup, hlookup'] at hsome
    | some node' => exact .some (hinner n _ _ (mem_of_lookup hlookup) (mem_of_lookup hlookup'))

theorem Reordered.child? (h : node.Reordered node') (n : Name) :
    Option.Rel Reordered (node.child? n) (node'.child? n) := by
  cases h with
  | file content => exact .none
  | link target => exact .none
  | directory names inner => exact (Reordered.directory names inner).lookup n

theorem Reordered.exists_at? (h : node.Reordered node') (hat : node.at? names = some inner) :
    ∃ inner', node'.at? names = some inner' ∧ inner.Reordered inner' := by
  induction names generalizing node node' with
  | nil =>
    obtain rfl := Option.some.inj hat
    exact ⟨node', rfl, h⟩
  | cons n names ih =>
    rw [at?_cons, Option.bind_eq_some_iff] at hat
    obtain ⟨next, hchild, hrest⟩ := hat
    have hrel := h.child? n
    rw [hchild] at hrel
    generalize hfound : node'.child? n = found at hrel
    cases hrel with
    | some hnext =>
      obtain ⟨inner', hat', hinner⟩ := ih hnext hrest
      exact ⟨inner', by rw [at?_cons, hfound]; exact hat', hinner⟩

theorem Reordered.symm (h : node.Reordered node') : node'.Reordered node := by
  induction h with
  | file content => exact .file content
  | link target => exact .link target
  | directory names inner ih =>
    exact .directory names.symm fun n _ _ hnode hnode' => ih n _ _ hnode' hnode

theorem WellFormed.reordered (hw : node.WellFormed) (h : node.Reordered node') :
    node'.WellFormed := by
  induction h with
  | file content => exact hw
  | link target => exact hw
  | @directory entries entries' names inner ih =>
    cases hw with
    | directory distinct named wellFormed =>
      have hentry : ∀ e ∈ entries', ∃ node, (e.1, node) ∈ entries := by
        intro e he
        obtain ⟨⟨n, node⟩, hmem, hn⟩ := List.mem_map.mp (names.mem_iff.mpr (List.mem_map_of_mem he))
        exact ⟨node, hn ▸ hmem⟩
      refine .directory (names.nodup_iff.mp distinct) (fun e he => ?_) (fun e he => ?_)
      · obtain ⟨node, hmem⟩ := hentry e he
        exact named (e.1, node) hmem
      · obtain ⟨node, hmem⟩ := hentry e he
        exact ih _ _ _ hmem he (wellFormed (e.1, node) hmem)

end Node

namespace FileSystem

/-- The file systems differ in the order of entries at most. -/
structure Reordered (fs fs' : FileSystem) : Prop where
  top : fs.top.Reordered fs'.top
  workingDirectory : fs'.workingDirectory = fs.workingDirectory

theorem Reordered.symm {fs fs' : FileSystem} (h : fs.Reordered fs') : fs'.Reordered fs :=
  ⟨h.top.symm, h.workingDirectory.symm⟩

/-- Two ways stop in the same place, with nodes that differ in the order of entries at most. -/
inductive Stop.Reordered : Stop → Stop → Prop
  | arrived (names : List Name) {node node' : Node} (h : node.Reordered node') :
      Reordered (.arrived names node) (.arrived names node')
  | link (trail : List Name) (target : Path) (rest : List Name) :
      Reordered (.link trail target rest) (.link trail target rest)

/-- The same names, with nodes that differ in the order of entries at most. -/
inductive SamePlace : List Name × Node → List Name × Node → Prop
  | intro (names : List Name) {node node' : Node} (h : node.Reordered node') :
      SamePlace (names, node) (names, node')

/-- Both fail with the same fault, or both succeed with related results. -/
inductive Agree {α : Type} (related : α → α → Prop) : Except Fault α → Except Fault α → Prop
  | error (fault : Fault) : Agree related (.error fault) (.error fault)
  | ok {a a' : α} (h : related a a') : Agree related (.ok a) (.ok a')

variable {fs fs' : FileSystem} {root root' : List (Name × Node)}

theorem reordered_entriesAt (h : (Node.directory root).Reordered (.directory root'))
    (names : List Name) :
    (Node.directory (entriesAt root names)).Reordered (.directory (entriesAt root' names)) := by
  induction names generalizing root root' with
  | nil => exact h
  | cons n names ih =>
    rw [entriesAt, entriesAt]
    have hnone : (Node.directory []).Reordered (.directory []) := .directory (.refl _) (by simp)
    have hlookup := h.lookup n
    generalize root.lookup n = found, root'.lookup n = found' at hlookup ⊢
    cases hlookup with
    | none => exact hnone
    | some hnode =>
      cases hnode with
      | file content => exact hnone
      | link target => exact hnone
      | directory names inner => exact ih (.directory names inner)

theorem descend_reordered (h : (Node.directory root).Reordered (.directory root'))
    (trail pieces : List Name) :
    Agree Stop.Reordered (descend root trail pieces) (descend root' trail pieces) := by
  induction pieces generalizing trail with
  | nil => exact .ok (.arrived _ (reordered_entriesAt h _))
  | cons piece rest ih =>
    simp only [descend]
    split
    · exact ih _
    split
    · exact ih _
    split
    · exact .error _
    have hlookup := (reordered_entriesAt h trail.reverse).lookup piece
    generalize (entriesAt root trail.reverse).lookup piece = found,
      (entriesAt root' trail.reverse).lookup piece = found' at hlookup ⊢
    cases hlookup with
    | none => exact .error _
    | some hnode =>
      cases hnode with
      | file content =>
        dsimp only
        split
        · exact .ok (.arrived _ (.file content))
        · exact .error _
      | link target => exact .ok (.link _ _ _)
      | directory names inner => exact ih _

theorem follow_reordered (h : (Node.directory root).Reordered (.directory root')) :
    ∀ (links : Nat) (trail pieces : List Name),
      Agree SamePlace (follow root links trail pieces) (follow root' links trail pieces)
  | links, trail, pieces => by
    have hstop := descend_reordered h trail pieces
    unfold follow
    generalize descend root trail pieces = stop, descend root' trail pieces = stop' at hstop ⊢
    cases hstop with
    | error fault => exact .error fault
    | ok halike =>
      cases halike with
      | arrived names hnode => exact .ok (.intro names hnode)
      | link trail target rest =>
        cases links with
        | zero => exact .error _
        | succ links =>
          dsimp only
          split
          · exact .error _
          · exact follow_reordered h links _ _

theorem Reordered.locate (h : fs.Reordered fs') (p : Path) :
    Agree SamePlace (fs.locate p) (fs'.locate p) := by
  unfold FileSystem.locate
  rw [h.workingDirectory]
  split
  · exact .error _
  split
  · exact .error _
  split
  · exact .error _
  · exact follow_reordered h.top _ _ _

theorem Reordered.isFile_eq (h : fs.Reordered fs') (p : Path) : fs'.isFile p = fs.isFile p := by
  have hfound := h.locate p
  unfold isFile
  generalize fs.locate p = found, fs'.locate p = found' at hfound ⊢
  cases hfound with
  | error fault => rfl
  | ok hplace => cases hplace with
    | intro names hnode => cases hnode <;> rfl

theorem Reordered.isDirectory_eq (h : fs.Reordered fs') (p : Path) :
    fs'.isDirectory p = fs.isDirectory p := by
  have hfound := h.locate p
  unfold isDirectory
  generalize fs.locate p = found, fs'.locate p = found' at hfound ⊢
  cases hfound with
  | error fault => rfl
  | ok hplace => cases hplace with
    | intro names hnode => cases hnode <;> rfl

theorem Reordered.exists?_eq (h : fs.Reordered fs') (p : Path) : fs'.exists? p = fs.exists? p := by
  have hfound := h.locate p
  unfold exists?
  generalize fs.locate p = found, fs'.locate p = found' at hfound ⊢
  cases hfound <;> rfl

theorem Reordered.canonical?_eq (h : fs.Reordered fs') (p : Path) :
    fs'.canonical? p = fs.canonical? p := by
  have hfound := h.locate p
  unfold canonical?
  generalize fs.locate p = found, fs'.locate p = found' at hfound ⊢
  cases hfound with
  | error fault => rfl
  | ok hplace => cases hplace; rfl

theorem WellFormed.reordered (hfs : fs.WellFormed) (h : fs.Reordered fs') : fs'.WellFormed where
  tree := hfs.tree.reordered h.top
  workingDirectory := by
    obtain ⟨entries, hentries⟩ := hfs.workingDirectory
    obtain ⟨_, hat, hnode⟩ := h.top.exists_at? hentries
    rw [h.workingDirectory]
    cases hnode with
    | directory names inner => exact ⟨_, hat⟩

end FileSystem

end ImportCycles
