import ImportCycles.Proofs.Path.Plain
/-!
The tree of a file system: what names lead to in it when there is no link on the way, and that
whatever a path leads to stands in the tree at the names that `locate` gives.
-/
namespace ImportCycles

open FileSystem (pathOf)

namespace Node

/-- The entry of this name, if the node is a directory that has one. -/
def child? (n : Name) : Node → Option Node
  | .directory entries => entries.lookup n
  | _ => none

/-- What the names lead to from a node when no link is followed. -/
def at? (node : Node) : List Name → Option Node
  | [] => some node
  | n :: names => (node.child? n).bind (·.at? names)

/-- The entries of every directory have names of their own, which entries can have. -/
inductive WellFormed : Node → Prop
  | file (content : List UInt8) : WellFormed (.file content)
  | link (target : Path) : WellFormed (.link target)
  | directory {entries : List (Name × Node)} (distinct : (entries.map Prod.fst).Nodup)
      (named : ∀ e ∈ entries, IsEntryName e.1) (inner : ∀ e ∈ entries, WellFormed e.2) :
      WellFormed (.directory entries)

mutual

/-- Whether a node is well formed. -/
def isWellFormed : Node → Bool
  | .file _ => true
  | .link _ => true
  | .directory entries => decide (entries.map Prod.fst).Nodup && areWellFormed entries
termination_by structural node => node

def areWellFormed : List (Name × Node) → Bool
  | [] => true
  | (n, node) :: entries => decide (IsEntryName n) && node.isWellFormed && areWellFormed entries
termination_by structural entries => entries

end

variable {node inner : Node} {names before after : List Name} {n : Name}
  {entries : List (Name × Node)}

theorem areWellFormed_iff : areWellFormed entries = true ↔
    ∀ e ∈ entries, IsEntryName e.1 ∧ e.2.isWellFormed = true := by
  induction entries with
  | nil => simp [areWellFormed]
  | cons e entries ih =>
    rw [areWellFormed, List.forall_mem_cons, ← ih]
    simp

mutual

theorem wellFormed_of_isWellFormed : ∀ node : Node, node.isWellFormed = true → node.WellFormed
  | .file content, _ => .file content
  | .link target, _ => .link target
  | .directory entries, h => by
    rw [isWellFormed, Bool.and_eq_true, decide_eq_true_eq] at h
    exact .directory h.1 (fun e he => (areWellFormed_iff.mp h.2 e he).1)
      (wellFormed_of_areWellFormed entries h.2)

theorem wellFormed_of_areWellFormed : ∀ entries, areWellFormed entries = true →
    ∀ e ∈ entries, e.2.WellFormed
  | [], _ => by simp
  | (n, node) :: entries, h => by
    rw [areWellFormed, Bool.and_eq_true, Bool.and_eq_true] at h
    exact List.forall_mem_cons.mpr
      ⟨wellFormed_of_isWellFormed node h.1.2, wellFormed_of_areWellFormed entries h.2⟩

end

theorem isWellFormed_of_wellFormed (h : node.WellFormed) : node.isWellFormed = true := by
  induction h with
  | file content => rfl
  | link target => rfl
  | directory distinct named inner ih =>
    rw [isWellFormed, Bool.and_eq_true, decide_eq_true_eq, areWellFormed_iff]
    exact ⟨distinct, fun e he => ⟨named e he, ih e he⟩⟩

instance (node : Node) : Decidable node.WellFormed :=
  decidable_of_iff (node.isWellFormed = true)
    ⟨wellFormed_of_isWellFormed node, isWellFormed_of_wellFormed⟩

@[simp] theorem at?_nil : node.at? [] = some node := rfl

@[simp] theorem at?_cons : node.at? (n :: names) = (node.child? n).bind (·.at? names) := rfl

theorem at?_append : node.at? (before ++ after) = (node.at? before).bind (·.at? after) := by
  induction before generalizing node with
  | nil => rfl
  | cons n before ih =>
    rw [List.cons_append, at?_cons, at?_cons, Option.bind_assoc]
    exact congrArg _ (funext fun _ => ih)

theorem exists_of_child? (h : node.child? n = some inner) :
    ∃ entries, node = .directory entries ∧ entries.lookup n = some inner := by
  cases node with
  | file content => simp [child?] at h
  | link target => simp [child?] at h
  | directory entries => exact ⟨entries, rfl, h⟩

/-- Only a directory leads on to a directory. -/
theorem exists_of_at?_directory (h : node.at? names = some (.directory entries)) :
    ∃ outer, node = .directory outer := by
  cases names with
  | nil => exact ⟨entries, Option.some.inj h⟩
  | cons n names =>
    rw [at?_cons, Option.bind_eq_some_iff] at h
    obtain ⟨next, hchild, -⟩ := h
    obtain ⟨outer, rfl, -⟩ := exists_of_child? hchild
    exact ⟨outer, rfl⟩

theorem at?_concat_eq_some : node.at? (names ++ [n]) = some inner ↔
    ∃ entries, node.at? names = some (.directory entries) ∧ entries.lookup n = some inner := by
  rw [at?_append, Option.bind_eq_some_iff]
  simp only [at?_cons, at?_nil, Option.bind_fun_some]
  constructor
  · rintro ⟨next, hnext, hchild⟩
    obtain ⟨entries, rfl, hlookup⟩ := exists_of_child? hchild
    exact ⟨entries, hnext, hlookup⟩
  · rintro ⟨entries, hnext, hlookup⟩
    exact ⟨_, hnext, hlookup⟩

theorem mem_of_lookup (h : entries.lookup n = some node) : (n, node) ∈ entries := by
  obtain ⟨front, rest, rfl, -⟩ := List.lookup_eq_some_iff.mp h
  simp

/-- Where names are distinct, an entry is what its name leads to. -/
theorem lookup_of_mem (hd : (entries.map Prod.fst).Nodup) (h : (n, node) ∈ entries) :
    entries.lookup n = some node := by
  induction entries with
  | nil => simp at h
  | cons e entries ih =>
    rw [List.map_cons, List.nodup_cons] at hd
    rcases List.mem_cons.mp h with rfl | h
    · simp
    · have hne : (n == e.1) = false := by
        rw [beq_eq_false_iff_ne]
        rintro rfl
        exact hd.1 (List.mem_map.mpr ⟨_, h, rfl⟩)
      rw [List.lookup_cons, hne]
      exact ih hd.2 h

theorem WellFormed.child? (hw : node.WellFormed) (h : node.child? n = some inner) :
    IsEntryName n ∧ inner.WellFormed := by
  cases hw with
  | file content => simp [Node.child?] at h
  | link target => simp [Node.child?] at h
  | directory _ named wellFormed =>
    have hmem := mem_of_lookup h
    exact ⟨named _ hmem, wellFormed _ hmem⟩

theorem WellFormed.at? (hw : node.WellFormed) (h : node.at? names = some inner) :
    AreEntryNames names ∧ inner.WellFormed := by
  induction names generalizing node with
  | nil =>
    obtain rfl := Option.some.inj h
    exact ⟨areEntryNames_nil, hw⟩
  | cons n names ih =>
    rw [at?_cons, Option.bind_eq_some_iff] at h
    obtain ⟨next, hchild, hrest⟩ := h
    obtain ⟨hn, hnext⟩ := hw.child? hchild
    obtain ⟨hnames, hinner⟩ := ih hnext hrest
    exact ⟨areEntryNames_cons.mpr ⟨hn, hnames⟩, hinner⟩

end Node

namespace FileSystem

/-- The root directory. -/
def top (fs : FileSystem) : Node := .directory fs.root

/-- The tree is well formed, and the working directory is one of its directories. -/
structure WellFormed (fs : FileSystem) : Prop where
  tree : fs.top.WellFormed
  workingDirectory : ∃ entries, fs.top.at? fs.workingDirectory = some (.directory entries)

/-- Where a way stopped, the names lead without any link. -/
def Stop.IsReached (root : List (Name × Node)) : Stop → Prop
  | .arrived names node => (Node.directory root).at? names = some node
  | .link trail _ _ => ∃ entries, (Node.directory root).at? trail.reverse = some (.directory entries)

variable {fs : FileSystem} {root entries : List (Name × Node)} {names trail pieces rest more : List Name}
  {n : Name} {node : Node} {stop : Stop} {links : Nat} {p q : Path} {found : List Name × Node}

theorem entriesAt_of_at? (h : (Node.directory root).at? names = some (.directory entries)) :
    entriesAt root names = entries := by
  induction names generalizing root with
  | nil => simpa [entriesAt] using h
  | cons n names ih =>
    rw [Node.at?_cons, Option.bind_eq_some_iff] at h
    obtain ⟨next, hchild, hrest⟩ := h
    obtain ⟨inner, rfl⟩ := Node.exists_of_at?_directory hrest
    have hlookup : root.lookup n = some (.directory inner) := hchild
    rw [entriesAt, hlookup]
    exact ih hrest

theorem isReached_of_descend (h : descend root trail pieces = .ok stop)
    (ht : ∃ entries, (Node.directory root).at? trail.reverse = some (.directory entries)) :
    stop.IsReached root := by
  induction pieces generalizing trail with
  | nil =>
    obtain ⟨entries, hentries⟩ := ht
    obtain rfl := Except.ok.inj h
    rw [Stop.IsReached, hentries, entriesAt_of_at? hentries]
  | cons piece pieces ih =>
    obtain ⟨entries, hentries⟩ := ht
    have hlookup : ∀ node, entries.lookup piece = some node →
        (Node.directory root).at? (piece :: trail).reverse = some node := by
      intro node hnode
      rw [List.reverse_cons, Node.at?_concat_eq_some]
      exact ⟨entries, hentries, hnode⟩
    simp only [descend, entriesAt_of_at? hentries] at h
    split at h
    · exact ih h ⟨entries, hentries⟩
    split at h
    · -- Above the top is the top again.
      refine ih h ?_
      cases trail with
      | nil => exact ⟨entries, hentries⟩
      | cons last trail =>
        rw [List.reverse_cons, Node.at?_concat_eq_some] at hentries
        obtain ⟨outer, houter, -⟩ := hentries
        exact ⟨outer, houter⟩
    split at h
    · simp at h
    split at h
    · simp at h
    · next inner hinner => exact ih h ⟨inner, hlookup _ hinner⟩
    · obtain rfl := Except.ok.inj h
      exact ⟨entries, hentries⟩
    · next content hcontent =>
      split at h
      · obtain rfl := Except.ok.inj h
        exact hlookup _ hcontent
      · simp at h

theorem at?_of_follow (h : follow root links trail pieces = .ok (names, node))
    (ht : ∃ entries, (Node.directory root).at? trail.reverse = some (.directory entries)) :
    (Node.directory root).at? names = some node := by
  induction links generalizing trail pieces with
  | zero =>
    unfold follow at h
    split at h
    · simp at h
    · next hstop =>
      obtain ⟨rfl, rfl⟩ := Prod.mk.inj (Except.ok.inj h)
      exact isReached_of_descend hstop ht
    · simp at h
  | succ links ih =>
    unfold follow at h
    split at h
    · simp at h
    · next hstop =>
      obtain ⟨rfl, rfl⟩ := Prod.mk.inj (Except.ok.inj h)
      exact isReached_of_descend hstop ht
    · next hstop =>
      dsimp only at h
      split at h
      · simp at h
      · refine ih h ?_
        split
        · exact ⟨root, rfl⟩
        · exact isReached_of_descend hstop ht

/-- A path that is none of those refused at once leads where the way through its pieces leads. -/
theorem locate_eq_ok_iff : fs.locate p = .ok found ↔
    0 ∉ p.bytes ∧ p.bytes ≠ [] ∧ p.bytes.length ≤ longestPath ∧
      follow fs.root mostLinks (if p.isAbsolute then [] else fs.workingDirectory.reverse)
        (Path.split p.bytes) = .ok found := by
  unfold locate
  simp only [List.contains_iff_mem]
  by_cases hnul : (0 : UInt8) ∈ p.bytes
  · simp [hnul]
  by_cases hne : p.bytes = []
  · simp [hne]
  by_cases hlong : longestPath < p.bytes.length
  · simp [hnul, hne, hlong, Nat.not_le.mpr hlong]
  · simp [hnul, hne, hlong, Nat.le_of_not_lt hlong]

/-- What a path leads to stands in the tree at the names that come with it. -/
theorem WellFormed.at?_of_locate (hfs : fs.WellFormed) (h : fs.locate p = .ok (names, node)) :
    fs.top.at? names = some node := by
  obtain ⟨-, -, -, hfollow⟩ := locate_eq_ok_iff.mp h
  refine at?_of_follow hfollow ?_
  split
  · exact ⟨fs.root, rfl⟩
  · rw [List.reverse_reverse]
    exact hfs.workingDirectory

theorem isFile_iff : fs.isFile p = true ↔ ∃ names content, fs.locate p = .ok (names, .file content) := by
  unfold isFile
  split
  · next names content h => simp [h]
  · next hnot =>
    simp only [Bool.false_eq_true, false_iff]
    rintro ⟨names, content, h⟩
    exact hnot names content h

theorem isDirectory_iff :
    fs.isDirectory p = true ↔ ∃ names entries, fs.locate p = .ok (names, .directory entries) := by
  unfold isDirectory
  split
  · next names entries h => simp [h]
  · next hnot =>
    simp only [Bool.false_eq_true, false_iff]
    rintro ⟨names, entries, h⟩
    exact hnot names entries h

theorem canonical?_eq_some :
    fs.canonical? p = some q ↔ ∃ names node, fs.locate p = .ok (names, node) ∧ pathOf names = q := by
  unfold canonical?
  split
  · next names node h => simp [h]
  · next fault h => simp [h]

/-- Paths with the same path free of links lead to the same node. -/
theorem WellFormed.locate_eq (hfs : fs.WellFormed) {real : Path} (hp : fs.canonical? p = some real)
    (hq : fs.canonical? q = some real) : fs.locate p = fs.locate q := by
  obtain ⟨names, node, hlp, hnames⟩ := canonical?_eq_some.mp hp
  obtain ⟨names', node', hlq, hnames'⟩ := canonical?_eq_some.mp hq
  have hat := hfs.at?_of_locate hlp
  have hat' := hfs.at?_of_locate hlq
  obtain rfl : names = names' :=
    Path.pathOf_inj (hfs.tree.at? hat).1 (hfs.tree.at? hat').1 (by rw [hnames, hnames'])
  obtain rfl : node = node' := Option.some.inj (hat.symm.trans hat')
  rw [hlp, hlq]

/-- The way through real directories follows no link; it can only stop at too long a name. -/
theorem descend_directories (hn : AreEntryNames names)
    (h : (Node.directory root).at? (trail.reverse ++ names) = some (.directory entries)) :
    descend root trail (names ++ rest) =
      if ∀ n ∈ names, n.length ≤ longestName then descend root (names.reverse ++ trail) rest
      else .error .nameTooLong := by
  induction names generalizing trail with
  | nil => simp
  | cons n names ih =>
    obtain ⟨hname, hnames⟩ := areEntryNames_cons.mp hn
    have hsplit : trail.reverse ++ n :: names = (n :: trail).reverse ++ names := by simp
    rw [hsplit] at h
    have hhead := h
    rw [Node.at?_append, Option.bind_eq_some_iff] at hhead
    obtain ⟨next, hnext, hrest⟩ := hhead
    obtain ⟨inner, rfl⟩ := Node.exists_of_at?_directory hrest
    rw [List.reverse_cons, Node.at?_concat_eq_some] at hnext
    obtain ⟨outer, houter, hlookup⟩ := hnext
    simp only [List.cons_append, descend, entriesAt_of_at? houter, hlookup, hname.ne_nil,
      hname.ne_here, hname.ne_up, or_self, if_false, List.forall_mem_cons]
    split
    · next hlong => rw [if_neg fun hall => absurd hall.1 (Nat.not_le.mpr hlong)]
    · next hshort =>
      rw [ih hnames h, List.reverse_cons, List.append_assoc, List.singleton_append]
      simp only [Nat.le_of_not_lt hshort, true_and]

theorem follow_congr {trail' pieces' : List Name}
    (h : descend root trail pieces = descend root trail' pieces') :
    follow root links trail pieces = follow root links trail' pieces' := by
  unfold follow
  rw [h]

/-- An empty piece leads nowhere else. -/
theorem follow_nil_cons : follow root links trail ([] :: pieces) = follow root links trail pieces :=
  follow_congr (by rw [descend, if_pos (.inl rfl)])

theorem follow_split_pathOf (hn : AreEntryNames names) :
    follow root links [] (Path.split (pathOf names).bytes) = follow root links [] names := by
  rw [Path.split_pathOf hn, follow_nil_cons]
  split
  · next hnil => rw [hnil, follow_nil_cons]
  · rfl

theorem follow_of_locate (hn : AreEntryNames names) (h : fs.locate (pathOf names) = .ok found) :
    follow fs.root mostLinks [] names = .ok found := by
  obtain ⟨-, -, -, hfollow⟩ := locate_eq_ok_iff.mp h
  rwa [if_pos Path.isAbsolute_pathOf, follow_split_pathOf hn] at hfollow

theorem descend_directory (hn : AreEntryNames names)
    (hat : (Node.directory root).at? names = some (.directory entries)) (rest : List Name) :
    descend root [] (names ++ rest) =
      if ∀ n ∈ names, n.length ≤ longestName then descend root names.reverse rest
      else .error .nameTooLong := by
  have hat' : (Node.directory root).at? (List.reverse [] ++ names) = some (.directory entries) := hat
  simpa using descend_directories hn hat'

/-- A plain path through directories alone leads to the directory that its names lead to. -/
theorem locate_directory (hn : AreEntryNames names)
    (hat : fs.top.at? names = some (.directory entries))
    (h : fs.locate (pathOf names) = .ok found) : found = (names, .directory entries) := by
  have hfollow := follow_of_locate hn h
  have hway := descend_directory hn hat []
  rw [List.append_nil] at hway
  unfold follow at hfollow
  split at hway
  · simp only [hway, descend, List.reverse_reverse] at hfollow
    rw [← Except.ok.inj hfollow, entriesAt_of_at? hat]
  · simp [hway] at hfollow

/-- The path is not refused for what it is itself: neither it nor a name on it is too long. -/
structure IsInBounds (p : Path) : Prop where
  noNul : 0 ∉ p.bytes
  short : p.bytes.length ≤ longestPath
  names : ∀ n ∈ p.names, n.length ≤ longestName

/-- Where a plain path leads to anything, the real directories on its way can be opened. -/
theorem isInBounds_of_locate (hn : AreEntryNames (names ++ more))
    (hat : fs.top.at? names = some (.directory entries))
    (h : fs.locate (pathOf (names ++ more)) = .ok found) : IsInBounds (pathOf names) := by
  obtain ⟨hnames, -⟩ := areEntryNames_append.mp hn
  have hfront : (pathOf names).bytes <+: (pathOf (names ++ more)).bytes :=
    Path.bytes_pathOf_prefix
  obtain ⟨hnul, -, hshort, -⟩ := locate_eq_ok_iff.mp h
  refine ⟨fun hmem => hnul (hfront.subset hmem), Nat.le_trans hfront.length_le hshort, ?_⟩
  have hfollow := follow_of_locate hn h
  rw [follow, descend_directory hnames hat] at hfollow
  rw [Path.names_pathOf hnames]
  by_contra hnot
  simp [if_neg hnot] at hfollow

/-- The path of a real directory is opened unless it is refused. -/
theorem isDirectory_pathOf (hn : AreEntryNames names)
    (hat : fs.top.at? names = some (.directory entries)) :
    fs.isDirectory (pathOf names) = true ↔ IsInBounds (pathOf names) := by
  rw [isDirectory_iff]
  constructor
  · rintro ⟨found, inner, h⟩
    rw [← List.append_nil names] at hn h
    exact isInBounds_of_locate hn hat h
  · rintro ⟨hnul, hshort, hnames⟩
    rw [Path.names_pathOf hn] at hnames
    have hway := descend_directory hn hat []
    rw [List.append_nil, if_pos hnames, descend, List.reverse_reverse, entriesAt_of_at? hat] at hway
    refine ⟨names, entries,
      locate_eq_ok_iff.mpr ⟨hnul, by simp [Path.bytes_pathOf], hshort, ?_⟩⟩
    rw [if_pos Path.isAbsolute_pathOf, follow_split_pathOf hn, follow, hway]

/-- A plain path leads to the entry that it names in a real directory, unless that is a link. -/
theorem locate_entry (hn : AreEntryNames (names ++ [n]))
    (hat : fs.top.at? names = some (.directory entries))
    (h : fs.locate (pathOf (names ++ [n])) = .ok found) :
    ∃ node, entries.lookup n = some node ∧
      ((∀ target, node ≠ .link target) → found = (names ++ [n], node)) := by
  have hfollow := follow_of_locate hn h
  obtain ⟨hnames, hname⟩ := areEntryNames_concat.mp hn
  have hway := descend_directory hnames hat [n]
  have hentries : entriesAt fs.root names.reverse.reverse = entries := by
    rw [List.reverse_reverse]
    exact entriesAt_of_at? hat
  simp only [descend, hentries, hname.ne_nil, hname.ne_here, hname.ne_up, or_self, if_false] at hway
  unfold follow at hfollow
  split at hway
  · cases hlookup : entries.lookup n with
    | none =>
      simp only [hlookup] at hway
      split at hway <;> simp [hway] at hfollow
    | some node =>
      refine ⟨node, rfl, fun hlink => ?_⟩
      cases node with
      | link target => exact absurd rfl (hlink target)
      | file content =>
        simp only [hlookup] at hway
        split at hway <;> simp [hway] at hfollow
        simp [← hfollow]
      | directory inner =>
        have hinner : (Node.directory fs.root).at? (names ++ [n]) = some (.directory inner) :=
          Node.at?_concat_eq_some.mpr ⟨entries, hat, hlookup⟩
        simp only [hlookup] at hway
        split at hway <;> simp [hway, entriesAt_of_at? hinner] at hfollow
        simp [← hfollow]
  · simp [hway] at hfollow

/-- Where a plain path leads to a file, its directory has a file or a link of its last name. -/
theorem exists_entry_of_isFile (hn : AreEntryNames (names ++ [n]))
    (hat : fs.top.at? names = some (.directory entries))
    (h : fs.isFile (pathOf (names ++ [n])) = true) :
    (∃ content, entries.lookup n = some (.file content)) ∨
      ∃ target, entries.lookup n = some (.link target) := by
  obtain ⟨_, content, hlocate⟩ := isFile_iff.mp h
  obtain ⟨node, hlookup, hfound⟩ := locate_entry hn hat hlocate
  cases node with
  | file content => exact Or.inl ⟨content, hlookup⟩
  | link target => exact Or.inr ⟨target, hlookup⟩
  | directory inner => simpa using hfound (by simp)

end FileSystem

end ImportCycles
