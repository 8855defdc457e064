import ImportCycles.FileSystem.Edit
import ImportCycles.Proofs.FileSystem.Tree
/-!
The form of a tree: its directories, links and files without what the files hold. Where a path
leads depends on the form alone, and of two file systems that differ in the content of one file,
all paths that do not lead there read the same.
-/
namespace ImportCycles

namespace Node

mutual

/-- The node with nothing in its files. -/
def form : Node → Node
  | .file _ => .file []
  | .link target => .link target
  | .directory entries => .directory (forms entries)
termination_by structural node => node

def forms : List (Name × Node) → List (Name × Node)
  | [] => []
  | (n, node) :: entries => (n, node.form) :: forms entries
termination_by structural entries => entries

end

variable {node old new : Node} {entries inner : List (Name × Node)} {n name : Name}
  {names other : List Name} {content before kept : List UInt8}

theorem lookup_forms : (forms entries).lookup n = (entries.lookup n).map form := by
  induction entries with
  | nil => rfl
  | cons e entries ih =>
    obtain ⟨name, node⟩ := e
    rw [forms, List.lookup_cons, List.lookup_cons, ih]
    split <;> rfl

theorem child?_form : node.form.child? n = (node.child? n).map form := by
  cases node with
  | file content => rfl
  | link target => rfl
  | directory entries => exact lookup_forms

theorem at?_form : node.form.at? names = (node.at? names).map form := by
  induction names generalizing node with
  | nil => rfl
  | cons n names ih =>
    rw [at?_cons, at?_cons, child?_form]
    cases node.child? n with
    | none => rfl
    | some inner => exact ih

/-- In a file there is nothing else. -/
theorem eq_of_at?_file (h : (Node.file content).at? names = some node) :
    names = [] ∧ node = .file content := by
  cases names with
  | nil => exact ⟨rfl, (Option.some.inj h).symm⟩
  | cons n names => simp [child?] at h

theorem exists_directory_of_form (h : node.form = .directory inner) :
    ∃ entries, node = .directory entries ∧ forms entries = inner := by
  cases node with
  | file content => simp [form] at h
  | link target => simp [form] at h
  | directory entries => exact ⟨entries, rfl, Node.directory.inj h⟩

theorem map_fst_forms : (forms entries).map Prod.fst = entries.map Prod.fst := by
  induction entries with
  | nil => rfl
  | cons e entries ih =>
    rw [forms, List.map_cons, List.map_cons, ih]

mutual

theorem isWellFormed_form : ∀ node : Node, node.form.isWellFormed = node.isWellFormed
  | .file _ => rfl
  | .link _ => rfl
  | .directory entries => by
    rw [form, isWellFormed, isWellFormed, map_fst_forms, areWellFormed_forms entries]

theorem areWellFormed_forms : ∀ entries, areWellFormed (forms entries) = areWellFormed entries
  | [] => rfl
  | (n, node) :: entries => by
    rw [forms, areWellFormed, areWellFormed, isWellFormed_form node, areWellFormed_forms entries]

end

/-- Whether a node is well formed can be seen from its form. -/
theorem wellFormed_form_iff : node.form.WellFormed ↔ node.WellFormed := by
  constructor
  · intro h
    apply wellFormed_of_isWellFormed
    rw [← isWellFormed_form]
    exact isWellFormed_of_wellFormed h
  · intro h
    apply wellFormed_of_isWellFormed
    rw [isWellFormed_form]
    exact isWellFormed_of_wellFormed h

theorem lookup_put : (put name new entries).lookup n =
    if n = name then some new else entries.lookup n := by
  induction entries with
  | nil =>
    by_cases hn : n = name
    · simp [put, hn]
    · simp [put, List.lookup_cons, hn, beq_eq_false_iff_ne.mpr hn]
  | cons e entries ih =>
    obtain ⟨first, old⟩ := e
    rw [put]
    by_cases hfirst : first = name
    · subst hfirst
      by_cases hn : n = first
      · simp [hn]
      · simp [List.lookup_cons, hn, beq_eq_false_iff_ne.mpr hn]
    · rw [if_neg hfirst, List.lookup_cons, List.lookup_cons, ih]
      by_cases hn : n = first
      · simp [hn, hfirst]
      · rw [beq_eq_false_iff_ne.mpr hn]

/-- A node in the place of another one of the same form does not show in the form. -/
theorem forms_put (hold : entries.lookup name = some old) (hform : new.form = old.form) :
    forms (put name new entries) = forms entries := by
  induction entries with
  | nil => simp at hold
  | cons e entries ih =>
    obtain ⟨first, node⟩ := e
    rw [put]
    by_cases hfirst : first = name
    · subst hfirst
      obtain rfl : node = old := by simpa using hold
      rw [if_pos rfl, forms, forms, hform]
    · have hne : (name == first) = false := beq_eq_false_iff_ne.mpr (Ne.symm hfirst)
      rw [List.lookup_cons, hne] at hold
      rw [if_neg hfirst, forms, forms, ih hold]

theorem at?_put : (Node.directory (put n new entries)).at? (name :: names) =
    if name = n then new.at? names else (Node.directory entries).at? (name :: names) := by
  rw [at?_cons, at?_cons, child?, child?, lookup_put]
  split <;> rfl

/-- A node put in the place of a file goes into the directory that holds the file. -/
theorem putAt_file_cases (hold : (Node.directory entries).at? (n :: names) = some (.file content)) :
    names = [] ∧ entries.lookup n = some (.file content) ∧
        (∀ new, putAt new (n :: names) entries = put n new entries) ∨
      ∃ inner, entries.lookup n = some (.directory inner) ∧
        (Node.directory inner).at? names = some (.file content) ∧
        ∀ new, putAt new (n :: names) entries =
          put n (.directory (putAt new names inner)) entries := by
  rw [at?_cons, Option.bind_eq_some_iff] at hold
  obtain ⟨next, hnext, hrest⟩ := hold
  have hlookup : entries.lookup n = some next := hnext
  cases names with
  | nil =>
    obtain rfl := Option.some.inj hrest
    exact .inl ⟨rfl, hlookup, fun _ => rfl⟩
  | cons second names =>
    obtain ⟨after, hafter, -⟩ := Option.bind_eq_some_iff.mp hrest
    obtain ⟨inner, rfl, -⟩ := exists_of_child? hafter
    refine .inr ⟨inner, hlookup, hrest, fun new => ?_⟩
    simp only [putAt, hlookup]

/-- Other content in a file does not show in the form. -/
theorem forms_putAt_file (hold : (Node.directory entries).at? names = some (.file before)) :
    forms (putAt (.file content) names entries) = forms entries := by
  induction names generalizing entries with
  | nil => simp at hold
  | cons n names ih =>
    rcases putAt_file_cases hold with ⟨-, hlookup, hput⟩ | ⟨inner, hlookup, hinner, hput⟩
    · rw [hput]
      exact forms_put hlookup rfl
    · rw [hput]
      exact forms_put hlookup (by rw [form, form, ih hinner])

/-- Other content in a file leaves all other files as they are. -/
theorem at?_putAt_file (hold : (Node.directory entries).at? names = some (.file before))
    (hne : other ≠ names) (hkept : (Node.directory entries).at? other = some (.file kept)) :
    (Node.directory (putAt (.file content) names entries)).at? other = some (.file kept) := by
  induction names generalizing entries other with
  | nil => simp at hold
  | cons n names ih =>
    cases other with
    | nil => simp at hkept
    | cons m other =>
      by_cases hm : m = n
      · subst hm
        rw [at?_cons, Option.bind_eq_some_iff] at hkept
        obtain ⟨next, hnext, hrest⟩ := hkept
        rcases putAt_file_cases hold with ⟨rfl, hlookup, hput⟩ | ⟨inner, hlookup, hinner, hput⟩
        · obtain rfl := Option.some.inj (hlookup.symm.trans hnext)
          obtain ⟨rfl, -⟩ := eq_of_at?_file hrest
          exact absurd rfl hne
        · obtain rfl := Option.some.inj (hlookup.symm.trans hnext)
          rw [hput, at?_put, if_pos rfl]
          exact ih hinner (fun h => hne (by rw [h])) hrest
      · rcases putAt_file_cases hold with ⟨-, -, hput⟩ | ⟨inner, -, -, hput⟩ <;>
          rw [hput, at?_put, if_neg hm, hkept]

end Node

namespace FileSystem

variable {fs fs' : FileSystem} {root entries : List (Name × Node)} {names trail pieces : List Name}
  {links : Nat} {node : Node} {p : Path} {content : List UInt8}

/-- The file system with nothing in its files. -/
def form (fs : FileSystem) : FileSystem := { fs with root := Node.forms fs.root }

theorem top_form : fs.form.top = fs.top.form := rfl

theorem workingDirectory_form : fs.form.workingDirectory = fs.workingDirectory := rfl

theorem entriesAt_forms :
    entriesAt (Node.forms root) names = Node.forms (entriesAt root names) := by
  induction names generalizing root with
  | nil => rfl
  | cons n names ih =>
    rw [entriesAt, entriesAt, Node.lookup_forms]
    cases root.lookup n with
    | none => rfl
    | some node =>
      cases node with
      | file content => rfl
      | link target => rfl
      | directory inner => exact ih

/-- Where a way stops, with what is there reduced to its form. -/
def Stop.form : Stop → Stop
  | .arrived names node => .arrived names node.form
  | .link trail target rest => .link trail target rest

theorem descend_forms : descend (Node.forms root) trail pieces =
    (descend root trail pieces).map Stop.form := by
  induction pieces generalizing trail with
  | nil => rw [descend, descend, entriesAt_forms]; rfl
  | cons piece rest ih =>
    simp only [descend, entriesAt_forms, Node.lookup_forms]
    split
    · exact ih
    split
    · exact ih
    split
    · rfl
    cases (entriesAt root trail.reverse).lookup piece with
    | none => rfl
    | some node =>
      cases node with
      | file content =>
        simp only [Option.map_some, Node.form]
        split <;> rfl
      | link target => rfl
      | directory inner => exact ih

theorem follow_forms : follow (Node.forms root) links trail pieces =
    (follow root links trail pieces).map fun found => (found.1, found.2.form) := by
  induction links generalizing trail pieces with
  | zero =>
    unfold follow
    rw [descend_forms]
    cases descend root trail pieces with
    | error fault => rfl
    | ok stop => cases stop <;> rfl
  | succ links ih =>
    unfold follow
    rw [descend_forms]
    cases descend root trail pieces with
    | error fault => rfl
    | ok stop =>
      cases stop with
      | arrived names node => rfl
      | link trail target rest =>
        simp only [Except.map, Stop.form]
        split
        · rfl
        · exact ih

/-- A path leads to the same place in a file system and in its form. -/
theorem locate_form : fs.form.locate p =
    (fs.locate p).map fun found => (found.1, found.2.form) := by
  unfold locate
  split
  · rfl
  split
  · rfl
  split
  · rfl
  · exact follow_forms

theorem isFile_form : fs.form.isFile p = fs.isFile p := by
  unfold isFile
  rw [locate_form]
  rcases fs.locate p with fault | ⟨names, node⟩
  · rfl
  · cases node <;> rfl

theorem isDirectory_form : fs.form.isDirectory p = fs.isDirectory p := by
  unfold isDirectory
  rw [locate_form]
  rcases fs.locate p with fault | ⟨names, node⟩
  · rfl
  · cases node <;> rfl

theorem exists?_form : fs.form.exists? p = fs.exists? p := by
  unfold exists?
  rw [locate_form]
  rcases fs.locate p with fault | ⟨names, node⟩ <;> rfl

theorem canonical?_form : fs.form.canonical? p = fs.canonical? p := by
  unfold canonical?
  rw [locate_form]
  rcases fs.locate p with fault | ⟨names, node⟩ <;> rfl

/-- In file systems of one form a path leads nowhere for the same reason, or to nodes of one form in
the same place. -/
theorem locate_cases_of_form (hform : fs'.form = fs.form) :
    (∃ fault, fs.locate p = .error fault ∧ fs'.locate p = .error fault) ∨
      ∃ names node node', fs.locate p = .ok (names, node) ∧ fs'.locate p = .ok (names, node') ∧
        node'.form = node.form := by
  have heq : (fs'.locate p).map (fun found => (found.1, found.2.form)) =
      (fs.locate p).map fun found => (found.1, found.2.form) := by
    rw [← locate_form, hform, locate_form]
  cases hlocate : fs.locate p with
  | error fault =>
    cases hlocate' : fs'.locate p with
    | error fault' =>
      rw [hlocate, hlocate'] at heq
      exact .inl ⟨fault, rfl, heq⟩
    | ok found' => simp [hlocate, hlocate', Except.map] at heq
  | ok found =>
    cases hlocate' : fs'.locate p with
    | error fault' => simp [hlocate, hlocate', Except.map] at heq
    | ok found' =>
      rw [hlocate, hlocate'] at heq
      obtain ⟨hnames, hnode⟩ := Prod.mk.inj (Except.ok.inj heq)
      exact .inr ⟨found.1, found.2, found'.2, rfl, by rw [← hnames], hnode⟩

/-- Whether a file system is well formed can be seen from its form. -/
theorem WellFormed.of_form (h : fs.WellFormed) (hform : fs'.form = fs.form) : fs'.WellFormed := by
  have htop : fs'.top.form = fs.top.form := by rw [← top_form, hform, top_form]
  constructor
  · rw [← Node.wellFormed_form_iff, htop, Node.wellFormed_form_iff]
    exact h.tree
  · obtain ⟨entries, hentries⟩ := h.workingDirectory
    have hplace : fs.workingDirectory = fs'.workingDirectory := by
      rw [← workingDirectory_form, ← hform, workingDirectory_form]
    have hat : (fs'.top.at? fs.workingDirectory).map Node.form =
        some (Node.directory entries).form := by
      rw [← Node.at?_form, htop, Node.at?_form, hentries, Option.map_some]
    obtain ⟨node, hnode, hdirectory⟩ := Option.map_eq_some_iff.mp hat
    obtain ⟨inner, rfl, -⟩ := Node.exists_directory_of_form hdirectory
    exact ⟨inner, hplace ▸ hnode⟩

/-- The path leads to what the names lead to, directly or by links. -/
def LeadsTo (fs : FileSystem) (p : Path) (names : List Name) : Prop :=
  ∃ node, fs.locate p = .ok (names, node)

theorem LeadsTo.of_form (h : fs.LeadsTo p names) (hform : fs'.form = fs.form) :
    fs'.LeadsTo p names := by
  obtain ⟨node, hlocate⟩ := h
  rcases locate_cases_of_form (p := p) hform with
    ⟨fault, hfault, -⟩ | ⟨_, _, node', hfound, hfound', -⟩
  · simp [hlocate] at hfault
  · obtain ⟨rfl, -⟩ := Prod.mk.inj (Except.ok.inj (hlocate.symm.trans hfound))
    exact ⟨node', hfound'⟩

/-- The trees differ at most in the content of the file that the names lead to. -/
structure DiffersOnlyAt (fs fs' : FileSystem) (names : List Name) : Prop where
  form_eq : fs'.form = fs.form
  same_content : ∀ other content, other ≠ names →
    fs.top.at? other = some (.file content) → fs'.top.at? other = some (.file content)

/-- The file system with this content in the file that the names lead to. -/
def withContent (fs : FileSystem) (names : List Name) (content : List UInt8) : FileSystem :=
  { fs with root := Node.putAt (.file content) names fs.root }

theorem differsOnlyAt_withContent {old : List UInt8} (h : fs.top.at? names = some (.file old)) :
    fs.DiffersOnlyAt (fs.withContent names content) names where
  form_eq := by rw [form, form, withContent, Node.forms_putAt_file h]
  same_content _ _ hne hkept := Node.at?_putAt_file h hne hkept

/-- What does not lead to the file in which the trees differ reads the same in both. -/
theorem DiffersOnlyAt.read_eq (hd : fs.DiffersOnlyAt fs' names) (hfs : fs.WellFormed)
    (hp : ¬ fs.LeadsTo p names) : fs'.read p = fs.read p := by
  unfold read
  rcases locate_cases_of_form (p := p) hd.form_eq with
    ⟨fault, hlocate, hlocate'⟩ | ⟨other, node, node', hlocate, hlocate', hform⟩
  · rw [hlocate, hlocate']
  · have hat := hfs.at?_of_locate hlocate
    have hat' := (hfs.of_form hd.form_eq).at?_of_locate hlocate'
    have hne : other ≠ names := by
      rintro rfl
      exact hp ⟨_, hlocate⟩
    rw [hlocate, hlocate']
    cases node with
    | file content =>
      rw [Option.some.inj (hat'.symm.trans (hd.same_content _ _ hne hat))]
    | link target =>
      cases node' with
      | link target' => rfl
      | _ => simp [Node.form] at hform
    | directory entries =>
      obtain ⟨inner, rfl, -⟩ := Node.exists_directory_of_form hform
      rfl

end FileSystem

end ImportCycles
