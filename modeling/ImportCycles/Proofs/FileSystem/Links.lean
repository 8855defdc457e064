import ImportCycles.Proofs.FileSystem.Spelling
/-!
The links on the way to what a path leads to. Their number is settled by the path, a path is found
just when there are not too many of them, and on a way that goes on from a directory the links of
its two parts are counted together.
-/
namespace ImportCycles.FileSystem

/-- The pieces lead to what was found, and there are so many links on the way. -/
inductive Reaches (root : List (Name × Node)) :
    Nat → List Name → List Name → List Name × Node → Prop
  | arrived {trail pieces names : List Name} {node : Node}
      (stop : descend root trail pieces = .ok (.arrived names node)) :
      Reaches root 0 trail pieces (names, node)
  | link {links : Nat} {trail pieces inner rest : List Name} {target : Path}
      {found : List Name × Node} (stop : descend root trail pieces = .ok (.link inner target rest))
      (hne : target.bytes ≠ [])
      (onward : Reaches root links (if target.isAbsolute then [] else inner)
        (Path.split target.bytes ++ rest) found) :
      Reaches root (links + 1) trail pieces found

/-- The directory in which the way through a path begins, the innermost name first. -/
def start (fs : FileSystem) (p : Path) : List Name :=
  if p.isAbsolute then [] else fs.workingDirectory.reverse

/-- The path leads to what was found by so many links. -/
def LeadsBy (fs : FileSystem) (links : Nat) (p : Path) (found : List Name × Node) : Prop :=
  Reaches fs.root links (fs.start p) (Path.split p.bytes) found

variable {fs : FileSystem} {root entries : List (Name × Node)} {stop : Stop} {links m n : Nat}
  {trail pieces plain rest names : List Name} {p q : Path} {found found' : List Name × Node}

/-- Where the way through some pieces stopped, the way through more of them goes on, unless it is at
a file. -/
theorem descend_append (h : descend root trail pieces = .ok stop) (rest : List Name) :
    (∃ names entries, stop = .arrived names (.directory entries) ∧
        descend root trail (pieces ++ rest) = descend root names.reverse rest) ∨
      (∃ inner target left, stop = .link inner target left ∧
        descend root trail (pieces ++ rest) = .ok (.link inner target (left ++ rest))) ∨
      ∃ names content, stop = .arrived names (.file content) := by
  induction pieces generalizing trail with
  | nil =>
    obtain rfl := Except.ok.inj h
    exact .inl ⟨_, _, rfl, by rw [List.reverse_reverse, List.nil_append]⟩
  | cons piece pieces ih =>
    simp only [descend, List.cons_append] at h ⊢
    by_cases hidle : piece = [] ∨ piece = [Path.dot]
    · rw [if_pos hidle] at h ⊢
      exact ih h
    rw [if_neg hidle] at h ⊢
    by_cases hup : piece = [Path.dot, Path.dot]
    · rw [if_pos hup] at h ⊢
      exact ih h
    rw [if_neg hup] at h ⊢
    by_cases hlong : longestName < piece.length
    · simp [hlong] at h
    rw [if_neg hlong] at h ⊢
    cases hentry : (entriesAt root trail.reverse).lookup piece with
    | none => simp [hentry] at h
    | some node =>
      rw [hentry] at h
      cases node with
      | directory inner => exact ih h
      | link target =>
        obtain rfl := Except.ok.inj h
        exact .inr (.inl ⟨_, _, _, rfl, rfl⟩)
      | file content =>
        dsimp only at h
        split at h
        · exact .inr (.inr ⟨_, _, (Except.ok.inj h).symm⟩)
        · simp at h

/-- With enough links allowed, and only then, the way is gone to its end. -/
theorem follow_eq_ok_iff :
    follow root links trail pieces = .ok found ↔ ∃ n ≤ links, Reaches root n trail pieces found := by
  constructor
  · intro h
    induction links generalizing trail pieces with
    | zero =>
      obtain ⟨stop, hstop⟩ := exists_stop_of_follow h
      rw [follow, hstop] at h
      cases stop with
      | arrived names node =>
        obtain rfl := Except.ok.inj h
        exact ⟨0, Nat.le_refl 0, .arrived hstop⟩
      | link inner target rest => simp at h
    | succ links ih =>
      obtain ⟨stop, hstop⟩ := exists_stop_of_follow h
      rw [follow, hstop] at h
      cases stop with
      | arrived names node =>
        obtain rfl := Except.ok.inj h
        exact ⟨0, Nat.zero_le _, .arrived hstop⟩
      | link inner target rest =>
        dsimp only at h
        split at h
        · simp at h
        · next hne =>
          obtain ⟨n, hn, honward⟩ := ih h
          exact ⟨n + 1, by omega, .link hstop hne honward⟩
  · rintro ⟨n, hn, h⟩
    induction h generalizing links with
    | arrived hstop =>
      unfold follow
      rw [hstop]
    | link hstop hne _ ih =>
      cases links with
      | zero => omega
      | succ links =>
        unfold follow
        rw [hstop]
        dsimp only
        rw [if_neg hne]
        exact ih (by omega)

namespace Reaches

/-- There is one way only. -/
theorem unique (h : Reaches root m trail pieces found) (h' : Reaches root n trail pieces found') :
    m = n ∧ found = found' := by
  induction h generalizing n with
  | arrived hstop =>
    cases h' with
    | arrived hstop' =>
      rw [hstop] at hstop'
      obtain ⟨rfl, rfl⟩ := Stop.arrived.inj (Except.ok.inj hstop')
      exact ⟨rfl, rfl⟩
    | link hstop' => simp [hstop] at hstop'
  | link hstop hne onward ih =>
    cases h' with
    | arrived hstop' => simp [hstop] at hstop'
    | link hstop' hne' onward' =>
      rw [hstop] at hstop'
      obtain ⟨rfl, rfl, rfl⟩ := Stop.link.inj (Except.ok.inj hstop')
      obtain ⟨rfl, rfl⟩ := ih onward'
      exact ⟨rfl, rfl⟩

/-- Pieces that stand for nothing can be left out. -/
theorem plainer (h : Reaches root n trail pieces found) (hp : Plainer plain pieces) :
    Reaches root n trail plain found := by
  induction h generalizing plain with
  | arrived hstop =>
    obtain ⟨stop', hstop', hplainer⟩ := descend_plainer hp hstop
    cases hplainer
    exact .arrived hstop'
  | link hstop hne _ ih =>
    obtain ⟨stop', hstop', hplainer⟩ := descend_plainer hp hstop
    cases hplainer with
    | link _ _ hrest => exact .link hstop' hne (ih (hrest.append_left _))

/-- From a directory the way goes on, and the links on both parts add up. -/
theorem append (h : Reaches root m trail pieces (names, .directory entries))
    (h' : Reaches root n names.reverse rest found) :
    Reaches root (m + n) trail (pieces ++ rest) found := by
  generalize hdirectory : (names, Node.directory entries) = reached at h
  induction h with
  | @arrived trail pieces names' node hstop =>
    obtain ⟨rfl, rfl⟩ := Prod.mk.inj hdirectory
    have hway : descend root trail (pieces ++ rest) = descend root names.reverse rest := by
      rcases descend_append hstop rest with ⟨_, _, heq, hway⟩ | ⟨_, _, _, heq, -⟩ | ⟨_, _, heq⟩
      · rw [hway, (Stop.arrived.inj heq).1]
      · simp at heq
      · simp at heq
    rw [Nat.zero_add]
    cases h' with
    | arrived hstop' => exact .arrived (hway.trans hstop')
    | link hstop' hne onward => exact .link (hway.trans hstop') hne onward
  | @link links trail pieces inner left target reached hstop hne _ ih =>
    rw [Nat.add_right_comm]
    rcases descend_append hstop rest with ⟨_, _, heq, -⟩ | ⟨_, _, _, heq, hway⟩ | ⟨_, _, heq⟩
    · simp at heq
    · obtain ⟨rfl, rfl, rfl⟩ := Stop.link.inj heq
      refine .link hway hne ?_
      rw [← List.append_assoc]
      exact ih hdirectory
    · simp at heq

/-- The way to a real directory is gone without links. -/
theorem of_directory (hn : AreEntryNames names)
    (hat : (Node.directory root).at? names = some (.directory entries))
    (h : Reaches root n [] (names ++ rest) found) : Reaches root n names.reverse rest found := by
  have hway := descend_directory hn hat rest
  split at hway
  · cases h with
    | arrived hstop => exact .arrived (hway ▸ hstop)
    | link hstop hne onward => exact .link (hway ▸ hstop) hne onward
  · cases h with
    | arrived hstop => simp [hway] at hstop
    | link hstop => simp [hway] at hstop

end Reaches

/-- A path is found when it is none that is refused at once, and there are not too many links on
its way. -/
theorem locate_eq_ok_iff_leadsBy : fs.locate p = .ok found ↔
    0 ∉ p.bytes ∧ p.bytes ≠ [] ∧ p.bytes.length ≤ longestPath ∧
      ∃ n ≤ mostLinks, fs.LeadsBy n p found := by
  rw [locate_eq_ok_iff, follow_eq_ok_iff]
  rfl

theorem LeadsBy.unique (h : fs.LeadsBy m p found) (h' : fs.LeadsBy n p found') :
    m = n ∧ found = found' :=
  Reaches.unique h h'

/-- The pieces of a path taken below another one are those of the two, but for a piece between them
that is empty. -/
theorem plainer_split_join (hp : p.bytes ≠ []) (hq : q.isAbsolute = false) :
    Plainer (Path.split (p.join q).bytes) (Path.split p.bytes ++ Path.split q.bytes) := by
  rw [Path.join, if_neg (by simp [hq])]
  by_cases hend : p.bytes.getLast? = some Path.slash
  · obtain ⟨front, hfront⟩ := List.getLast?_eq_some_iff.mp hend
    rw [if_pos (.inr hend), hfront, List.append_assoc, List.singleton_append,
      Path.split_append_slash_append, Path.split_append_slash_append, List.append_assoc]
    exact Plainer.append_left (.leaveOut (.inl rfl) (.refl _)) _
  · rw [if_neg (not_or.mpr ⟨hp, hend⟩), Path.split_append_slash_append]
    exact .refl _

/-- A path goes on below a directory to which another one leads, by the links of both. -/
theorem LeadsBy.join (hp : p.bytes ≠ []) (hq : q.isAbsolute = false)
    (h : fs.LeadsBy m p (names, .directory entries))
    (h' : Reaches fs.root n names.reverse (Path.split q.bytes) found) :
    fs.LeadsBy (m + n) (p.join q) found := by
  have hstart : fs.start (p.join q) = fs.start p := by
    rw [start, start, Path.isAbsolute_join_relative hq]
  rw [LeadsBy, hstart]
  exact (Reaches.append h h').plainer (plainer_split_join hp hq)

end ImportCycles.FileSystem
