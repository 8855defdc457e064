import Mathlib.Data.List.Flatten
import ImportCycles.Proofs.FileSystem.Tree
import ImportCycles.Proofs.Path.NormalForm
/-!
Spellings of a path. Empty pieces and points can be left out, and what the path led to is still
found: a path that leads somewhere leads there in its plainest spelling too.
-/
namespace ImportCycles.FileSystem

/-- The first pieces are the second ones without some that stand for nothing. -/
inductive Plainer : List Name → List Name → Prop
  | nil : Plainer [] []
  | keep (piece : Name) {plain pieces : List Name} (rest : Plainer plain pieces) :
      Plainer (piece :: plain) (piece :: pieces)
  | leaveOut {piece : Name} (idle : piece = [] ∨ piece = [Path.dot]) {plain pieces : List Name}
      (rest : Plainer plain pieces) : Plainer plain (piece :: pieces)

/-- Two ways stopped at the same place, the first with plainer pieces to go. -/
inductive Stop.Plainer : Stop → Stop → Prop
  | arrived (names : List Name) (node : Node) : Plainer (.arrived names node) (.arrived names node)
  | link (trail : List Name) (target : Path) {plain rest : List Name}
      (h : FileSystem.Plainer plain rest) :
      Plainer (.link trail target plain) (.link trail target rest)

variable {fs : FileSystem} {root : List (Name × Node)} {trail plain pieces names : List Name}
  {stop : Stop} {links : Nat} {p : Path} {found : List Name × Node}

namespace Plainer

theorem refl (pieces : List Name) : Plainer pieces pieces := by
  induction pieces with
  | nil => exact .nil
  | cons piece pieces ih => exact .keep piece ih

theorem eq_nil (h : Plainer plain []) : plain = [] := by
  cases h
  rfl

theorem append_left (h : Plainer plain pieces) (front : List Name) :
    Plainer (front ++ plain) (front ++ pieces) := by
  induction front with
  | nil => exact h
  | cons piece front ih => exact .keep piece ih

theorem sublist (h : Plainer plain pieces) : List.Sublist plain pieces := by
  induction h with
  | nil => exact .refl _
  | keep piece _ ih => exact ih.cons_cons piece
  | leaveOut _ _ ih => exact ih.cons _

/-- The names are what the pieces stand for. -/
theorem of_components (h : pieces.filterMap Path.component? = names.map .name) :
    Plainer names pieces := by
  induction pieces generalizing names with
  | nil =>
    cases names with
    | nil => exact .nil
    | cons n names => simp at h
  | cons piece pieces ih =>
    cases hpiece : Path.component? piece with
    | none =>
      rw [List.filterMap_cons_none hpiece] at h
      refine .leaveOut ?_ (ih h)
      unfold Path.component? at hpiece
      split at hpiece
      · assumption
      · split at hpiece <;> simp at hpiece
    | some c =>
      rw [List.filterMap_cons_some hpiece] at h
      cases names with
      | nil => simp at h
      | cons n names =>
        obtain ⟨rfl, hrest⟩ := List.cons.inj h
        obtain rfl := Path.component?_eq_name hpiece
        exact .keep piece (ih hrest)

end Plainer

theorem descend_plainer (hp : Plainer plain pieces) (h : descend root trail pieces = .ok stop) :
    ∃ stop', descend root trail plain = .ok stop' ∧ stop'.Plainer stop := by
  induction hp generalizing trail with
  | nil =>
    obtain rfl := Except.ok.inj h
    exact ⟨_, rfl, .arrived _ _⟩
  | leaveOut idle _ ih =>
    rw [descend, if_pos idle] at h
    exact ih h
  | keep piece rest ih =>
    simp only [descend] at h ⊢
    by_cases hidle : piece = [] ∨ piece = [Path.dot]
    · rw [if_pos hidle] at h ⊢
      exact ih h
    rw [if_neg hidle] at h ⊢
    by_cases hup : piece = [Path.dot, Path.dot]
    · rw [if_pos hup] at h ⊢
      exact ih h
    rw [if_neg hup] at h ⊢
    by_cases hlong : longestName < piece.length
    · simp [hlong] at h
    rw [if_neg hlong] at h ⊢
    cases hentry : (entriesAt root trail.reverse).lookup piece with
    | none => simp [hentry] at h
    | some node =>
      rw [hentry] at h
      cases node with
      | directory entries => exact ih h
      | link target =>
        obtain rfl := Except.ok.inj h
        exact ⟨_, rfl, .link _ _ rest⟩
      | file content =>
        -- A file is found only when no piece is left to go, idle or not.
        dsimp only at h ⊢
        split at h
        · next hnil =>
          obtain rfl := Except.ok.inj h
          rw [hnil] at rest
          rw [if_pos rest.eq_nil]
          exact ⟨_, rfl, .arrived _ _⟩
        · simp at h

/-- Two ways that stopped alike go on alike, if what is left to go does. -/
theorem follow_of_stops {trail' : List Name} {stop' : Stop}
    (hstop : descend root trail pieces = .ok stop)
    (hstop' : descend root trail' plain = .ok stop') (hp : stop'.Plainer stop)
    (hnext : ∀ links', links = links' + 1 → ∀ {trail plain rest : List Name},
      Plainer plain rest → follow root links' trail rest = .ok found →
        follow root links' trail plain = .ok found)
    (h : follow root links trail pieces = .ok found) :
    follow root links trail' plain = .ok found := by
  unfold follow at h ⊢
  rw [hstop] at h
  rw [hstop']
  cases hp with
  | arrived names node => exact h
  | link trail target rest =>
    cases links with
    | zero => simp at h
    | succ links =>
      dsimp only at h ⊢
      split at h
      · simp at h
      · next htarget =>
        rw [if_neg htarget]
        exact hnext links rfl (rest.append_left _) h

theorem exists_stop_of_follow (h : follow root links trail pieces = .ok found) :
    ∃ stop, descend root trail pieces = .ok stop := by
  unfold follow at h
  cases hstop : descend root trail pieces with
  | error fault => simp [hstop] at h
  | ok stop => exact ⟨stop, rfl⟩

theorem follow_plainer (hp : Plainer plain pieces)
    (h : follow root links trail pieces = .ok found) :
    follow root links trail plain = .ok found := by
  induction links generalizing trail plain pieces with
  | zero =>
    obtain ⟨stop, hstop⟩ := exists_stop_of_follow h
    obtain ⟨stop', hstop', hplainer⟩ := descend_plainer hp hstop
    exact follow_of_stops hstop hstop' hplainer (by simp) h
  | succ links ih =>
    obtain ⟨stop, hstop⟩ := exists_stop_of_follow h
    obtain ⟨stop', hstop', hplainer⟩ := descend_plainer hp hstop
    refine follow_of_stops hstop hstop' hplainer (fun links' hlinks => ?_) h
    obtain rfl := Nat.succ.inj hlinks
    exact ih

/-- An absolute path written with fewer bytes leads where the longer one leads, if its pieces do. -/
theorem locate_of_sublist {q : Path} (hp : p.isAbsolute = true) (hq : q.isAbsolute = true)
    (hshorter : List.Sublist q.bytes p.bytes)
    (hfollow : follow fs.root mostLinks [] (Path.split p.bytes) = .ok found →
      follow fs.root mostLinks [] (Path.split q.bytes) = .ok found)
    (h : fs.locate p = .ok found) : fs.locate q = .ok found := by
  obtain ⟨hnul, -, hshort, hway⟩ := locate_eq_ok_iff.mp h
  rw [if_pos hp] at hway
  have hne : q.bytes ≠ [] := by
    intro hnil
    simp [Path.isAbsolute, hnil] at hq
  refine locate_eq_ok_iff.mpr ⟨fun hmem => hnul (hshorter.subset hmem), hne,
    Nat.le_trans hshorter.length_le hshort, ?_⟩
  rw [if_pos hq]
  exact hfollow hway

theorem bytes_pathOf_sublist {bytes : List UInt8} (hn : AreEntryNames names)
    (h : names.Sublist (Path.split bytes)) :
    List.Sublist (pathOf names).bytes (Path.slash :: bytes) := by
  rw [Path.bytes_pathOf]
  by_cases hne : names = []
  · simp [hne, Path.unsplit]
  · rw [← Path.flatMap_split, ← Path.flatMap_split,
      Path.split_unsplit hne fun n hm => (hn n hm).noSlash]
    exact h.flatMap _

/-- What a path leads to is found by its plainest spelling as well. -/
theorem locate_pathOf (hn : AreEntryNames names) (hp : p.components = .root :: names.map .name)
    (h : fs.locate p = .ok found) : fs.locate (pathOf names) = .ok found := by
  have habsolute := Path.isAbsolute_of_components hp
  obtain ⟨rest, hbytes, hcomponents⟩ := Path.exists_bytes_of_isAbsolute habsolute
  have hplainer : Plainer names (Path.split rest) := by
    apply Plainer.of_components
    rw [hp] at hcomponents
    exact (List.cons.inj hcomponents).2.symm
  refine locate_of_sublist habsolute Path.isAbsolute_pathOf ?_ (fun hfollow => ?_) h
  · rw [hbytes]
    exact bytes_pathOf_sublist hn hplainer.sublist
  · rw [follow_split_pathOf hn]
    rw [hbytes, Path.split_slash, follow_nil_cons] at hfollow
    exact follow_plainer hplainer hfollow

/-- Another spelling of a plain path, if it leads somewhere, has the same path free of links. -/
theorem canonical?_pathOf (hn : AreEntryNames names)
    (hp : (pathOf names).same p = true) (h : fs.locate p = .ok found) :
    fs.canonical? (pathOf names) = fs.canonical? p := by
  have hcomponents : p.components = .root :: names.map .name := by
    rw [← Path.components_pathOf hn]
    exact (of_decide_eq_true hp).symm
  unfold canonical?
  rw [locate_pathOf hn hcomponents h, h]

end ImportCycles.FileSystem
