import Mathlib.Data.List.Infix
import ImportCycles.Proofs.FileSystem.Spelling
/-!
Normal forms and the file system. The normal form takes a name away for every step up without
looking at any file, and this is what the file system does as long as only directories are left by
steps up. So a path that traverses no link before a step up leads where its normal form leads.
-/
namespace ImportCycles

open FileSystem (pathOf)

namespace FileSystem

/-- The piece of a path that stands for a step up. -/
abbrev upPiece : Name := [Path.dot, Path.dot]

/-- Whether there is a link on the way through the pieces. -/
def meetsLink (root : List (Name × Node)) (trail pieces : List Name) : Bool :=
  match descend root trail pieces with
  | .ok (.link ..) => true
  | _ => false

/-- Before a step up no link is met. -/
def ClimbsDirectories (root : List (Name × Node)) (trail pieces : List Name) : Prop :=
  ∀ before, before ++ [upPiece] <+: pieces → meetsLink root trail before = false

/-- On the way through an absolute path no link is traversed before a later step up. -/
def LeavesNoLink (fs : FileSystem) (p : Path) : Prop :=
  ClimbsDirectories fs.root [] (Path.split p.bytes)

/-- The names that are left, the last one first, when pieces are gone through by name alone. -/
def onward (trail : List Name) : List Name → List Name
  | [] => trail
  | piece :: rest =>
    if piece = [] ∨ piece = [Path.dot] then onward trail rest
    else if piece = upPiece then onward trail.tail rest
    else onward (piece :: trail) rest

/-- Names of directories entered one after another, the last one first. -/
inductive IsTrail (root : List (Name × Node)) : List Name → Prop
  | nil : IsTrail root []
  | cons {trail : List Name} {n : Name} {entries : List (Name × Node)} (outer : IsTrail root trail)
      (hn : IsEntryName n) (short : n.length ≤ longestName)
      (entry : (entriesAt root trail.reverse).lookup n = some (.directory entries)) :
      IsTrail root (n :: trail)

variable {fs : FileSystem} {root : List (Name × Node)} {trail trail' plain pieces : List Name}
  {piece : Name} {stop : Stop} {p : Path} {found : List Name × Node}

instance : Decidable (ClimbsDirectories root trail pieces) :=
  decidable_of_iff (∀ before ∈ pieces.inits, before ++ [upPiece] <+: pieces →
      meetsLink root trail before = false) <| by
    refine ⟨fun h before hup => h before ?_ hup, fun h before _ hup => h before hup⟩
    exact (List.mem_inits _ _).mpr ((List.prefix_append _ _).trans hup)

instance : Decidable (fs.LeavesNoLink p) :=
  inferInstanceAs (Decidable (ClimbsDirectories fs.root [] (Path.split p.bytes)))

/-- A trail is found again from the root directory. -/
theorem IsTrail.descend (h : IsTrail root trail) (pieces : List Name) :
    FileSystem.descend root [] (trail.reverse ++ pieces) =
      FileSystem.descend root trail pieces := by
  induction h generalizing pieces with
  | nil => rfl
  | @cons trail n entries outer hn short entry ih =>
    rw [List.reverse_cons, List.append_assoc, ih, List.singleton_append, FileSystem.descend,
      if_neg (not_or.mpr ⟨hn.ne_nil, hn.ne_here⟩), if_neg hn.ne_up,
      if_neg (Nat.not_lt.mpr short), entry]

theorem IsTrail.tail (h : IsTrail root trail) : IsTrail root trail.tail := by
  cases h with
  | nil => exact .nil
  | cons outer hn short entry => exact outer

/-- By name alone the normal form is found. -/
theorem foldl_climb_onward (trail pieces : List Name) :
    (pieces.filterMap Path.component?).foldl Path.climb (trail.map .name ++ [.root]) =
      (onward trail pieces).map .name ++ [.root] := by
  induction pieces generalizing trail with
  | nil => rfl
  | cons piece pieces ih =>
    unfold onward
    split
    · next hidle =>
      have hnone : Path.component? piece = none := if_pos hidle
      rw [List.filterMap_cons_none hnone, ih]
    · next hidle =>
      split
      · next hup =>
        have hcomponent : Path.component? piece = some .up := by rw [hup]; decide
        rw [List.filterMap_cons_some hcomponent, List.foldl_cons, ← ih]
        cases trail <;> rfl
      · next hup =>
        have hcomponent : Path.component? piece = some (.name piece) := by
          rw [Path.component?, if_neg hidle, if_neg hup]
        rw [List.filterMap_cons_some hcomponent, List.foldl_cons, ← ih]
        rfl

theorem onward_sublist (trail pieces : List Name) :
    (onward trail pieces).reverse.Sublist (trail.reverse ++ pieces) := by
  induction pieces generalizing trail with
  | nil => simp [onward]
  | cons piece pieces ih =>
    unfold onward
    split
    · exact (ih trail).trans ((List.sublist_cons_self piece pieces).append_left _)
    · split
      · have htail : List.Sublist trail.tail.reverse trail.reverse := trail.tail_sublist.reverse
        exact (ih trail.tail).trans (htail.append (List.sublist_cons_self piece pieces))
      · simpa using ih (piece :: trail)

/-- Without steps up all names stay. -/
theorem exists_onward_eq (h : upPiece ∉ pieces) (trail : List Name) :
    ∃ plain, onward trail pieces = plain.reverse ++ trail ∧ Plainer plain pieces := by
  induction pieces generalizing trail with
  | nil => exact ⟨[], rfl, .nil⟩
  | cons piece pieces ih =>
    obtain ⟨hup, hpieces⟩ := not_or.mp (List.mem_cons.not.mp h)
    unfold onward
    split
    · next hidle =>
      obtain ⟨plain, honward, hplainer⟩ := ih hpieces trail
      exact ⟨plain, honward, .leaveOut hidle hplainer⟩
    · rw [if_neg (Ne.symm hup)]
      obtain ⟨plain, honward, hplainer⟩ := ih hpieces (piece :: trail)
      exact ⟨piece :: plain, by simp [honward], .keep piece hplainer⟩

theorem ClimbsDirectories.rest (h : ClimbsDirectories root trail (piece :: pieces))
    (hstep : ∀ before, descend root trail (piece :: before) = descend root trail' before) :
    ClimbsDirectories root trail' pieces := by
  intro before hup
  have hfront := h (piece :: before) (List.cons_prefix_cons.mpr ⟨rfl, hup⟩)
  rwa [meetsLink, hstep] at hfront

/-- Behind a link there is no step up. -/
theorem ClimbsDirectories.notMem (h : ClimbsDirectories root trail (piece :: pieces))
    (hlink : ∀ before, meetsLink root trail (piece :: before) = true) : upPiece ∉ pieces := by
  intro hup
  obtain ⟨before, after, rfl⟩ := List.append_of_mem hup
  have hfront := h (piece :: before) ⟨after, by simp⟩
  rw [hlink] at hfront
  simp at hfront

/-- A name on the way is a directory that is entered, a link, or a file at the end of the way. -/
theorem descend_name_cases (hidle : ¬ (piece = [] ∨ piece = [Path.dot])) (hup : piece ≠ upPiece)
    (h : descend root trail (piece :: pieces) = .ok stop) :
    piece.length ≤ longestName ∧
      ((∃ entries, (entriesAt root trail.reverse).lookup piece = some (.directory entries) ∧
          ∀ before, descend root trail (piece :: before) = descend root (piece :: trail) before) ∨
        (∃ target, ∀ before,
          descend root trail (piece :: before) = .ok (.link trail target before)) ∨
        pieces = [] ∧ ∃ names node, stop = .arrived names node) := by
  have hshort : piece.length ≤ longestName := by
    by_contra hlong
    simp only [descend, hidle, hup, Nat.lt_of_not_le hlong, if_true, if_false] at h
    simp at h
  have hshort' := Nat.not_lt.mpr hshort
  refine ⟨hshort, ?_⟩
  cases hentry : (entriesAt root trail.reverse).lookup piece with
  | none => simp [descend, hidle, hup, hshort', hentry] at h
  | some node =>
    cases node with
    | directory entries =>
      exact .inl ⟨entries, rfl, fun before => by simp [descend, hidle, hup, hshort', hentry]⟩
    | link target =>
      exact .inr (.inl ⟨target, fun before => by simp [descend, hidle, hup, hshort', hentry]⟩)
    | file content =>
      simp only [descend, hidle, hup, hshort', hentry, if_false] at h
      split at h
      · next hnil => exact .inr (.inr ⟨hnil, _, _, (Except.ok.inj h).symm⟩)
      · simp at h

/-- The way by name alone stops where the way through the pieces stops, with plainer pieces left. -/
theorem descend_onward (ht : IsTrail root trail) (hslash : ∀ piece ∈ pieces, Path.slash ∉ piece)
    (hclimbs : ClimbsDirectories root trail pieces) (h : descend root trail pieces = .ok stop) :
    ∃ stop', descend root [] (onward trail pieces).reverse = .ok stop' ∧ stop'.Plainer stop := by
  induction pieces generalizing trail with
  | nil =>
    have hroot := ht.descend []
    rw [List.append_nil] at hroot
    obtain rfl := Except.ok.inj h
    exact ⟨_, hroot, .arrived _ _⟩
  | cons piece pieces ih =>
    obtain ⟨hpiece, hpieces⟩ := List.forall_mem_cons.mp hslash
    have hnext : ∀ trail', IsTrail root trail' →
        (∀ before, descend root trail (piece :: before) = descend root trail' before) →
        ∃ stop', descend root [] (onward trail' pieces).reverse = .ok stop' ∧
          stop'.Plainer stop :=
      fun trail' ht' hstep => ih ht' hpieces (hclimbs.rest hstep) (hstep pieces ▸ h)
    unfold onward
    by_cases hidle : piece = [] ∨ piece = [Path.dot]
    · rw [if_pos hidle]
      exact hnext trail ht fun before => by rw [descend, if_pos hidle]
    rw [if_neg hidle]
    by_cases hup : piece = upPiece
    · rw [if_pos hup]
      exact hnext trail.tail ht.tail fun before => by rw [descend, if_neg hidle, if_pos hup]
    rw [if_neg hup]
    have hname : IsEntryName piece :=
      ⟨fun hnil => hidle (.inl hnil), fun hdot => hidle (.inr hdot), hup, hpiece⟩
    obtain ⟨hshort, ⟨entries, hentry, hstep⟩ | ⟨target, hstep⟩ | ⟨rfl, names, node, rfl⟩⟩ :=
      descend_name_cases hidle hup h
    · exact hnext (piece :: trail) (.cons ht hname hshort hentry) hstep
    · obtain rfl := Except.ok.inj ((hstep pieces).symm.trans h)
      have hrest := hclimbs.notMem fun before => by rw [meetsLink, hstep]
      obtain ⟨plain, honward, hplainer⟩ := exists_onward_eq hrest (piece :: trail)
      have hway : (onward (piece :: trail) pieces).reverse = trail.reverse ++ piece :: plain := by
        simp [honward]
      exact ⟨_, by rw [hway, ht.descend, hstep], .link trail target hplainer⟩
    · have hway : (onward (piece :: trail) []).reverse = trail.reverse ++ [piece] := by
        simp [onward]
      exact ⟨_, by rw [hway, ht.descend, h], .arrived _ _⟩

theorem areEntryNames_onward (ht : AreEntryNames trail)
    (hslash : ∀ piece ∈ pieces, Path.slash ∉ piece) : AreEntryNames (onward trail pieces) := by
  induction pieces generalizing trail with
  | nil => exact ht
  | cons piece pieces ih =>
    obtain ⟨hpiece, hpieces⟩ := List.forall_mem_cons.mp hslash
    unfold onward
    split
    · exact ih ht hpieces
    · next hidle =>
      split
      · exact ih (fun n hn => ht n (List.mem_of_mem_tail hn)) hpieces
      · next hup =>
        obtain ⟨hnil, hdot⟩ := not_or.mp hidle
        exact ih (areEntryNames_cons.mpr ⟨⟨hnil, hdot, hup, hpiece⟩, ht⟩) hpieces

/-- An absolute path is normalized by going through its pieces by name alone. -/
theorem normal_eq_onward {bytes : List UInt8} (hbytes : p.bytes = Path.slash :: bytes) :
    p.normal = pathOf (onward [] (Path.split bytes)).reverse := by
  have hclimbed : p.climbed = (onward [] (Path.split bytes)).map .name ++ [.root] := by
    rw [Path.climbed_eq, Path.base, if_pos (by simp [Path.isAbsolute, hbytes]), Path.steps, hbytes,
      Path.split_slash]
    exact foldl_climb_onward [] _
  rw [Path.normal_eq, if_neg (by simp [hclimbed]), hclimbed]
  simp [pathOf]

/-- A path that traverses no link before a step up leads where its normal form leads. -/
theorem locate_normal (hp : p.isAbsolute = true) (hclimbs : fs.LeavesNoLink p)
    (h : fs.locate p = .ok found) : fs.locate p.normal = .ok found := by
  obtain ⟨bytes, hbytes, -⟩ := Path.exists_bytes_of_isAbsolute hp
  have hslash : ∀ piece ∈ Path.split bytes, Path.slash ∉ piece :=
    fun piece hpiece => Path.noSlash_of_mem_split hpiece
  have hnames : AreEntryNames (onward [] (Path.split bytes)).reverse :=
    fun n hn => areEntryNames_onward areEntryNames_nil hslash n (List.mem_reverse.mp hn)
  rw [normal_eq_onward hbytes]
  refine locate_of_sublist hp Path.isAbsolute_pathOf ?_ (fun hfollow => ?_) h
  · rw [hbytes]
    exact bytes_pathOf_sublist hnames (onward_sublist [] _)
  · rw [hbytes, Path.split_slash, follow_nil_cons] at hfollow
    rw [LeavesNoLink, hbytes, Path.split_slash] at hclimbs
    rw [follow_split_pathOf hnames]
    have hclimbs' := hclimbs.rest fun before => by rw [descend, if_pos (.inl rfl)]
    obtain ⟨stop, hstop⟩ := exists_stop_of_follow hfollow
    obtain ⟨stop', hstop', hplainer⟩ := descend_onward .nil hslash hclimbs' hstop
    exact follow_of_stops hstop hstop' hplainer (fun _ _ => follow_plainer) hfollow

end FileSystem

end ImportCycles
