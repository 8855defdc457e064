import Mathlib.Data.List.Infix
import ImportCycles.Proofs.Text.Numeral
/-!
Texts of lines, and lines of names with arrows between them. A text is cut at its line breaks and a
line at its arrows, from left to right; the pieces are those that were put together, unless one of
them has such a cut itself.
-/
namespace ImportCycles.Text

/-- What stands between line breaks. After the last one there is an empty rest, if each line of the
text is ended by one. -/
def lines (s : String) : List String := (s.toList.splitOn '\n').map String.ofList

/-- What stands between two names in a line. -/
def arrow : List Char := [' ', '-', '>', ' ']

/-- A line cut at each arrow, from left to right. -/
def cutAtArrows : List Char → List (List Char)
  | ' ' :: '-' :: '>' :: ' ' :: rest => [] :: cutAtArrows rest
  | c :: rest => (cutAtArrows rest).modifyHead (c :: ·)
  | [] => [[]]

/-- What stands between the arrows of a line. -/
def pieces (s : String) : List String := (cutAtArrows s.toList).map String.ofList

/-- No arrow begins inside the name when a blank follows it: the name has no arrow in it, and its
end is not an arrow without the last blank. -/
def IsPlain (name : String) : Prop := ¬ arrow <:+: name.toList ++ [' ']

instance (name : String) : Decidable (IsPlain name) :=
  inferInstanceAs (Decidable (¬ arrow <:+: name.toList ++ [' ']))

variable {c : Char} {cs name rest : List Char} {names : List (List Char)}

theorem lines_of_rows {rows : List String} (h : ∀ row ∈ rows, '\n' ∉ row.toList) :
    lines (String.join (rows.map (· ++ "\n"))) = rows ++ [""] := by
  have hsplit : (String.join (rows.map (· ++ "\n"))).toList.splitOn '\n' =
      rows.map String.toList ++ [[]] := by
    induction rows with
    | nil => rfl
    | cons row rows ih =>
      obtain ⟨hrow, hrows⟩ := List.forall_mem_cons.mp h
      have hcons : (String.join ((row :: rows).map (· ++ "\n"))).toList =
          row.toList ++ '\n' :: (String.join (rows.map (· ++ "\n"))).toList := by simp
      rw [hcons, List.splitOn_append_cons_self_of_not_mem hrow, ih hrows]
      rfl
  rw [lines, hsplit]
  simp [Function.comp_def]

theorem cutAtArrows_arrow_append : cutAtArrows (arrow ++ rest) = [] :: cutAtArrows rest := by
  simp [arrow, cutAtArrows]

theorem cutAtArrows_cons (h : ¬ arrow <+: c :: cs) :
    cutAtArrows (c :: cs) = (cutAtArrows cs).modifyHead (c :: ·) := by
  rw [cutAtArrows]
  rintro more rfl rfl
  exact h ⟨more, rfl⟩

/-- Two arrows share a blank at most. -/
theorem not_prefix_of_plain (h : ¬ arrow <:+: (c :: cs) ++ [' ']) :
    ¬ arrow <+: c :: (cs ++ arrow ++ rest) := by
  intro hstart
  match cs with
  | [] => simp [arrow, List.cons_prefix_cons] at hstart
  | [d] => simp [arrow, List.cons_prefix_cons] at hstart
  | d :: e :: cs =>
    have hshort : (c :: d :: e :: cs) ++ [' '] <+: c :: (d :: e :: cs ++ arrow ++ rest) :=
      ⟨['-', '>', ' '] ++ rest, by simp [arrow]⟩
    refine h (List.IsPrefix.isInfix ?_)
    exact List.prefix_of_prefix_length_le hstart hshort (by simp [arrow])

theorem cutAtArrows_append (h : ¬ arrow <:+: name ++ [' ']) :
    cutAtArrows (name ++ arrow ++ rest) = name :: cutAtArrows rest := by
  induction name with
  | nil => exact cutAtArrows_arrow_append
  | cons c name ih =>
    have hname : ¬ arrow <:+: name ++ [' '] := mt List.infix_cons h
    rw [List.cons_append, List.cons_append, cutAtArrows_cons (not_prefix_of_plain h), ih hname]
    rfl

theorem cutAtArrows_eq_singleton (h : ¬ arrow <:+: cs) : cutAtArrows cs = [cs] := by
  induction cs with
  | nil => rfl
  | cons c cs ih =>
    rw [cutAtArrows_cons (mt List.IsPrefix.isInfix h), ih (mt List.infix_cons h)]
    rfl

/-- The first piece of a line goes up to the first arrow. -/
theorem exists_of_cutAtArrows {piece : List Char} (h : cutAtArrows cs = name :: piece :: names) :
    ¬ arrow <:+: name ++ [' '] ∧ ∃ rest, cs = name ++ arrow ++ rest ∧
      cutAtArrows rest = piece :: names := by
  fun_induction cutAtArrows cs generalizing name with
  | case1 rest ih =>
    obtain ⟨rfl, hrest⟩ := List.cons.inj h
    exact ⟨by decide, rest, rfl, hrest⟩
  | case2 c cs hnot ih =>
    cases hcut : cutAtArrows cs with
    | nil => simp [hcut] at h
    | cons first more =>
      rw [hcut, List.modifyHead_cons] at h
      obtain ⟨rfl, rfl⟩ := List.cons.inj h
      obtain ⟨hplain, rest, rfl, hrest⟩ := ih hcut
      refine ⟨?_, rest, rfl, hrest⟩
      intro harrow
      rcases List.infix_cons_iff.mp harrow with hstart | hin
      · have hlonger : arrow <+: c :: (first ++ arrow ++ rest) :=
          hstart.trans ⟨['-', '>', ' '] ++ rest, by simp [arrow]⟩
        obtain ⟨more, hmore⟩ := hlonger
        obtain ⟨hblank, hrest⟩ := List.cons.inj hmore.symm
        exact hnot more hblank hrest
      · exact hplain hin
  | case3 => simp at h

theorem cutAtArrows_intercalate (hne : names ≠ []) (h : ∀ n ∈ names, ¬ arrow <:+: n ++ [' ']) :
    cutAtArrows (arrow.intercalate names) = names := by
  induction names with
  | nil => exact absurd rfl hne
  | cons n names ih =>
    obtain ⟨hn, hnames⟩ := List.forall_mem_cons.mp h
    cases names with
    | nil =>
      rw [List.intercalate_singleton]
      exact cutAtArrows_eq_singleton fun hin => hn (hin.trans (List.prefix_append _ _).isInfix)
    | cons m names =>
      rw [List.intercalate_cons_cons, cutAtArrows_append hn, ih (by simp) hnames]

/-- All names that stand before an arrow must be plain. -/
theorem plain_of_cutAtArrows (h : cutAtArrows (arrow.intercalate names) = names) :
    ∀ n ∈ names.dropLast, ¬ arrow <:+: n ++ [' '] := by
  induction names with
  | nil => simp
  | cons n names ih =>
    cases names with
    | nil => simp
    | cons m names =>
      obtain ⟨hn, rest, hcs, hrest⟩ := exists_of_cutAtArrows h
      rw [List.intercalate_cons_cons] at hcs
      rw [← List.append_cancel_left hcs] at hrest
      rw [List.dropLast_cons_cons]
      exact List.forall_mem_cons.mpr ⟨hn, ih hrest⟩

theorem pieces_eq_iff {row : String} {names : List String} :
    pieces row = names ↔ cutAtArrows row.toList = names.map String.toList := by
  constructor
  · rintro rfl
    simp [pieces, Function.comp_def]
  · intro h
    simp [pieces, h, Function.comp_def]

theorem pieces_intercalate {names : List String} (hne : names ≠ []) (h : ∀ n ∈ names, IsPlain n) :
    pieces (" -> ".intercalate names) = names := by
  rw [pieces_eq_iff, String.toList_intercalate]
  exact cutAtArrows_intercalate (by simpa using hne) (by simpa [IsPlain] using h)

/-- Names of which the last is the first again are found in their line just when they are plain. -/
theorem pieces_intercalate_iff {names : List String} (hlength : 2 ≤ names.length)
    (hclosed : names.head? = names.getLast?) :
    pieces (" -> ".intercalate names) = names ↔ ∀ n ∈ names, IsPlain n := by
  constructor
  · intro h
    rw [pieces_eq_iff, String.toList_intercalate] at h
    have hfront : ∀ n ∈ names.dropLast, IsPlain n := by
      simpa [IsPlain, ← List.map_dropLast] using plain_of_cutAtArrows h
    intro n hn
    match names with
    | first :: second :: more =>
      have hfirst : first ∈ (first :: second :: more).dropLast := by simp
      rw [← List.dropLast_append_getLast (List.cons_ne_nil first (second :: more))] at hn
      rcases List.mem_append.mp hn with hn | hn
      · exact hfront n hn
      · have hlast : (first :: second :: more).getLast (by simp) = first := by
          rw [List.getLast?_eq_some_getLast (by simp)] at hclosed
          exact (Option.some.inj hclosed).symm
        rw [List.mem_singleton.mp hn, hlast]
        exact hfront first hfirst
  · intro h
    exact pieces_intercalate (List.ne_nil_of_length_pos (by omega)) h

end ImportCycles.Text
