import ImportCycles.Report
import ImportCycles.Proofs.Text.Rows
/-!
The report for readers. It has a line for each cycle, in which its names stand with arrows between
them, so names without line breaks and arrows can be read back from it.
-/
namespace ImportCycles.Report

open Text (lines pieces IsPlain)

/-- The names of the files of a cycle. -/
def namesOn (names : Naming) (c : Cycle) : List String := c.files.map names.name

/-- The first line, which counts the cycles. -/
def heading (n : Nat) : String := "Found " ++ toString n ++ " circular dependencies:"

/-- Each file of the cycles has a name without a line break. -/
def StayInLine (names : Naming) (cycles : List Cycle) : Prop :=
  ∀ c ∈ cycles, ∀ name ∈ namesOn names c, '\n' ∉ name.toList

/-- Each file of the cycles has a plain name. -/
def ArePlain (names : Naming) (cycles : List Cycle) : Prop :=
  ∀ c ∈ cycles, ∀ name ∈ namesOn names c, IsPlain name

instance (names : Naming) (cycles : List Cycle) : Decidable (StayInLine names cycles) :=
  inferInstanceAs (Decidable (∀ c ∈ cycles, ∀ name ∈ namesOn names c, '\n' ∉ name.toList))

instance (names : Naming) (cycles : List Cycle) : Decidable (ArePlain names cycles) :=
  inferInstanceAs (Decidable (∀ c ∈ cycles, ∀ name ∈ namesOn names c, IsPlain name))

variable {names names' : Naming} {cycles cycles' : List Cycle}

theorem compact_eq_join (hne : cycles ≠ []) : compact names cycles = String.join
    ((heading cycles.length :: cycles.map fun c => " -> ".intercalate (namesOn names c)).map
      (· ++ "\n")) := by
  have hbreak : heading cycles.length ++ "\n" =
      "Found " ++ toString cycles.length ++ " circular dependencies:\n" := String.append_assoc
  rw [compact, if_neg hne, List.map_cons, String.join_cons, List.map_map, hbreak]
  rfl

theorem newline_notMem_intercalate {row : List String} (h : ∀ name ∈ row, '\n' ∉ name.toList) :
    '\n' ∉ (" -> ".intercalate row).toList := by
  induction row with
  | nil => simp
  | cons name row ih =>
    obtain ⟨hname, hrow⟩ := List.forall_mem_cons.mp h
    cases row with
    | nil => simpa using hname
    | cons next row =>
      rw [String.intercalate_cons_cons, String.toList_append, String.toList_append]
      simp only [List.mem_append, not_or]
      exact ⟨⟨hname, by decide⟩, ih hrow⟩

theorem newline_notMem_heading (n : Nat) : '\n' ∉ (heading n).toList := by
  simp only [heading, String.toList_append, List.mem_append, not_or]
  exact ⟨⟨by decide, Text.newline_notMem_toString n⟩, by decide⟩

theorem lines_compact (hne : cycles ≠ []) (h : StayInLine names cycles) :
    lines (compact names cycles) = heading cycles.length ::
      (cycles.map fun c => " -> ".intercalate (namesOn names c)) ++ [""] := by
  rw [compact_eq_join hne, Text.lines_of_rows]
  refine List.forall_mem_cons.mpr ⟨newline_notMem_heading _, ?_⟩
  intro row hrow
  obtain ⟨c, hc, rfl⟩ := List.mem_map.mp hrow
  exact newline_notMem_intercalate (h c hc)

/-- The first letter says whether there are cycles. -/
theorem compact_ne_of_nil (hne : cycles ≠ []) : compact names cycles ≠ compact names' [] := by
  intro h
  have hfirst := congrArg (·.toList.head?) h
  simp [compact, hne] at hfirst

/-- Cycles that are reported alike have the same names. -/
theorem namesOn_eq_of_compact_eq (hne : ∀ c ∈ cycles, c.files ≠ [])
    (hne' : ∀ c ∈ cycles', c.files ≠ []) (hline : StayInLine names cycles)
    (hline' : StayInLine names' cycles') (hplain : ArePlain names cycles)
    (hplain' : ArePlain names' cycles') (h : compact names cycles = compact names' cycles') :
    cycles.map (namesOn names) = cycles'.map (namesOn names') := by
  have hread : ∀ {names : Naming} {cycles : List Cycle}, (∀ c ∈ cycles, c.files ≠ []) →
      ArePlain names cycles →
      (cycles.map fun c => " -> ".intercalate (namesOn names c)).map pieces =
        cycles.map (namesOn names) := by
    intro names cycles hne hplain
    rw [List.map_map]
    refine List.map_congr_left fun c hc => ?_
    exact Text.pieces_intercalate (by simpa [namesOn] using hne c hc) (hplain c hc)
  by_cases hnil : cycles = []
  · by_cases hnil' : cycles' = []
    · rw [hnil, hnil', List.map_nil, List.map_nil]
    · subst hnil
      exact absurd h.symm (compact_ne_of_nil hnil')
  · by_cases hnil' : cycles' = []
    · subst hnil'
      exact absurd h (compact_ne_of_nil hnil)
    · have hlines := congrArg lines h
      rw [lines_compact hnil hline, lines_compact hnil' hline'] at hlines
      have hrows := List.append_cancel_right (List.cons.inj hlines).2
      rw [← hread hne hplain, hrows, hread hne' hplain']

end ImportCycles.Report
