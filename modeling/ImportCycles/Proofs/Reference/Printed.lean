import ImportCycles.Proofs.Reference.Line
import ImportCycles.Proofs.Reference.Order
/-!
Reading undoes printing: a source text of import statements, each printed on a line of its own,
holds these statements and no others.
-/
namespace ImportCycles.Reference

variable {kind : ImportKind} {kinds : List ImportKind} {l : Line} {lines : List Line}
  {source more : List Char} {offset : Nat}

/-- A line holds its own reference, and for other kinds none. -/
theorem ofKindFrom_line (hmore : more = [] ∨ ∃ rest, more = '\n' :: rest) :
    ofKindFrom kind offset 0 (l.text ++ more) =
      [l.reference offset].filter (·.kind = kind) ++
        ofKindFrom kind (offset + Text.Utf8.size l.text) 0 more := by
  by_cases hkind : l.kind = kind
  · subst hkind
    obtain ⟨st, hst, hopening, hspecifier, hlength⟩ := l.exists_atFront? hmore
    obtain ⟨c, cs, htext⟩ := List.exists_cons_of_ne_nil l.text_ne_nil
    have hnone : ∀ before suffix, suffix ≠ [] → before ++ suffix = cs →
        Statement.atFront? l.kind (suffix ++ more) = none := by
      intro before suffix hsuffix h
      have hl : c :: before ++ suffix = l.text := by rw [htext, ← h]; rfl
      exact Line.atFront?_eq_none hsuffix hl hmore (.inl (by simp))
    have hskip : st.text.length - 1 ≤ cs.length := by
      rw [htext, List.length_cons] at hlength
      omega
    have hfilter : [l.reference offset].filter (·.kind = l.kind) = [l.reference offset] := by
      simp [Line.reference]
    rw [htext, List.cons_append] at hst
    rw [hfilter, htext, List.cons_append, ofKindFrom]
    simp only [hst]
    rw [ofKindFrom_append hskip hnone, hopening, hspecifier, Text.Utf8.size, Nat.add_assoc]
    rfl
  · have hnone : ∀ before suffix, suffix ≠ [] → before ++ suffix = l.text →
        Statement.atFront? kind (suffix ++ more) = none :=
      fun before suffix hsuffix h => Line.atFront?_eq_none hsuffix h hmore (.inr hkind)
    have hfilter : [l.reference offset].filter (·.kind = kind) = [] := by
      simp [Line.reference, hkind]
    rw [ofKindFrom_append (Nat.zero_le _) hnone, hfilter, List.nil_append]

/-- A text that holds these lines; the last line may lack its line break. -/
inductive Holds : List Line → List Char → Prop
  | nil : Holds [] []
  | last (l : Line) : Holds [l] l.text
  | cons (l : Line) {lines : List Line} {source : List Char} (h : Holds lines source) :
      Holds (l :: lines) (l.text ++ '\n' :: source)

/-- The references of lines with `offset` bytes before them. -/
def references (offset : Nat) : List Line → List Reference
  | [] => []
  | l :: lines => l.reference offset :: references (offset + Text.Utf8.size l.text + 1) lines

theorem ofKindFrom_of_holds (h : Holds lines source) :
    ofKindFrom kind offset 0 source = (references offset lines).filter (·.kind = kind) := by
  induction h generalizing offset with
  | nil => rfl
  | last l =>
    rw [← List.append_nil l.text, ofKindFrom_line (.inl rfl)]
    exact List.append_nil _
  | cons l h ih =>
    rw [ofKindFrom_line (.inr ⟨_, rfl⟩), ofKindFrom_newline, ih, ← List.filter_append]
    rfl

theorem offset_le_of_mem_references {r : Reference} (h : r ∈ references offset lines) :
    offset ≤ r.offset := by
  induction lines generalizing offset with
  | nil => simp [references] at h
  | cons l lines ih =>
    rcases List.mem_cons.mp h with rfl | h
    · exact Nat.le_add_right _ _
    · have := ih h
      omega

theorem pairwise_references : (references offset lines).Pairwise fun r s => r.offset < s.offset := by
  induction lines generalizing offset with
  | nil => exact List.Pairwise.nil
  | cons l lines ih =>
    refine List.pairwise_cons.mpr ⟨fun s hs => ?_, ih⟩
    have hle := offset_le_of_mem_references hs
    have hsize : Text.Utf8.size l.statement.opening ≤ Text.Utf8.size l.text := by
      rw [Line.text_eq_statement, Statement.text, size_append, size_append, size_append]
      omega
    simp only [Line.reference]
    omega

theorem specifiers_references : ((references offset lines).filter (·.kind ∈ kinds)).map specifier =
    (lines.filter (·.kind ∈ kinds)).map fun l => String.ofList l.specifier := by
  induction lines generalizing offset with
  | nil => rfl
  | cons l lines ih =>
    rw [references, List.filter_cons, List.filter_cons]
    by_cases hkind : l.kind ∈ kinds
    · simp [Line.reference, hkind, ih]
    · simp [Line.reference, hkind, ih]

theorem specifiers_of_holds (h : Holds lines source) :
    specifiers kinds (String.ofList source) =
      (lines.filter (·.kind ∈ kinds)).map fun l => String.ofList l.specifier := by
  have hkind : ∀ kind, ofKind kind (String.ofList source).toList =
      (references 0 lines).filter (·.kind = kind) := by
    intro kind
    rw [String.toList_ofList]
    exact ofKindFrom_of_holds h
  rw [specifiers, all_of_ofKind pairwise_references hkind, specifiers_references]

/-- The lines, each with a line break at its end. -/
def print (lines : List Line) : List Char := lines.flatMap fun l => l.text ++ ['\n']

theorem print_cons : print (l :: lines) = l.text ++ '\n' :: print lines := by
  simp [print]

theorem holds_print : Holds lines (print lines) := by
  induction lines with
  | nil => exact .nil
  | cons l lines ih =>
    rw [print_cons]
    exact .cons l ih

theorem holds_dropLast_print : Holds lines (print lines).dropLast := by
  induction lines with
  | nil => exact .nil
  | cons l lines ih =>
    rw [print_cons, List.dropLast_append_of_ne_nil (by simp)]
    cases lines with
    | nil => simpa [print] using Holds.last l
    | cons next lines =>
      rw [List.dropLast_cons_of_ne_nil (by simp [print_cons])]
      exact .cons l ih

/-- Reading undoes printing: of the lines printed, the specifiers are those of the lines whose kind
is asked for, in the order of the lines, whether or not the last line has its line break. -/
theorem specifiers_print (kinds : List ImportKind) (lines : List Line) :
    specifiers kinds (String.ofList (print lines)) =
        (lines.filter (·.kind ∈ kinds)).map (fun l => String.ofList l.specifier) ∧
      specifiers kinds (String.ofList (print lines).dropLast) =
        (lines.filter (·.kind ∈ kinds)).map fun l => String.ofList l.specifier :=
  ⟨specifiers_of_holds holds_print, specifiers_of_holds holds_dropLast_print⟩

/-- Two statements with words of other statements in the clause and in the specifiers. -/
def wordyLines : List Line :=
  [{ kind := .namedFrom
     clause := "require( from".toList
     quote := '\x27'
     specifier := "import(".toList
     plain_clause := by decide +kernel
     no_import := by decide +kernel
     no_export := by decide +kernel
     isQuote_quote := rfl
     plain_specifier := by decide +kernel },
   { kind := .require
     clause := []
     quote := '\x22'
     specifier := "./b from ".toList
     plain_clause := by decide +kernel
     no_import := by decide +kernel
     no_export := by decide +kernel
     isQuote_quote := rfl
     plain_specifier := by decide +kernel }]

/-- Words of a statement in a clause or in a specifier do not matter. -/
theorem specifiers_wordyLines :
    print wordyLines = "import require( from from 'import(';\nrequire(\"./b from \");\n".toList ∧
      specifiers [.require, .namedFrom] (String.ofList (print wordyLines)) =
        ["import(", "./b from "] :=
  ⟨by decide +kernel, (specifiers_print _ _).1.trans (by decide +kernel)⟩

end ImportCycles.Reference
