import ImportCycles.Proofs.Reference.Order
import ImportCycles.Proofs.Statement.Specifier
/-!
Where the references of a text stand in it: between two quotes, at increasing offsets, and for one
kind in statements that do not overlap and leave no other statement of the kind untouched.
-/
namespace ImportCycles.Reference

open Statement (IsStatement isQuote Leads EndsFirst)
open Text.Utf8 (size)

/-- A statement, with so many characters of the text before it. -/
structure Span where
  start : Nat
  statement : Statement

namespace Span

/-- The characters before the end of the statement. -/
def stop (span : Span) : Nat := span.start + span.statement.text.length

/-- The text holds a statement of this kind here. -/
def Occurs (kind : ImportKind) (source : List Char) (span : Span) : Prop :=
  IsStatement kind span.statement ∧ span.statement.text <+: source.drop span.start

def reference (kind : ImportKind) (source : List Char) (span : Span) : Reference :=
  ⟨kind, String.ofList span.statement.specifier,
    size (source.take span.start) + size span.statement.opening⟩

end Span

/-- The statements of one kind that `ofKindFrom` reads, with `start` characters before the text. -/
def spansFrom (kind : ImportKind) (start skip : Nat) : List Char → List Span
  | [] => []
  | c :: rest =>
    match skip with
    | skip + 1 => spansFrom kind (start + 1) skip rest
    | 0 =>
      match Statement.atFront? kind (c :: rest) with
      | none => spansFrom kind (start + 1) 0 rest
      | some s => ⟨start, s⟩ :: spansFrom kind (start + 1) (s.text.length - 1) rest

def spans (kind : ImportKind) (source : List Char) : List Span := spansFrom kind 0 0 source

variable {kind : ImportKind} {kinds : List ImportKind} {source front cs : List Char} {r : Reference}
  {span : Span} {st : Statement} {start skip k : Nat} {c : Char} {rest : List Char}

theorem spansFrom_skip :
    spansFrom kind start (skip + 1) (c :: rest) = spansFrom kind (start + 1) skip rest := rfl

theorem spansFrom_none (h : Statement.atFront? kind (c :: rest) = none) :
    spansFrom kind start 0 (c :: rest) = spansFrom kind (start + 1) 0 rest := by
  rw [spansFrom]
  simp only [h]

theorem spansFrom_some (h : Statement.atFront? kind (c :: rest) = some st) :
    spansFrom kind start 0 (c :: rest) =
      ⟨start, st⟩ :: spansFrom kind (start + 1) (st.text.length - 1) rest := by
  rw [spansFrom]
  simp only [h]

theorem ofKindFrom_eq_map (front : List Char) : ofKindFrom kind (size front) skip cs =
    (spansFrom kind front.length skip cs).map (Span.reference kind (front ++ cs)) := by
  induction cs generalizing front skip with
  | nil => rfl
  | cons c rest ih =>
    have hsize : size front + c.utf8Size = size (front ++ [c]) := by
      rw [size_append]
      rfl
    have hlength : front.length + 1 = (front ++ [c]).length := by simp
    have happend : front ++ c :: rest = front ++ [c] ++ rest := by simp
    cases skip with
    | succ skip => rw [ofKindFrom, spansFrom_skip, hsize, hlength, happend, ih]
    | zero =>
      rw [ofKindFrom]
      cases hread : Statement.atFront? kind (c :: rest) with
      | none => rw [spansFrom_none hread, hsize, hlength, happend, ih]
      | some st =>
        have htake : (front ++ [c] ++ rest).take front.length = front := by simp
        rw [spansFrom_some hread, hsize, hlength, happend, List.map_cons, Span.reference, htake, ← ih]

theorem ofKind_eq_map : ofKind kind source = (spans kind source).map (Span.reference kind source) :=
  ofKindFrom_eq_map []

/-- Spans begin behind what is skipped, where a statement is read. -/
theorem exists_atFront?_of_mem (h : span ∈ spansFrom kind start skip cs) :
    ∃ k, span.start = start + k ∧ skip ≤ k ∧
      Statement.atFront? kind (cs.drop k) = some span.statement := by
  induction cs generalizing start skip with
  | nil => simp [spansFrom] at h
  | cons c rest ih =>
    have hlater : ∀ {skip'}, skip ≤ skip' + 1 → span ∈ spansFrom kind (start + 1) skip' rest →
        ∃ k, span.start = start + k ∧ skip ≤ k ∧
          Statement.atFront? kind ((c :: rest).drop k) = some span.statement := by
      intro skip' hskip hspan
      obtain ⟨k, hstart, hk, hread⟩ := ih hspan
      exact ⟨k + 1, by omega, by omega, hread⟩
    cases skip with
    | succ skip => exact hlater le_rfl h
    | zero =>
      cases hread : Statement.atFront? kind (c :: rest) with
      | none =>
        rw [spansFrom_none hread] at h
        exact hlater (Nat.zero_le _) h
      | some st =>
        rw [spansFrom_some hread] at h
        rcases List.mem_cons.mp h with rfl | h
        · exact ⟨0, rfl, le_rfl, hread⟩
        · exact hlater (Nat.zero_le _) h

theorem read_of_mem_spans (h : span ∈ spans kind source) :
    Statement.atFront? kind (source.drop span.start) = some span.statement := by
  obtain ⟨k, hstart, -, hread⟩ := exists_atFront?_of_mem h
  rw [hstart, Nat.zero_add]
  exact hread

theorem occurs_of_mem_spans (h : span ∈ spans kind source) : span.Occurs kind source :=
  (Statement.reads_atFront? kind).sound (read_of_mem_spans h)

theorem length_text_pos (h : IsStatement kind st) : 0 < st.text.length := by
  obtain ⟨-, inner, ⟨lead, -, rfl⟩, -, rfl⟩ := h
  have hkeyword : kind.keyword ≠ [] := by cases kind <;> decide
  rw [Statement.text_after, List.length_append, List.length_append]
  have := List.length_pos_iff.mpr hkeyword
  omega

/-- No span begins inside another. -/
theorem pairwise_spansFrom :
    (spansFrom kind start skip cs).Pairwise fun a b => a.stop ≤ b.start := by
  induction cs generalizing start skip with
  | nil => exact .nil
  | cons c rest ih =>
    cases skip with
    | succ skip => exact ih
    | zero =>
      cases hread : Statement.atFront? kind (c :: rest) with
      | none =>
        rw [spansFrom_none hread]
        exact ih
      | some st =>
        rw [spansFrom_some hread]
        refine List.pairwise_cons.mpr ⟨fun span hspan => ?_, ih⟩
        obtain ⟨k, hstart, hk, -⟩ := exists_atFront?_of_mem hspan
        simp only [Span.stop]
        omega

/-- A statement that does not begin inside what is skipped begins inside a span. -/
theorem exists_span_of_prefix (start : Nat) (hst : IsStatement kind st) (h : st.text <+: cs.drop k)
    (hk : skip ≤ k) :
    ∃ span ∈ spansFrom kind start skip cs, span.start ≤ start + k ∧ start + k < span.stop := by
  induction cs generalizing start skip k with
  | nil =>
    have hpos := length_text_pos hst
    simp [List.prefix_nil.mp (by simpa using h)] at hpos
  | cons c rest ih =>
    have hlater : ∀ skip' k', k = k' + 1 → skip' ≤ k' →
        ∃ span ∈ spansFrom kind (start + 1) skip' rest,
          span.start ≤ start + k ∧ start + k < span.stop := by
      rintro skip' k' rfl hk'
      obtain ⟨span, hspan, hle, hlt⟩ := ih (start + 1) h hk'
      exact ⟨span, hspan, by omega, by omega⟩
    cases skip with
    | succ skip =>
      rw [spansFrom_skip]
      obtain ⟨k', rfl⟩ : ∃ k', k = k' + 1 := ⟨k - 1, by omega⟩
      exact hlater skip k' rfl (by omega)
    | zero =>
      cases hread : Statement.atFront? kind (c :: rest) with
      | none =>
        rw [spansFrom_none hread]
        cases k with
        | zero =>
          have hsome := (Statement.reads_atFront? kind).complete hst h
          rw [List.drop_zero, hread] at hsome
          simp at hsome
        | succ k' => exact hlater 0 k' rfl (Nat.zero_le _)
      | some found =>
        rw [spansFrom_some hread]
        -- A statement that begins inside `found` may end anywhere; it is passed over all the same.
        by_cases hlt : k < found.text.length
        · refine ⟨⟨start, found⟩, List.mem_cons_self, Nat.le_add_right _ _, ?_⟩
          simp only [Span.stop]
          omega
        · have hpos := length_text_pos ((Statement.reads_atFront? kind).sound hread).1
          obtain ⟨span, hspan, hbounds⟩ :=
            hlater (found.text.length - 1) (k - 1) (by omega) (by omega)
          exact ⟨span, List.mem_cons_of_mem _ hspan, hbounds⟩

theorem size_le_of_prefix (h : front <+: cs) : size front ≤ size cs := by
  obtain ⟨rest, rfl⟩ := h
  rw [size_append]
  exact Nat.le_add_right _ _

/-- The text up to the end of a span. -/
theorem take_stop (h : span.Occurs kind source) :
    source.take span.stop = source.take span.start ++ span.statement.text := by
  rw [Span.stop, List.take_add, ← List.prefix_iff_eq_take.mp h.2]

theorem size_pos (h : cs ≠ []) : 0 < size cs := by
  obtain ⟨c, rest, rfl⟩ := List.exists_cons_of_ne_nil h
  have := c.utf8Size_pos
  simp only [size]
  omega

theorem closing_ne_nil (h : IsStatement kind st) : st.closing ≠ [] := by
  obtain ⟨-, inner, -, ⟨-, -, -, -⟩, rfl⟩ := h
  exact List.cons_ne_nil _ _

theorem offset_lt_size_take (h : span.Occurs kind source) :
    (span.reference kind source).offset < size (source.take span.stop) := by
  have hpos := size_pos (closing_ne_nil h.1)
  rw [take_stop h, size_append, Statement.text, size_append, size_append]
  simp only [Span.reference]
  omega

theorem pairwise_ofKind (kind : ImportKind) (source : List Char) :
    (ofKind kind source).Pairwise fun r s => r.offset < s.offset := by
  rw [ofKind_eq_map, List.pairwise_map]
  refine pairwise_spansFrom.imp_of_mem fun {a b} ha _ hab => ?_
  calc (a.reference kind source).offset
    _ < size (source.take a.stop) := offset_lt_size_take (occurs_of_mem_spans ha)
    _ ≤ size (source.take b.start) := size_le_of_prefix (List.take_prefix_take_left hab)
    _ ≤ (b.reference kind source).offset := Nat.le_add_right _ _

theorem kind_of_mem_ofKind (h : r ∈ ofKind kind source) : r.kind = kind := by
  rw [ofKind_eq_map] at h
  obtain ⟨span, -, rfl⟩ := List.mem_map.mp h
  rfl

/-- A reference of a kind stands behind its keyword, what leads from there to the quote, and the
quote. -/
theorem exists_opening_of_mem_ofKind (h : r ∈ ofKind kind source) :
    ∃ before lead q q' after,
      source = before ++ (kind.keyword ++ lead) ++ q :: (r.specifier.toList ++ q' :: after) ∧
      r.offset = size (before ++ (kind.keyword ++ lead) ++ [q]) ∧ isQuote q = true ∧
      Leads kind.shape lead ∧ EndsFirst kind.shape r.specifier.toList q' after := by
  rw [ofKind_eq_map] at h
  obtain ⟨span, hspan, rfl⟩ := List.mem_map.mp h
  obtain ⟨front, q, q', after, hrest, hopening, hq, hends⟩ :=
    Statement.endsFirst_of_atFront? (read_of_mem_spans hspan)
  have hspecifier : (span.reference kind source).specifier.toList = span.statement.specifier :=
    String.toList_ofList
  obtain ⟨-, inner, ⟨lead, hlead, rfl⟩, ⟨-, -, -, -⟩, hstatement⟩ := (occurs_of_mem_spans hspan).1
  obtain ⟨rfl, -⟩ : kind.keyword ++ lead = front ∧ _ :=
    List.append_inj' ((congrArg Statement.opening hstatement).symm.trans hopening) rfl
  rw [hspecifier]
  refine ⟨source.take span.start, lead, q, q', after, ?_, ?_, hq, hlead, hends⟩
  · rw [List.append_assoc, ← hrest, List.take_append_drop]
  · rw [List.append_assoc, size_append, ← hopening]
    rfl

/-- A reference is what stands at its offset between a quote and the first quote that can close the
statement. -/
theorem exists_ends_of_mem_all {source : String} (h : r ∈ all kinds source) :
    ∃ before q q' after, source.toList = before ++ q :: (r.specifier.toList ++ q' :: after) ∧
      r.offset = size (before ++ [q]) ∧ isQuote q = true ∧
      EndsFirst r.kind.shape r.specifier.toList q' after := by
  obtain ⟨kind, -, hr⟩ := exists_kind_of_mem_all h
  obtain ⟨before, lead, q, q', after, hsource, hoffset, hq, -, hends⟩ :=
    exists_opening_of_mem_ofKind hr
  exact ⟨_, q, q', after, hsource, hoffset, hq, kind_of_mem_ofKind hr ▸ hends⟩

/-- The references of a text stand at increasing offsets, each between two quotes on one line. Those
of one kind belong to statements of this kind in the text that do not overlap, and every statement
of the kind that the text holds begins inside one of these: none lies before the first of them,
between two or behind the last. -/
theorem references_disjoint_and_maximal (source : String) :
    (∀ kinds, (all kinds source).Pairwise (fun r s => r.offset < s.offset) ∧
      ∀ r ∈ all kinds source, ∃ before q q' after,
        source.toList = before ++ q :: (r.specifier.toList ++ q' :: after) ∧
        r.offset = size (before ++ [q]) ∧ isQuote q = true ∧ isQuote q' = true ∧
        '\n' ∉ r.specifier.toList) ∧
    ∀ kind,
      all [kind] source = (spans kind source.toList).map (Span.reference kind source.toList) ∧
      (∀ span ∈ spans kind source.toList, span.Occurs kind source.toList) ∧
      ((spans kind source.toList).Pairwise fun a b => a.stop ≤ b.start) ∧
      (∀ other : Span, other.Occurs kind source.toList →
        ∃ span ∈ spans kind source.toList, span.start ≤ other.start ∧ other.start < span.stop) := by
  refine ⟨fun kinds => ⟨pairwise_all kinds source, fun r hr => ?_⟩, fun kind => ⟨?_, ?_, ?_, ?_⟩⟩
  · obtain ⟨before, q, q', after, hsource, hoffset, hq, hends⟩ := exists_ends_of_mem_all hr
    exact ⟨before, q, q', after, hsource, hoffset, hq, hends.quote, hends.line⟩
  · rw [all_singleton (pairwise_ofKind kind source.toList), ofKind_eq_map]
  · exact fun span hspan => occurs_of_mem_spans hspan
  · exact pairwise_spansFrom
  · intro other hother
    have hspan := exists_span_of_prefix 0 hother.1 hother.2 (Nat.zero_le _)
    simpa only [spans, Nat.zero_add] using hspan

/-- A statement inside another is not read again. -/
example : ofKind .dynamic "import('import('./a')');".toList = [⟨.dynamic, "import('./a", 8⟩] := by
  decide

end ImportCycles.Reference
